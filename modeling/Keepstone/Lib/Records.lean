import Keepstone.Lib.Bytes

/-!
# Files of length-prefixed records

A record is the length of its content in `width` bytes and then the content. `scan` reads records
from the front and stops, without an error, where what is left is not a whole record.

Results:
* **`scan_eq_iff`**: which bytes are read as which contents. Every other result here is a
  consequence;
* `scan_isPrefix`: more bytes at the end change nothing of what was read before;
* `scan_records_iff`: a file as long as its records is nothing but its records.
-/

namespace Keepstone.Lib

variable (width : Nat)

/-- One record. -/
def record (content : List UInt8) : List UInt8 := beBytes width content.length ++ content

/-- Records one after the other. -/
def records (contents : List (List UInt8)) : List UInt8 := contents.flatMap (record width)

/-- At most `fuel` records from the front of `rest`. -/
def scanUpTo : Nat → List UInt8 → List (List UInt8)
  | 0, _ => []
  | fuel + 1, rest =>
    if width ≤ rest.length then
      let len := beNat (rest.take width)
      let rest := rest.drop width
      if rest.length < len then [] else rest.take len :: scanUpTo fuel (rest.drop len)
    else []

/-- The records from the front of `bytes`. No record is shorter than a byte, so there are at most
as many as there are bytes. -/
def scan (bytes : List UInt8) : List (List UInt8) := scanUpTo width bytes.length bytes

/-- The content fits its length prefix. -/
def Fits (content : List UInt8) : Prop := content.length < 256 ^ width

/-- Bytes that do not begin with a whole record. -/
def NoRecord (rest : List UInt8) : Prop :=
  rest.length < width ∨ rest.length < width + beNat (rest.take width)

instance (content : List UInt8) : Decidable (Fits width content) :=
  inferInstanceAs (Decidable (_ < _))

instance (rest : List UInt8) : Decidable (NoRecord width rest) :=
  inferInstanceAs (Decidable (_ ∨ _))

variable {width}

@[simp] theorem records_nil : records width [] = [] := rfl

@[simp] theorem records_cons (content : List UInt8) (contents : List (List UInt8)) :
    records width (content :: contents) = record width content ++ records width contents :=
  List.flatMap_cons

@[simp] theorem records_append (first second : List (List UInt8)) :
    records width (first ++ second) = records width first ++ records width second :=
  List.flatMap_append

@[simp] theorem length_record (content : List UInt8) :
    (record width content).length = width + content.length := by
  rw [record, List.length_append, length_beBytes]

/-- The order of the records does not matter for their length. -/
theorem length_records_perm {first second : List (List UInt8)} (h : first.Perm second) :
    (records width first).length = (records width second).length :=
  (h.flatMap_right (record width)).length_eq

/-! ## What is read -/

theorem scanUpTo_of_noRecord {rest : List UInt8} (h : NoRecord width rest) :
    ∀ fuel, scanUpTo width fuel rest = []
  | 0 => rfl
  | fuel + 1 => by
    unfold scanUpTo
    by_cases hwidth : width ≤ rest.length
    · have hshort : (rest.drop width).length < beNat (rest.take width) := by
        rw [List.length_drop]
        rcases h with h | h <;> omega
      simp only [if_pos hwidth, if_pos hshort]
    · rw [if_neg hwidth]

theorem scanUpTo_record_append {content : List UInt8} (h : Fits width content)
    (rest : List UInt8) (fuel : Nat) :
    scanUpTo width (fuel + 1) (record width content ++ rest) =
      content :: scanUpTo width fuel rest := by
  have htake : (record width content ++ rest).take width = beBytes width content.length := by
    rw [record, List.append_assoc, List.take_left' (length_beBytes ..)]
  have hdrop : (record width content ++ rest).drop width = content ++ rest := by
    rw [record, List.append_assoc, List.drop_left' (length_beBytes ..)]
  have hwidth : width ≤ (record width content ++ rest).length := by
    rw [List.length_append, length_record]
    omega
  have hlong : ¬ (content ++ rest).length < content.length := by
    rw [List.length_append]
    omega
  rw [scanUpTo]
  simp only [if_pos hwidth, htake, hdrop, beNat_beBytes h, if_neg hlong, List.take_left,
    List.drop_left]

/-- **Bytes that begin with a whole record** are that record and the bytes after it. -/
theorem exists_record {bytes : List UInt8} (h : ¬ NoRecord width bytes) :
    ∃ content rest, Fits width content ∧ bytes = record width content ++ rest := by
  obtain ⟨hwidth, hlong⟩ := not_or.mp h
  have hlen : (bytes.take width).length = width := by
    rw [List.length_take]
    omega
  have hcontent : ((bytes.drop width).take (beNat (bytes.take width))).length =
      beNat (bytes.take width) := by
    rw [List.length_take, List.length_drop]
    omega
  refine ⟨(bytes.drop width).take (beNat (bytes.take width)),
    (bytes.drop width).drop (beNat (bytes.take width)), ?_, ?_⟩
  · unfold Fits
    rw [hcontent]
    have hlt := beNat_lt (bytes.take width)
    rwa [hlen] at hlt
  · have hcode : beBytes width (beNat (bytes.take width)) = bytes.take width := by
      have := beBytes_beNat (bytes.take width)
      rwa [hlen] at this
    rw [record, hcontent, hcode, List.append_assoc, List.take_append_drop, List.take_append_drop]

section Scan

variable (hwidth : 0 < width)
include hwidth

theorem length_record_pos (content : List UInt8) : 0 < (record width content).length := by
  rw [length_record]
  omega

theorem scanUpTo_eq_of_tail {contents : List (List UInt8)} {tail : List UInt8}
    (hfits : ∀ content ∈ contents, Fits width content) (htail : NoRecord width tail) :
    ∀ fuel, (records width contents ++ tail).length ≤ fuel →
      scanUpTo width fuel (records width contents ++ tail) = contents := by
  induction contents with
  | nil => exact fun fuel _ => scanUpTo_of_noRecord htail fuel
  | cons content contents ih =>
    intro fuel hfuel
    rw [records_cons, List.append_assoc] at hfuel ⊢
    have hpos := length_record_pos hwidth content
    rw [List.length_append] at hfuel
    obtain ⟨fuel, rfl⟩ : ∃ fuel', fuel = fuel' + 1 := ⟨fuel - 1, by omega⟩
    rw [scanUpTo_record_append (hfits content List.mem_cons_self),
      ih (fun c hc => hfits c (List.mem_cons_of_mem _ hc)) fuel (by omega)]

/-- All bytes are records and then a tail that is none. -/
theorem exists_records_tail (bytes : List UInt8) :
    ∃ contents tail, (∀ content ∈ contents, Fits width content) ∧ NoRecord width tail ∧
      bytes = records width contents ++ tail := by
  induction hn : bytes.length using Nat.strong_induction_on generalizing bytes with
  | _ n ih =>
    by_cases hnone : NoRecord width bytes
    · exact ⟨[], bytes, nofun, hnone, rfl⟩
    · obtain ⟨content, rest, hfits, rfl⟩ := exists_record hnone
      have hpos := length_record_pos hwidth content
      rw [List.length_append] at hn
      obtain ⟨contents, tail, hall, htail, hrest⟩ := ih rest.length (by omega) rest rfl
      refine ⟨content :: contents, tail, List.forall_mem_cons.mpr ⟨hfits, hall⟩, htail, ?_⟩
      rw [hrest, records_cons, List.append_assoc]

/-- **What is read**: the contents of the records the bytes begin with, up to a tail that does not
begin with one. -/
theorem scan_eq_iff {bytes : List UInt8} {contents : List (List UInt8)} :
    scan width bytes = contents ↔
      (∀ content ∈ contents, Fits width content) ∧
        ∃ tail, NoRecord width tail ∧ bytes = records width contents ++ tail := by
  constructor
  · rintro rfl
    obtain ⟨contents, tail, hfits, htail, rfl⟩ := exists_records_tail hwidth bytes
    have hscan : scan width (records width contents ++ tail) = contents :=
      scanUpTo_eq_of_tail hwidth hfits htail _ le_rfl
    rw [hscan]
    exact ⟨hfits, tail, htail, rfl⟩
  · rintro ⟨hfits, tail, htail, rfl⟩
    exact scanUpTo_eq_of_tail hwidth hfits htail _ le_rfl

theorem scan_spec (bytes : List UInt8) :
    (∀ content ∈ scan width bytes, Fits width content) ∧
      ∃ tail, NoRecord width tail ∧ bytes = records width (scan width bytes) ++ tail :=
  (scan_eq_iff hwidth).mp rfl

theorem scan_records_append {contents : List (List UInt8)}
    (hfits : ∀ content ∈ contents, Fits width content) (rest : List UInt8) :
    scan width (records width contents ++ rest) = contents ++ scan width rest := by
  obtain ⟨hrest, tail, htail, htail_eq⟩ := scan_spec hwidth rest
  refine (scan_eq_iff hwidth).mpr ⟨?_, tail, htail, ?_⟩
  · intro content hmem
    rcases List.mem_append.mp hmem with hmem | hmem
    · exact hfits content hmem
    · exact hrest content hmem
  · rw [records_append, List.append_assoc, ← htail_eq]

theorem scan_records {contents : List (List UInt8)}
    (hfits : ∀ content ∈ contents, Fits width content) :
    scan width (records width contents) = contents := by
  refine (scan_eq_iff hwidth).mpr ⟨hfits, [], Or.inl hwidth, ?_⟩
  rw [List.append_nil]

/-- More bytes at the end change nothing of what was read before. -/
theorem scan_isPrefix (bytes suffix : List UInt8) :
    scan width bytes <+: scan width (bytes ++ suffix) := by
  obtain ⟨hfits, tail, -, hbytes⟩ := scan_spec hwidth bytes
  have happend : scan width bytes ++ scan width (tail ++ suffix) = scan width (bytes ++ suffix) := by
    rw [← scan_records_append hwidth hfits, ← List.append_assoc, ← hbytes]
  exact ⟨_, happend⟩

/-- A file as long as the records of `contents` is read as `contents` only if it is nothing but
these records. -/
theorem scan_records_iff {bytes : List UInt8} {contents : List (List UInt8)}
    (hlen : bytes.length = (records width contents).length) :
    scan width bytes = contents ↔
      (∀ content ∈ contents, Fits width content) ∧ bytes = records width contents := by
  rw [scan_eq_iff hwidth]
  refine and_congr_right fun _ => ?_
  constructor
  · rintro ⟨tail, -, rfl⟩
    rw [List.length_append] at hlen
    rw [List.length_eq_zero_iff.mp (by omega : tail.length = 0), List.append_nil]
  · rintro rfl
    exact ⟨[], Or.inl hwidth, (List.append_nil _).symm⟩

end Scan

end Keepstone.Lib
