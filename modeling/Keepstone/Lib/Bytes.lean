import Mathlib.Data.List.Induction
import Mathlib.Data.Vector.Basic
import Mathlib.Tactic.Ring

/-!
# Byte strings

`Bytes n` is a byte string of length exactly `n` (the array type `[u8; n]`): the length is part
of the type, so no later proof re-establishes it. `beBytes k n` is the big-endian form of `n` in
`k` bytes and `beNat` reads it back.

Results:
* `beNat_beBytes`, `beBytes_beNat`: the two are inverse to each other on `k` bytes.
-/

namespace Keepstone.Lib

/-- A byte string of length `n`. -/
abbrev Bytes (n : Nat) := List.Vector UInt8 n

/-- A list of the right length as an array. -/
def bytesOf {n : Nat} (l : List UInt8) (h : l.length = n) : Bytes n := ⟨l, h⟩

@[simp] theorem toList_bytesOf {n : Nat} (l : List UInt8) (h : l.length = n) :
    (bytesOf l h).toList = l := rfl

theorem bytesOf_toList {n : Nat} (b : Bytes n) (h : b.toList.length = n) :
    bytesOf b.toList h = b := rfl

/-- Conversion of a slice to an array (`try_into`). -/
def tryBytes (n : Nat) (l : List UInt8) : Option (Bytes n) :=
  if h : l.length = n then some (bytesOf l h) else none

theorem tryBytes_eq_some_iff {n : Nat} {l : List UInt8} {b : Bytes n} :
    tryBytes n l = some b ↔ l = b.toList := by
  unfold tryBytes
  constructor
  · intro h
    split at h
    · rw [← Option.some.inj h, toList_bytesOf]
    · exact absurd h nofun
  · rintro rfl
    rw [dif_pos b.toList_length, bytesOf_toList]

theorem tryBytes_eq_none_iff {n : Nat} {l : List UInt8} : tryBytes n l = none ↔ l.length ≠ n := by
  unfold tryBytes
  split <;> simp_all

/-- The first `n` bytes of a longer array. -/
def takeBytes {m : Nat} (n : Nat) (bytes : Bytes m) (h : n ≤ m) : Bytes n :=
  bytesOf (bytes.toList.take n) (by rw [List.length_take, bytes.toList_length, Nat.min_eq_left h])

/-- Two arrays one after the other. -/
def appendBytes {m n : Nat} (a : Bytes m) (b : Bytes n) : Bytes (m + n) :=
  bytesOf (a.toList ++ b.toList) (by rw [List.length_append, a.toList_length, b.toList_length])

/-- The bytes of a string. -/
def utf8 (s : String) : List UInt8 := s.toUTF8.data.toList

theorem fromUTF8?_eq_some_iff {slice : List UInt8} {value : String} :
    String.fromUTF8? ⟨slice.toArray⟩ = some value ↔ utf8 value = slice := by
  unfold String.fromUTF8?
  constructor
  · intro h
    split at h
    · obtain rfl := Option.some.inj h
      rfl
    · exact absurd h nofun
  · rintro rfl
    have hvalid : (⟨(utf8 value).toArray⟩ : ByteArray).IsValidUTF8 :=
      value.isValidUTF8
    rw [dif_pos hvalid]
    rfl

/-- The `k` low-order bytes of `n`, most significant first. -/
def beBytes : Nat → Nat → List UInt8
  | 0, _ => []
  | k + 1, n => beBytes k (n / 256) ++ [UInt8.ofNat n]

/-- The number a byte string denotes, most significant byte first. -/
def beNat (bytes : List UInt8) : Nat := bytes.foldl (fun acc byte => acc * 256 + byte.toNat) 0

@[simp] theorem length_beBytes : ∀ k n, (beBytes k n).length = k
  | 0, _ => rfl
  | k + 1, n => by rw [beBytes, List.length_append, length_beBytes, List.length_singleton]

theorem beNat_concat (bytes : List UInt8) (byte : UInt8) :
    beNat (bytes ++ [byte]) = beNat bytes * 256 + byte.toNat := by
  unfold beNat
  rw [List.foldl_append, List.foldl_cons, List.foldl_nil]

theorem beNat_cons (byte : UInt8) (rest : List UInt8) :
    beNat (byte :: rest) = byte.toNat * 256 ^ rest.length + beNat rest := by
  induction rest using List.reverseRecOn with
  | nil => simp [beNat]
  | append_singleton rest last ih =>
    rw [← List.cons_append, beNat_concat, beNat_concat, ih, List.length_append,
      List.length_singleton, pow_succ, add_mul, mul_assoc, add_assoc]

theorem beNat_lt (bytes : List UInt8) : beNat bytes < 256 ^ bytes.length := by
  induction bytes using List.reverseRecOn with
  | nil => exact Nat.one_pos
  | append_singleton bytes byte ih =>
    have hbyte : byte.toNat < 256 := byte.toNat_lt
    rw [beNat_concat, List.length_append, List.length_singleton, pow_succ]
    omega

theorem beNat_beBytes : ∀ {k n : Nat}, n < 256 ^ k → beNat (beBytes k n) = n
  | 0, n, h => by
    rw [pow_zero, Nat.lt_one_iff] at h
    rw [h]
    rfl
  | k + 1, n, h => by
    have hdiv : n / 256 < 256 ^ k := by
      rw [pow_succ] at h
      exact Nat.div_lt_of_lt_mul (by rwa [mul_comm])
    rw [beBytes, beNat_concat, beNat_beBytes hdiv, UInt8.toNat_ofNat']
    omega

theorem beBytes_inj {k m n : Nat} (hm : m < 256 ^ k) (hn : n < 256 ^ k)
    (h : beBytes k m = beBytes k n) : m = n := by
  rw [← beNat_beBytes hm, h, beNat_beBytes hn]

theorem beBytes_beNat (bytes : List UInt8) : beBytes bytes.length (beNat bytes) = bytes := by
  induction bytes using List.reverseRecOn with
  | nil => rfl
  | append_singleton bytes byte ih =>
    have hbyte : byte.toNat < 256 := byte.toNat_lt
    have hdiv : (beNat bytes * 256 + byte.toNat) / 256 = beNat bytes := by omega
    have hlow : UInt8.ofNat (beNat bytes * 256 + byte.toNat) = byte := by
      refine UInt8.toNat_inj.mp ?_
      rw [UInt8.toNat_ofNat']
      omega
    rw [List.length_append, List.length_singleton, beBytes, beNat_concat, hdiv, hlow, ih]

end Keepstone.Lib
