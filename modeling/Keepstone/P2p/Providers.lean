import Keepstone.Store.Listing

/-!
# Private lookups (`crates/p2p/src/lib.rs:606-654`, `crates/core/src/address.rs:29-55`)

`find_providers_private` looks up every cell of a ring, shuffled, and all at once. The lookups are
done in any order, and the first that is marked as that of the target gives the result. A candidate
is marked when its text, as `to_hex` prints it, is the text the caller gave. A cell may be given in
other spellings, which are parsed but never printed; then no candidate is marked.

A single lookup asks the network (`find_providers`): `Lookup` is what it gives for each text.

Results:
* `firstTarget_eq`, `firstTarget_eq_nil`: the loop over what is done, in any order;
* `findProvidersPrivate_eq`: what a private lookup returns;
* **`private_lookup_iff`**: when that is what the lookup of the cell itself returns.
-/

namespace Keepstone.P2p

open Keepstone.Lib Keepstone.Core

/-- `P2pError`. -/
inductive P2pError where
  | transport (message : String)
  | connection
  | protocol
  | timeout
  deriving DecidableEq

variable {PeerId : Type}

/-- `find_providers` at one peer, by the text of the cell. -/
abbrev Lookup (PeerId : Type) := String → Except P2pError (List PeerId)

/-- The order in which things come, for each number of them. -/
abbrev Order := (n : Nat) → Equiv.Perm (Fin n)

/-- A list in an order. -/
def reordered {α : Type} (order : Order) (l : List α) : List α :=
  List.ofFn fun i => l.get (order l.length i)

/-- `unwrap_or_default` on a lookup. -/
def found (result : Except P2pError (List PeerId)) : List PeerId := result.toOption.getD []

section Functions

variable (h3 : H3o)

/-- `nearby_cells`. -/
def nearbyCells (cell : String) (ring : UInt32) : Except P2pError (List String) := do
  let center ← (CellId.parseHex h3 cell).mapError fun _ => .protocol
  pure ((center.ring h3 ring).map (CellId.toHex h3))

/-- The loop over `pending.next()`. -/
def firstTarget : List (Bool × List PeerId) → List PeerId
  | [] => []
  | (isTarget, providers) :: rest => if isTarget then providers else firstTarget rest

/-- `find_providers_private`. The candidates are drawn in the order `shuffle`, and the lookups are
done in the order `done`. -/
def findProvidersPrivate (lookup : Lookup PeerId) (shuffle done : Order) (cell : String)
    (ring : UInt32) : Except P2pError (List PeerId) := do
  let cells ← nearbyCells h3 cell ring
  let pending := (reordered shuffle cells).map fun candidate =>
    (decide (candidate = cell), found (lookup candidate))
  pure (firstTarget (reordered done pending))

end Functions

/-- What is relied on of `h3o`. -/
structure RingLaws (h3 : H3o) : Prop where
  /-- A ring contains its centre. -/
  mem_gridDisk : ∀ text center k, h3.parse text = .ok center → center ∈ h3.gridDisk center k
  /-- A cell of the ring of a cell that was parsed is parsed from what it is printed as. -/
  parse_display : ∀ text center k, h3.parse text = .ok center → ∀ index ∈ h3.gridDisk center k,
    h3.parse (h3.display index) = .ok index

/-! ## What is returned -/

theorem perm_reordered {α : Type} (order : Order) (l : List α) : (reordered order l).Perm l := by
  have hperm := (order l.length).ofFn_comp_perm l.get
  rwa [List.ofFn_get] at hperm

/-- What is marked gives the result, whatever is done before it. -/
theorem firstTarget_eq {results : List (Bool × List PeerId)} {providers : List PeerId}
    (hmem : (true, providers) ∈ results) (hall : ∀ r ∈ results, r.1 = true → r.2 = providers) :
    firstTarget results = providers := by
  induction results with
  | nil => exact absurd hmem List.not_mem_nil
  | cons r rest ih =>
    obtain ⟨hr, hrest⟩ := List.forall_mem_cons.mp hall
    rw [firstTarget]
    split
    case isTrue hmarked => exact hr hmarked
    case isFalse hmarked =>
      refine ih ?_ hrest
      rcases List.mem_cons.mp hmem with rfl | hmem
      · exact absurd rfl hmarked
      · exact hmem

theorem firstTarget_eq_nil {results : List (Bool × List PeerId)}
    (hall : ∀ r ∈ results, r.1 = false) : firstTarget results = [] := by
  induction results with
  | nil => rfl
  | cons r rest ih =>
    obtain ⟨hr, hrest⟩ := List.forall_mem_cons.mp hall
    rw [firstTarget, hr, if_neg Bool.false_ne_true, ih hrest]

variable {h3 : H3o}

theorem nearbyCells_eq {cell : String} {center : CellId} (h : CellId.parseHex h3 cell = .ok center)
    (ring : UInt32) :
    nearbyCells h3 cell ring = .ok ((center.ring h3 ring).map (CellId.toHex h3)) := by
  rw [nearbyCells, h]
  rfl

theorem parse_of_parseHex {cell : String} {center : CellId}
    (h : CellId.parseHex h3 cell = .ok center) : h3.parse cell = .ok center.index := by
  rw [CellId.parseHex] at h
  cases hparse : h3.parse cell with
  | error e =>
    rw [hparse] at h
    exact absurd h nofun
  | ok index =>
    rw [hparse] at h
    rw [← Except.ok.inj h]

/-- A text that is printed for a cell of the ring is that of the cell it is parsed as. -/
theorem toHex_eq_of_mem (hlaws : RingLaws h3) {cell : String} {center : CellId}
    (h : CellId.parseHex h3 cell = .ok center) {ring : UInt32}
    (hmem : cell ∈ (center.ring h3 ring).map (CellId.toHex h3)) : center.toHex h3 = cell := by
  obtain ⟨other, hother, hcell⟩ := List.mem_map.mp hmem
  obtain ⟨index, hindex, rfl⟩ := List.mem_map.mp hother
  have hparse := parse_of_parseHex h
  have hback := hlaws.parse_display cell center.index ring hparse index hindex
  rw [show h3.display index = cell from hcell, hparse] at hback
  rw [CellId.toHex, Except.ok.inj hback]
  exact hcell

/-- **What a private lookup returns**: what is found for the text, if that is how the cell is
printed, and nothing otherwise. -/
theorem findProvidersPrivate_eq (hlaws : RingLaws h3) (lookup : Lookup PeerId)
    (shuffle done : Order) {cell : String} {center : CellId}
    (h : CellId.parseHex h3 cell = .ok center) (ring : UInt32) :
    findProvidersPrivate h3 lookup shuffle done cell ring =
      .ok (if center.toHex h3 = cell then found (lookup cell) else []) := by
  rw [findProvidersPrivate, nearbyCells_eq h]
  refine congrArg Except.ok ?_
  -- the order plays no part: only what is among the results does
  have hresults (r : Bool × List PeerId) : r ∈ reordered done ((reordered shuffle
      ((center.ring h3 ring).map (CellId.toHex h3))).map fun candidate =>
        (decide (candidate = cell), found (lookup candidate))) ↔
      ∃ candidate ∈ (center.ring h3 ring).map (CellId.toHex h3),
        (decide (candidate = cell), found (lookup candidate)) = r := by
    rw [(perm_reordered done _).mem_iff, List.mem_map]
    simp only [(perm_reordered shuffle _).mem_iff]
  by_cases hcanonical : center.toHex h3 = cell
  · rw [if_pos hcanonical]
    have hmarked : decide (cell = cell) = true := decide_eq_true rfl
    refine firstTarget_eq ((hresults _).mpr ⟨cell, ?_, by rw [hmarked]⟩) fun r hr hmarked => ?_
    · rw [← hcanonical]
      have hcenter := hlaws.mem_gridDisk cell center.index ring (parse_of_parseHex h)
      exact List.mem_map_of_mem (List.mem_map_of_mem hcenter)
    · obtain ⟨candidate, -, rfl⟩ := (hresults r).mp hr
      rw [of_decide_eq_true hmarked]
  · rw [if_neg hcanonical]
    refine firstTarget_eq_nil fun r hr => ?_
    obtain ⟨candidate, hmem, rfl⟩ := (hresults r).mp hr
    refine decide_eq_false ?_
    rintro rfl
    exact hcanonical (toHex_eq_of_mem hlaws h hmem)

/-- **When a private lookup returns what the lookup of the cell does**: when the cell is spelled as
it is printed, or that lookup finds nothing. It is the same whether the lookup is made under the
text that was given or under the one that is printed. -/
theorem private_lookup_iff (hlaws : RingLaws h3) (lookup : Lookup PeerId) (shuffle done : Order)
    {cell : String} {center : CellId} (h : CellId.parseHex h3 cell = .ok center) (ring : UInt32) :
    (findProvidersPrivate h3 lookup shuffle done cell ring =
        .ok (found (lookup (center.toHex h3))) ↔
      center.toHex h3 = cell ∨ found (lookup (center.toHex h3)) = []) ∧
    (findProvidersPrivate h3 lookup shuffle done cell ring = .ok (found (lookup cell)) ↔
      center.toHex h3 = cell ∨ found (lookup cell) = []) := by
  rw [findProvidersPrivate_eq hlaws lookup shuffle done h ring]
  by_cases hcanonical : center.toHex h3 = cell
  · simp [hcanonical]
  · rw [if_neg hcanonical]
    constructor
    · rw [or_iff_right hcanonical, Except.ok.injEq, eq_comm]
    · rw [or_iff_right hcanonical, Except.ok.injEq, eq_comm]

/-- The cell of the tests and its six neighbours. -/
def knownDisk : List UInt64 :=
  [0x8928308280fffff, 0x8928308280bffff, 0x89283082873ffff, 0x89283082877ffff, 0x8928308283bffff,
    0x89283082807ffff, 0x89283082803ffff]

/-- A hexadecimal number. -/
def fromHex (digits : List Char) : Option Nat :=
  digits.foldlM (fun n c => (hexValue c).map (16 * n + ·)) 0

/-- `h3o` on these cells: hexadecimal is read in either letter case and printed in lower case. -/
def knownH3 : H3o where
  latLng _ _ := .ok ()
  tryResolution r := if h : r.toNat < 16 then .ok ⟨r.toNat, h⟩ else .error "invalid resolution"
  toCell _ _ _ := 0x8928308280fffff
  parse text :=
    match fromHex text.toList with
    | some n =>
      if n < 2 ^ 64 ∧ UInt64.ofNat n ∈ knownDisk then .ok (UInt64.ofNat n)
      else .error "invalid cell index"
    | none => .error "invalid digit"
  display index := String.ofList ((hexEncode (beBytes 8 index.toNat)).dropWhile (· = '0'))
  resolution _ := ⟨9, by decide⟩
  gridDisk index k := if index = 0x8928308280fffff ∧ 0 < k then knownDisk else [index]

theorem knownH3_gridDisk (index : UInt64) (k : UInt32) :
    knownH3.gridDisk index k =
      if index = 0x8928308280fffff ∧ 0 < k then knownDisk else [index] := rfl

theorem knownH3_parse_ok_iff {text : String} {index : UInt64} :
    knownH3.parse text = .ok index ↔
      fromHex text.toList = some index.toNat ∧ index ∈ knownDisk := by
  unfold knownH3
  dsimp only
  cases fromHex text.toList with
  | none => exact iff_of_false nofun fun h => absurd h.1.symm (Option.some_ne_none _)
  | some n =>
    dsimp only
    by_cases hknown : n < 2 ^ 64 ∧ UInt64.ofNat n ∈ knownDisk
    · rw [if_pos hknown, Except.ok.injEq, Option.some_inj, ← UInt64.toNat_inj,
        UInt64.toNat_ofNat_of_lt' hknown.1]
      refine ⟨fun h => ⟨h, ?_⟩, fun h => h.1⟩
      rw [← UInt64.ofNat_toNat (x := index), ← h]
      exact hknown.2
    · rw [if_neg hknown]
      refine iff_of_false nofun ?_
      rintro ⟨hn, hmem⟩
      obtain rfl := Option.some.inj hn
      exact hknown ⟨index.toNat_lt, by rwa [UInt64.ofNat_toNat]⟩

theorem fromHex_hexEncode (bytes : List UInt8) :
    fromHex (hexEncode bytes) = some (beNat bytes) := by
  induction bytes using List.reverseRecOn with
  | nil => rfl
  | append_singleton bytes byte ih =>
    have hbyte : byte.toNat < 256 := byte.toNat_lt
    have hhigh := hexValue_hexDigit (byte.toNat / 16) (by omega)
    have hlow := hexValue_hexDigit (byte.toNat % 16) (by omega)
    rw [fromHex] at ih ⊢
    rw [hexEncode, List.flatMap_append, List.foldlM_append]
    change (hexEncode bytes).foldlM _ 0 >>= _ = _
    rw [ih, beNat_concat]
    simp only [List.flatMap_singleton, List.foldlM_cons, List.foldlM_nil, hhigh, hlow,
      Option.bind_eq_bind, Option.bind_some, Option.map_some, Option.pure_def, Option.some_inj]
    omega

/-- Leading zeros do not count. -/
theorem fromHex_dropWhile (digits : List Char) :
    fromHex (digits.dropWhile (· = '0')) = fromHex digits := by
  induction digits with
  | nil => rfl
  | cons c rest ih =>
    by_cases hzero : c = '0'
    · subst hzero
      rw [List.dropWhile_cons_of_pos (by decide), ih, fromHex, fromHex, List.foldlM_cons]
      rfl
    · rw [List.dropWhile_cons_of_neg (by rwa [decide_eq_true_eq])]

theorem knownLaws : RingLaws knownH3 where
  mem_gridDisk text center k h := by
    rw [knownH3_gridDisk]
    by_cases hdisk : center = 0x8928308280fffff ∧ 0 < k
    · rw [if_pos hdisk]
      exact (knownH3_parse_ok_iff.mp h).2
    · rw [if_neg hdisk]
      exact List.mem_singleton_self center
  parse_display text center k h index hindex := by
    have hmem : index ∈ knownDisk := by
      rw [knownH3_gridDisk] at hindex
      by_cases hdisk : center = 0x8928308280fffff ∧ 0 < k
      · rw [if_pos hdisk] at hindex
        exact hindex
      · rw [if_neg hdisk] at hindex
        rw [List.mem_singleton.mp hindex]
        exact (knownH3_parse_ok_iff.mp h).2
    refine knownH3_parse_ok_iff.mpr ⟨?_, hmem⟩
    rw [show knownH3.display index = String.ofList _ from rfl, String.toList_ofList]
    rw [fromHex_dropWhile, fromHex_hexEncode, beNat_beBytes index.toNat_lt]

/-- One peer serves the cell, whichever way it is spelled. -/
def knownLookup : Lookup String := fun text =>
  if text.toList.map Char.toLower = "8928308280fffff".toList then .ok ["peer"] else .ok []

/-- Everything comes last in, first out. -/
def reversed : Order := fun _ => Fin.revPerm

/-- The cell in both spellings. -/
theorem known_spellings :
    CellId.parseHex knownH3 "8928308280fffff" = .ok ⟨0x8928308280fffff⟩ ∧
      CellId.parseHex knownH3 "8928308280FFFFF" = .ok ⟨0x8928308280fffff⟩ ∧
      CellId.toHex knownH3 ⟨0x8928308280fffff⟩ = "8928308280fffff" := by
  have hlower : knownH3.parse "8928308280fffff" = .ok 0x8928308280fffff :=
    knownH3_parse_ok_iff.mpr (by decide +kernel)
  have hupper : knownH3.parse "8928308280FFFFF" = .ok 0x8928308280fffff :=
    knownH3_parse_ok_iff.mpr (by decide +kernel)
  refine ⟨?_, ?_, ?_⟩
  · rw [CellId.parseHex, hlower]
    rfl
  · rw [CellId.parseHex, hupper]
    rfl
  · have hdigits : (hexEncode (beBytes 8 0x8928308280fffff)).dropWhile (· = '0') =
        "8928308280fffff".toList := by decide +kernel
    rw [← String.ofList_toList (s := "8928308280fffff"), ← hdigits]
    rfl

/-- The provider is found among seven lookups. -/
theorem known_provider_found :
    findProvidersPrivate knownH3 knownLookup reversed reversed "8928308280fffff" 1 =
      .ok ["peer"] := by
  obtain ⟨hcell, -, hprinted⟩ := known_spellings
  have hsame := (private_lookup_iff knownLaws knownLookup reversed reversed hcell 1).2
  have hfound : found (knownLookup "8928308280fffff") = ["peer"] := by decide +kernel
  rw [← hfound]
  exact hsame.mpr (Or.inl hprinted)

/-- The same cell in upper case is accepted, its provider is not found. -/
theorem known_provider_missed :
    (nearbyCells knownH3 "8928308280FFFFF" 1).isOk = true ∧
      found (knownLookup "8928308280fffff") = ["peer"] ∧
      found (knownLookup "8928308280FFFFF") = ["peer"] ∧
      findProvidersPrivate knownH3 knownLookup reversed reversed "8928308280FFFFF" 1 = .ok [] := by
  obtain ⟨-, hcell, hprinted⟩ := known_spellings
  refine ⟨by rw [nearbyCells_eq hcell]; rfl, by decide +kernel, by decide +kernel, ?_⟩
  rw [findProvidersPrivate_eq knownLaws knownLookup reversed reversed hcell, hprinted, if_neg]
  decide +kernel

end Keepstone.P2p
