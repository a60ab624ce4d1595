import Keepstone.Store.Opening

/-!
# Cells and the list of drops (`crates/core/src/address.rs:9-55`, `crates/store/src/lib.rs:90-108, 605-648`)

`list_drops` goes through the files of the directory in the order the system gives them and skips
those it cannot read as a drop. The id it reports is the hash of what the file holds, not its name.

Results:
* `mem_listDrops_iff`: what is listed, in whatever order the system gives the files.
-/

namespace Keepstone.Core

/-- `h3o`: what is used of it. A `CellIndex` is a number of 64 bits, a `Resolution` one of 16; an
error is its text. -/
structure H3o where
  /-- `LatLng::new`, as the check it makes. -/
  latLng : Float → Float → Except String Unit
  /-- `Resolution::try_from`. -/
  tryResolution : UInt8 → Except String (Fin 16)
  /-- `LatLng::to_cell`. -/
  toCell : Float → Float → Fin 16 → UInt64
  /-- `FromStr` for `CellIndex`. -/
  parse : String → Except String UInt64
  /-- `Display` for `CellIndex`. -/
  display : UInt64 → String
  /-- `CellIndex::resolution`. -/
  resolution : UInt64 → Fin 16
  /-- `CellIndex::grid_disk`. -/
  gridDisk : UInt64 → UInt32 → List UInt64

/-- `CellId`. -/
structure CellId where
  /-- The index. -/
  index : UInt64
  deriving DecidableEq

namespace CellId

variable (h3 : H3o)

/-- `CellId::from_lat_lng`. -/
def fromLatLng (lat lng : Float) (resolution : UInt8) : Except CoreError CellId := do
  (h3.latLng lat lng).mapError .cell
  let resolution ← (h3.tryResolution resolution).mapError .cell
  pure ⟨h3.toCell lat lng resolution⟩

/-- `CellId::parse_hex`. -/
def parseHex (text : String) : Except CoreError CellId := do
  let index ← (h3.parse text).mapError .cell
  pure ⟨index⟩

/-- `CellId::to_hex`. -/
def toHex (cell : CellId) : String := h3.display cell.index

/-- `CellId::resolution`. -/
def resolution (cell : CellId) : UInt8 := UInt8.ofNat (h3.resolution cell.index)

/-- `CellId::ring`. -/
def ring (cell : CellId) (k : UInt32) : List CellId := (h3.gridDisk cell.index k).map CellId.mk

end CellId

end Keepstone.Core

namespace Keepstone.Store

open Keepstone.Lib Keepstone.Crypto Keepstone.Core

variable (prim : Primitives) (h3 : H3o)

/-- `DropSummary`. -/
structure DropSummary where
  /-- Drop id. -/
  id : DropId
  /-- H3 cell (hex). -/
  cell : String
  /-- Delivery ring. -/
  ring : UInt32
  /-- Number of chunks. -/
  chunks : UInt32
  /-- Creation time. -/
  created : UInt64
  /-- Expiry (0 = never). -/
  expiry : UInt64
  /-- Crypto suite id. -/
  suite : UInt8
  /-- Signature kind. -/
  sigKind : UInt8
  deriving DecidableEq

/-- Whether the cell of a drop is in the ring around a point; with no point every cell is. -/
def isNear (near : Option (Float × Float)) (ring : UInt32) (cell : String) : Bool :=
  match near with
  | none => true
  | some (lat, lng) =>
    match CellId.parseHex h3 cell with
    | .error _ => false
    | .ok cell =>
      match CellId.fromLatLng h3 lat lng (cell.resolution h3) with
      | .error _ => false
      | .ok ours => (ours.ring h3 ring).contains cell

/-- One turn of the loop of `list_drops`: `none` where it continues without a summary. -/
def summaryOf (near : Option (Float × Float)) (ring : UInt32) (raw : List UInt8) :
    Option DropSummary := do
  let signed ← (SignedDrop.decode raw).toOption
  let body ← signed.body.toOption
  guard (isNear h3 near ring body.cell)
  pure
    { id := signed.id prim, cell := body.cell, ring := body.ring, chunks := body.chunkCount
      created := body.createdAt, expiry := body.expiry, suite := body.suite
      sigKind := signed.sigKind }

/-- The file of a drop. -/
def File.dropId : File → Option DropId
  | .drop id => some id
  | _ => none

/-- The ids that the files in `drops` have for names. -/
def dropIds (dir : Dir) : List DropId := dir.keys.filterMap File.dropId

/-- `Store::list_drops`, which never fails. `order` is the order in which `fs::read_dir` gives that
many files. -/
def listDrops (order : (n : Nat) → Equiv.Perm (Fin n)) (near : Option (Float × Float))
    (ring : UInt32) (dir : Dir) : List DropSummary :=
  let ids := dropIds dir
  (List.ofFn fun i => ids.get (order ids.length i)).filterMap fun id =>
    (dir.lookup (.drop id)).bind (summaryOf prim h3 near ring)

theorem mem_dropIds_iff {dir : Dir} {id : DropId} :
    id ∈ dropIds dir ↔ ∃ raw, dir.lookup (.drop id) = some raw := by
  have hkey : id ∈ dropIds dir ↔ File.drop id ∈ dir := by
    rw [dropIds, List.mem_filterMap]
    constructor
    · rintro ⟨file, hfile, hid⟩
      cases file with
      | drop other => exact Option.some.inj hid ▸ hfile
      | _ => exact absurd hid (by simp [File.dropId])
    · intro h
      exact ⟨.drop id, h, rfl⟩
  rw [hkey, ← AList.lookup_isSome, Option.isSome_iff_exists]

variable {prim h3}

/-- **What is listed**: the summaries of the stored drops that can be read and are near, whatever
the order of the files. -/
theorem mem_listDrops_iff {order : (n : Nat) → Equiv.Perm (Fin n)} {near : Option (Float × Float)}
    {ring : UInt32} {dir : Dir} {summary : DropSummary} :
    summary ∈ listDrops prim h3 order near ring dir ↔
      ∃ id raw, dir.lookup (.drop id) = some raw ∧
        summaryOf prim h3 near ring raw = some summary := by
  have hmem : ∀ id, (id ∈ List.ofFn fun i =>
      (dropIds dir).get (order (dropIds dir).length i)) ↔ id ∈ dropIds dir := by
    intro id
    rw [List.mem_ofFn, List.mem_iff_get]
    constructor
    · rintro ⟨i, rfl⟩
      exact ⟨_, rfl⟩
    · rintro ⟨i, rfl⟩
      exact ⟨(order _).symm i, by rw [Equiv.apply_symm_apply]⟩
  simp only [listDrops, List.mem_filterMap, hmem, Option.bind_eq_some_iff]
  constructor
  · rintro ⟨id, -, raw, hraw, hsummary⟩
    exact ⟨id, raw, hraw, hsummary⟩
  · rintro ⟨id, raw, hraw, hsummary⟩
    exact ⟨id, mem_dropIds_iff.mpr ⟨raw, hraw⟩, raw, hraw, hsummary⟩

end Keepstone.Store
