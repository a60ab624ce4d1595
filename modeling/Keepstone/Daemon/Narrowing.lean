import Keepstone.Daemon.Routing
import Keepstone.Store.Decoys

/-!
# The place of a created drop (`crates/daemon/src/main.rs:427-458`)

`api_create_drop` reads `ring` and `res` as `u64` and hands them on `as u32` and `as u8`. What is
left of them passes every later check: any ring will do, and `Resolution::try_from` is given the
low eight bits only. (`hunt_seed` converts the ring with `u32::try_from`.)

Results:
* `exec_apiCreateDrop`: where the drop is that a call has created;
* `asAsked_iff`: when that is where it was asked for;
* `exists_exec_apiCreateDrop`: a call that creates a drop, for all values that are not refused;
* **`created_as_asked_iff`**: the values for which every call creates the drop asked for.
-/

namespace Keepstone.Daemon

open Keepstone.Lib Keepstone.Core Keepstone.Store

/-! ## Requests for drops -/

/-- A body that asks for a ring and a resolution. -/
structure Asks (lib : Libraries) (text : List UInt8) (value : Json) (ring res : UInt64) : Prop where
  /-- The body is JSON. -/
  parsed : lib.fromSlice text = .ok value
  ring : value.get "ring" = some (.num (.posInt ring))
  res : value.get "res" = some (.num (.posInt res))

/-- What is relied on of the resolutions. -/
structure ResolutionLaws (h3 : H3o) : Prop where
  /-- Only the numbers 0 to 15 are accepted, each as itself. -/
  val_eq : ∀ n resolution, h3.tryResolution n = .ok resolution → resolution.val = n.toNat
  /-- The cell of a position is parsed from its text, with the resolution it was computed at. -/
  resolution_eq : ∀ lat lng, h3.latLng lat lng = .ok () → ∀ resolution, ∃ index,
    h3.parse (h3.display (h3.toCell lat lng resolution)) = .ok index ∧
      h3.resolution index = resolution

/-- The position in a body. -/
def positionOf (value : Json) : Float × Float :=
  (((value.get "lat").bind Json.asF64).getD 0, ((value.get "lng").bind Json.asF64).getD 0)

/-- Its cell at a resolution. -/
def cellOf (h3 : H3o) (value : Json) (resolution : Fin 16) : UInt64 :=
  h3.toCell (positionOf value).1 (positionOf value).2 resolution

/-- The drop that is answered with is stored with the ring asked for, and in the cell of the
position at the resolution asked for. -/
def AsAsked (h3 : H3o) (value : Json) (ring res : UInt64) (answer : Json) (dir : Dir) : Prop :=
  ∃ id signed body, answer = .obj [("id", .str (DropId.toHex id))] ∧
    readDrop dir id = .ok (signed, body) ∧ body.ring.toNat = ring.toNat ∧
    ∃ resolution : Fin 16, resolution.val = res.toNat ∧
      body.cell = h3.display (cellOf h3 value resolution)

/-- Both values fit the types they are cast to. -/
def FitCasts (ring res : UInt64) : Prop := ring.toNat < 2 ^ 32 ∧ res.toNat < 2 ^ 8

/-- The text of a cell of one position tells at which resolution it was computed. -/
theorem ResolutionLaws.resolution_inj {h3 : H3o} (laws : ResolutionLaws h3) {value : Json}
    (hposition : h3.latLng (positionOf value).1 (positionOf value).2 = .ok ())
    {resolution resolution' : Fin 16}
    (h : h3.display (cellOf h3 value resolution) = h3.display (cellOf h3 value resolution')) :
    resolution = resolution' := by
  obtain ⟨index, hparse, hindex⟩ := laws.resolution_eq _ _ hposition resolution
  obtain ⟨index', hparse', hindex'⟩ := laws.resolution_eq _ _ hposition resolution'
  have hsame : index = index' :=
    Except.ok.inj (hparse.symm.trans ((congrArg h3.parse h).trans hparse'))
  rw [← hindex, hsame, hindex']

/-- An answer names one drop. -/
theorem id_eq_of_answer {id id' : DropId}
    (h : Json.obj [("id", .str id.toHex)] = Json.obj [("id", .str id'.toHex)]) : id = id' := by
  have htexts : id.toHex = id'.toHex := by
    injection h with hentries
    injection hentries with hentry
    injection hentry with _ hvalue
    injection hvalue
  have hid := DropId.fromHex_toHex id
  rw [htexts, DropId.fromHex_toHex] at hid
  exact (Except.ok.inj hid).symm

/-! ## What is created -/

section Created

variable {lib : Libraries} {outside : Outside} {text : List UInt8} {value answer : Json}
  {ring res : UInt64} {disk disk' : Disk}

/-- **Where the drop is that a call has created**: the low bits of both values count. -/
theorem exec_apiCreateDrop (hasks : Asks lib text value ring res)
    (h : (apiCreateDrop lib outside text).exec disk = (.ok answer, disk')) :
    ∃ id signed body resolution, answer = .obj [("id", .str (DropId.toHex id))] ∧
      readDrop disk'.dir id = .ok (signed, body) ∧ body.ring = ring.toUInt32 ∧
      lib.h3.latLng (positionOf value).1 (positionOf value).2 = .ok () ∧
      lib.h3.tryResolution res.toUInt8 = .ok resolution ∧
      body.cell = lib.h3.display (cellOf lib.h3 value resolution) := by
  obtain ⟨value', _, hvalue, h⟩ := Program.exec_bind_eq_ok h
  obtain rfl : value = value' := Except.ok.inj
    (hasks.parsed.symm.trans (mapError_ok_iff.mp (Program.exec_ofExcept_eq_ok hvalue).1))
  obtain ⟨message, _, -, h⟩ := Program.exec_bind_eq_ok h
  obtain ⟨created, _, hcreate, h⟩ := Program.exec_bind_eq_ok h
  obtain ⟨rfl, rfl⟩ := Program.exec_pure_eq_ok h
  obtain ⟨signed, body, hread, hcell, hring⟩ :=
    exec_createDrop_place (Program.exec_mapErr_eq_ok hcreate)
  have hringOf : (createArgs value message).ring = ring.toUInt32 := by
    rw [createArgs, hasks.ring]
    rfl
  have hresOf : (createArgs value message).res = res.toUInt8 := by
    rw [createArgs, hasks.res]
    rfl
  rw [hresOf] at hcell
  obtain ⟨cell, hcell, hprinted⟩ := bind_ok_iff.mp hcell
  obtain ⟨_, hposition, hcell⟩ := bind_ok_iff.mp hcell
  obtain ⟨resolution, hresolution, hcell⟩ := bind_ok_iff.mp hcell
  obtain rfl := pure_ok_iff.mp hcell
  exact ⟨created.id, signed, body, resolution, rfl, hread, hring.trans hringOf,
    mapError_ok_iff.mp hposition, mapError_ok_iff.mp hresolution, (pure_ok_iff.mp hprinted).symm⟩

/-- **When a call has created the drop asked for**: nothing was lost of the two values. -/
theorem asAsked_iff (laws : ResolutionLaws lib.h3) (hasks : Asks lib text value ring res)
    (h : (apiCreateDrop lib outside text).exec disk = (.ok answer, disk')) :
    AsAsked lib.h3 value ring res answer disk'.dir ↔ FitCasts ring res := by
  obtain ⟨id, signed, body, resolution, hanswer, hread, hring, hposition, hresolution, hcell⟩ :=
    exec_apiCreateDrop hasks h
  have hringLow : body.ring.toNat = ring.toNat % 2 ^ 32 := by rw [hring, UInt64.toNat_toUInt32]
  have hresLow : resolution.val = res.toNat % 2 ^ 8 := by
    rw [laws.val_eq _ _ hresolution, UInt64.toNat_toUInt8]
  constructor
  · rintro ⟨id', signed', body', hanswer', hread', hring', resolution', hres', hcell'⟩
    obtain rfl := id_eq_of_answer (hanswer.symm.trans hanswer')
    obtain ⟨-, rfl⟩ := Prod.mk.inj (Except.ok.inj (hread.symm.trans hread'))
    obtain rfl := laws.resolution_inj hposition (hcell.symm.trans hcell')
    exact ⟨by omega, by omega⟩
  · rintro ⟨hfits, hfits'⟩
    refine ⟨id, signed, body, hanswer, hread, ?_, resolution, ?_, hcell⟩
    · rw [hringLow, Nat.mod_eq_of_lt hfits]
    · rw [hresLow, Nat.mod_eq_of_lt hfits']

end Created

/-! ## Calls that create -/

/-- The cell of one position at each resolution: the digits of `8928308280fffff`, the middle one of
its descendants from there on, and sevens after the last. -/
def knownCell (resolution : Fin 16) : Nat :=
  0x8028308280c0000 + resolution.val * 2 ^ 52 ||| 2 ^ (45 - 3 * resolution.val) - 1

/-- `h3o` at that position. -/
def knownPosition : H3o where
  latLng _ _ := .ok ()
  tryResolution r := if h : r.toNat < 16 then .ok ⟨r.toNat, h⟩ else .error "invalid resolution"
  toCell _ _ resolution := UInt64.ofNat (knownCell resolution)
  parse text :=
    match hexDecode ('0' :: text.toList) with
    | some bytes => .ok (UInt64.ofNat (beNat bytes))
    | none => .error "invalid digit"
  display index := String.ofList ((hexEncode (beBytes 8 index.toNat)).drop 1)
  resolution index := ⟨index.toNat / 2 ^ 52 % 16, Nat.mod_lt _ (by decide)⟩
  gridDisk index _ := [index]

theorem knownCell_spec : ∀ resolution : Fin 16, knownCell resolution < 2 ^ 60 ∧
    knownCell resolution / 2 ^ 52 % 16 = resolution.val := by decide +kernel

theorem toNat_knownCell (resolution : Fin 16) :
    (UInt64.ofNat (knownCell resolution)).toNat = knownCell resolution :=
  UInt64.toNat_ofNat_of_lt' ((knownCell_spec resolution).1.trans (by decide))

/-- Cells are printed without the digit that is zero in all of them. -/
theorem zero_hexEncode_knownCell : ∀ resolution : Fin 16,
    '0' :: (hexEncode (beBytes 8 (knownCell resolution))).drop 1 =
      hexEncode (beBytes 8 (knownCell resolution)) := by decide +kernel

theorem knownPosition_display (resolution : Fin 16) :
    knownPosition.display (UInt64.ofNat (knownCell resolution)) =
      String.ofList ((hexEncode (beBytes 8 (knownCell resolution))).drop 1) := by
  unfold knownPosition
  dsimp only
  rw [toNat_knownCell]

theorem knownPosition_parse {text : String} {bytes : List UInt8}
    (h : hexDecode ('0' :: text.toList) = some bytes) :
    knownPosition.parse text = .ok (UInt64.ofNat (beNat bytes)) := by
  unfold knownPosition
  dsimp only
  rw [h]

theorem knownPosition_laws : ResolutionLaws knownPosition where
  val_eq n resolution h := by
    by_cases hn : n.toNat < 16
    · rw [show knownPosition.tryResolution n = .ok ⟨n.toNat, hn⟩ from dif_pos hn] at h
      rw [← Except.ok.inj h]
    · rw [show knownPosition.tryResolution n = .error "invalid resolution" from dif_neg hn] at h
      exact absurd h nofun
  resolution_eq lat lng _ resolution := by
    obtain ⟨hlt, hdigit⟩ := knownCell_spec resolution
    have hdigits : hexDecode ('0' :: (knownPosition.display
        (knownPosition.toCell lat lng resolution)).toList) =
        some (beBytes 8 (knownCell resolution)) := by
      rw [show knownPosition.toCell lat lng resolution = UInt64.ofNat (knownCell resolution) from
        rfl, knownPosition_display, String.toList_ofList, zero_hexEncode_knownCell,
        hexDecode_hexEncode]
    have hparse := knownPosition_parse hdigits
    have hbytes : knownCell resolution < 256 ^ 8 := by omega
    rw [beNat_beBytes hbytes] at hparse
    refine ⟨_, hparse, Fin.ext ?_⟩
    rw [← toNat_knownCell resolution] at hdigit
    exact hdigit

/-- A request for a drop of `hello` to the known contact. -/
def helloRequest (ring res : UInt64) : Json :=
  .obj
    [("to", .arr [.str "bob"]),
      ("lat", .num (.float 37.775938728915946)),
      ("lng", .num (.float (-122.41795063018799))),
      ("res", .num (.posInt res)),
      ("ring", .num (.posInt ring)),
      ("message", .str "hello")]

/-- The same as text. -/
def helloText (ring res : UInt64) : List UInt8 :=
  utf8 ("\x7b\"to\":[\"bob\"],\"lat\":37.775938728915946,\"lng\":-122.41795063018799,\"res\":" ++
    toString res ++ ",\"ring\":" ++ toString ring ++ ",\"message\":\"hello\"\x7d")

/-- Libraries that read it. -/
def helloLibraries (ring res : UInt64) : Libraries :=
  { knownLibraries with
    prim := KnownAnswers.sending
    h3 := knownPosition
    fromSlice := fun text =>
      if text = helloText ring res then .ok (helloRequest ring res)
      else .error "expected value at line 1 column 1" }

theorem asks_helloText (ring res : UInt64) :
    Asks (helloLibraries ring res) (helloText ring res) (helloRequest ring res) ring res where
  parsed := if_pos rfl
  ring := rfl
  res := rfl

/-- **The known author's call creates a drop** whenever the low bits of `res` are a resolution. -/
theorem exists_exec_apiCreateDrop (ring res : UInt64) (h : res.toNat % 2 ^ 8 < 16) :
    ∃ answer disk, (apiCreateDrop (helloLibraries ring res) knownOutside
      (helloText ring res)).exec ⟨KnownAuthor.dir, []⟩ = (.ok answer, disk) := by
  have hres : res.toUInt8.toNat < 16 := by rwa [UInt64.toNat_toUInt8]
  have htexts : ∀ resolution : Fin 16, (utf8 (String.ofList
      ((hexEncode (beBytes 8 (knownCell resolution))).drop 1))).length ≤ 15 := by decide +kernel
  have htext : (utf8 (knownPosition.display
      (UInt64.ofNat (knownCell ⟨res.toUInt8.toNat, hres⟩)))).length ≤ 15 := by
    rw [knownPosition_display]
    exact htexts _
  have hcell : (do
      let cell ← CellId.fromLatLng knownPosition 37.775938728915946 (-122.41795063018799)
        res.toUInt8
      pure (cell.toHex knownPosition) : Except CoreError String) =
      .ok (knownPosition.display (UInt64.ofNat (knownCell ⟨res.toUInt8.toNat, hres⟩))) := by
    refine bind_ok_iff.mpr ⟨_, bind_ok_iff.mpr ⟨(), rfl, bind_ok_iff.mpr ⟨_, ?_, rfl⟩⟩, rfl⟩
    exact mapError_ok_iff.mpr (dif_pos hres)
  have hargs : createArgs (helloRequest ring res) "hello" =
      { KnownAuthor.args 1 false with
        lat := 37.775938728915946, lng := -122.41795063018799, res := res.toUInt8,
        ring := ring.toUInt32 } := rfl
  obtain ⟨created, stored, hcreate⟩ := @KnownAuthor.exists_created_at 1 Nat.one_ne_zero (by decide)
    false (fun lat lng res => do
      let cell ← CellId.fromLatLng knownPosition lat lng res
      pure (cell.toHex knownPosition))
    _ 37.775938728915946 (-122.41795063018799) res.toUInt8 ring.toUInt32 hcell htext
  rw [← hargs] at hcreate
  have hparsed : ((helloLibraries ring res).fromSlice (helloText ring res)).mapError
      Failure.message = .ok (helloRequest ring res) :=
    mapError_ok_iff.mpr (asks_helloText ring res).parsed
  refine ⟨.obj [("id", .str created.id.toHex)], stored, ?_⟩
  refine (Program.exec_ofExcept_bind hparsed _ _).trans ?_
  refine (Program.exec_ofExcept_bind (a := "hello") rfl _ _).trans ?_
  exact (Program.exec_bind_ok (Program.exec_mapErr_ok hcreate) _).trans rfl

/-- **When drops are created as they were asked for.** A call that creates a drop has created the
one that was asked for exactly when `ring` is below 2^32 and `res` below 2^8. So every call does,
whatever the rest of the request and the store, exactly for those values, and for the values of
`res` of which no resolution is left: with these no call creates a drop. -/
theorem created_as_asked_iff (ring res : UInt64) :
    (∀ lib : Libraries, ResolutionLaws lib.h3 → ∀ outside text value disk disk' answer,
      Asks lib text value ring res →
      (apiCreateDrop lib outside text).exec disk = (.ok answer, disk') →
      (AsAsked lib.h3 value ring res answer disk'.dir ↔ FitCasts ring res)) ∧
    ((∀ lib : Libraries, ResolutionLaws lib.h3 → ∀ outside text value disk disk' answer,
      Asks lib text value ring res →
      (apiCreateDrop lib outside text).exec disk = (.ok answer, disk') →
      AsAsked lib.h3 value ring res answer disk'.dir) ↔
      FitCasts ring res ∨ 16 ≤ res.toNat % 2 ^ 8) := by
  refine ⟨fun lib laws _ _ _ _ _ _ hasks h => asAsked_iff laws hasks h, ?_, ?_⟩
  · intro hall
    by_cases hres : res.toNat % 2 ^ 8 < 16
    · obtain ⟨answer, disk, hcreate⟩ := exists_exec_apiCreateDrop ring res hres
      have hasked := hall _ knownPosition_laws _ _ _ _ _ _ (asks_helloText ring res) hcreate
      exact Or.inl ((asAsked_iff knownPosition_laws (asks_helloText ring res) hcreate).mp hasked)
    · exact Or.inr (Nat.le_of_not_lt hres)
  · rintro (hfits | hrefused) lib laws outside text value disk disk' answer hasks h
    · exact (asAsked_iff laws hasks h).mpr hfits
    · -- the cast leaves no resolution
      obtain ⟨_, _, _, resolution, -, -, -, -, hresolution, -⟩ := exec_apiCreateDrop hasks h
      have hval := laws.val_eq _ _ hresolution
      rw [UInt64.toNat_toUInt8] at hval
      exact absurd (hval ▸ resolution.isLt) (Nat.not_lt.mpr hrefused)

/-- A drop asked for with ring 4294967298 at resolution 265 is created with ring 2 at
resolution 9. -/
theorem known_values_lost : ∃ answer disk,
    Asks (helloLibraries 4294967298 265) (helloText 4294967298 265) (helloRequest 4294967298 265)
      4294967298 265 ∧
    (apiCreateDrop (helloLibraries 4294967298 265) knownOutside (helloText 4294967298 265)).exec
      ⟨KnownAuthor.dir, []⟩ = (.ok answer, disk) ∧
    (∃ id signed body, answer = .obj [("id", .str (DropId.toHex id))] ∧
      readDrop disk.dir id = .ok (signed, body) ∧ body.ring = 2 ∧
      body.cell = "8928308280fffff") ∧
    ¬ AsAsked knownPosition (helloRequest 4294967298 265) 4294967298 265 answer disk.dir := by
  have hres : (265 : UInt64).toNat % 2 ^ 8 < 16 := by decide
  obtain ⟨answer, disk, hcreate⟩ := exists_exec_apiCreateDrop 4294967298 265 hres
  have hasks := asks_helloText 4294967298 265
  refine ⟨answer, disk, hasks, hcreate, ?_, fun hasked => ?_⟩
  · obtain ⟨id, signed, body, resolution, hanswer, hread, hring, -, hresolution, hcell⟩ :=
      exec_apiCreateDrop hasks hcreate
    obtain rfl : resolution = 9 := Fin.ext (knownPosition_laws.val_eq _ _ hresolution)
    have hdigits : (hexEncode (beBytes 8 (knownCell 9))).drop 1 = "8928308280fffff".toList := by
      decide +kernel
    have hprinted : knownPosition.display (UInt64.ofNat (knownCell 9)) = "8928308280fffff" := by
      rw [knownPosition_display, hdigits, String.ofList_toList]
    exact ⟨id, signed, body, hanswer, hread, hring, hcell.trans hprinted⟩
  · have hfits := ((asAsked_iff knownPosition_laws hasks hcreate).mp hasked).2
    exact absurd hfits (by decide)

end Keepstone.Daemon
