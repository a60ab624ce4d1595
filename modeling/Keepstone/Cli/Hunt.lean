import Keepstone.Cli.Fetch
import Keepstone.Daemon.Handlers
import Keepstone.Store.Decoys
import Mathlib.Logic.Equiv.List

/-!
# Seeding a hunt (`crates/cli/src/main.rs:326-328, 429-450, 883-894, 955-1004`)

A hunt is a JSON file with participants and entries. `hunt_seed` creates a drop for each entry
that has no id and puts the id into the entry, in memory; the file is written once, after the last
entry. An entry that fails ends the run, and with it the ids of the drops created before it.

Parsing and printing of JSON is third-party code (`Serde`), of which it is asked that a hunt that
was parsed keeps its ids. What is printed at the end is left out, with the counter that only it
uses. `Hunting.made` is no part of the program: it is the history of the drops that have come into
the store, each with the entry it was created for.

Results:
* `newDrops_dropCreate`: a call of `drop_create` brings at most one drop into the store;
* `seedEntries_spec`: what the loop does to entries and store when it gets through;
* `exec_of_completes`, `exec_of_harmless`: when it does, and when it leaves the store as it is;
* **`seeded_once`**: in a sequence of runs each of which finds all that it needs to create every
  drop, or cannot create the first, every entry has at most one drop, and its id is in the file.
-/

namespace Keepstone.Cli

open Keepstone.Lib Keepstone.Crypto Keepstone.Core Keepstone.Store Keepstone.Daemon

/-! ## JSON objects -/

/-- `BTreeMap::insert`. -/
def insertEntry (key : String) (value : Json) : List (String × Json) → List (String × Json)
  | [] => [(key, value)]
  | (k, v) :: rest =>
    if key = k then (key, value) :: rest
    else if key < k then (key, value) :: (k, v) :: rest
    else (k, v) :: insertEntry key value rest

/-- Assignment to `value[key]`: null becomes an object, and what is no object panics. -/
def assign (key : String) (value : Json) : Json → Option Json
  | .null => some (.obj [(key, value)])
  | .obj entries => some (.obj (insertEntry key value entries))
  | _ => none

theorem lookup_insertEntry (key : String) (value : Json) (entries : List (String × Json)) :
    (insertEntry key value entries).lookup key = some value := by
  induction entries with
  | nil => simp [insertEntry]
  | cons e rest ih =>
    obtain ⟨k, v⟩ := e
    unfold insertEntry
    by_cases heq : key = k
    · simp [heq]
    · have hne : (key == k) = false := beq_eq_false_iff_ne.mpr heq
      by_cases hlt : key < k
      · simp [heq, hlt]
      · simp [heq, hlt, List.lookup_cons, hne, ih]

theorem get_assign {key : String} {value json json' : Json}
    (h : assign key value json = some json') : json'.get key = some value := by
  cases json with
  | null =>
    obtain rfl := Option.some.inj h
    simp [Json.get]
  | obj entries =>
    obtain rfl := Option.some.inj h
    exact lookup_insertEntry key value entries
  | bool => exact absurd h nofun
  | num => exact absurd h nofun
  | str => exact absurd h nofun
  | arr => exact absurd h nofun

/-! ## The state -/

/-- `serde_json`; the errors are their texts. -/
structure Serde where
  /-- `from_str`. -/
  fromStr : List Char → Except String Json
  /-- `to_string_pretty`. -/
  toStringPretty : Json → Except String (List Char)

/-- The data directory with the file of one hunt, and the history of its drops. -/
structure Hunting where
  /-- The store. -/
  disk : Disk
  /-- `hunts/<name>.json`. -/
  hunt : Option (List UInt8)
  /-- The drops that have come into the store, with the positions of their entries. -/
  made : List (Nat × DropId)

/-- How a run ends that does not return. -/
inductive SeedStop where
  | error (error : CliError)
  | panics
  | diverges
  deriving DecidableEq

/-- `?` on what the store returns. -/
def SeedStop.ofStop : Stop → SeedStop
  | .error e => .error (.store e)
  | .diverges => .diverges

/-- A program on the store. -/
def onDisk {ε α : Type} (m : Program ε Disk α) : Program ε Hunting α :=
  .step fun s => ((m.exec s.disk).1, { s with disk := (m.exec s.disk).2 })

/-- `fs::write` on the file of the hunt. -/
def writeHunt (bytes : List UInt8) : Program IoError Hunting Unit :=
  .step fun s =>
    match s.disk.outcomes with
    | [] => (.ok (), { s with hunt := some bytes })
    | .done :: rest => (.ok (), { s with disk := ⟨s.disk.dir, rest⟩, hunt := some bytes })
    | .refused :: rest => (.error .system, { s with disk := ⟨s.disk.dir, rest⟩ })
    | .torn k :: rest =>
      (.error .system, { s with disk := ⟨s.disk.dir, rest⟩, hunt := some (bytes.take k) })

/-- The drops that `after` has and `before` has not. -/
def newDrops (before after : Dir) : List DropId :=
  after.keys.filterMap fun file =>
    match file with
    | .drop id => if (before.lookup (.drop id)).isNone then some id else none
    | _ => none

/-! ## The command -/

variable (prim : Primitives) (cellAt : Float → Float → UInt8 → Except CoreError String)
  (serde : Serde) (name : String)

/-- `load_hunt`. -/
def loadHunt : Program SeedStop Hunting Json := do
  let text ← .reads fun s => okOr (s.hunt.bind readText)
    (.error (.context ("no hunt `" ++ name ++ "`") (.io .system)))
  .ofExcept ((serde.fromStr text).mapError fun e => .error (.message e))

/-- `save_hunt`. -/
def saveHunt (value : Json) : Program SeedStop Hunting Unit := do
  let _ ← (onDisk createDirAll).ok
  let text ← .ofExcept ((serde.toStringPretty value).mapError fun e => .error (.message e))
  (writeHunt (textBytes text)).mapErr fun e => .error (.context "writing hunt" (.io e))

/-- `drop_create` with a message: opens the store first. -/
def dropCreate (now : UInt64) (args : CreateArgs) (draws : Draws) :
    Program SeedStop Disk CreatedDrop := do
  createDirAll.mapErr fun e => .error (.store (.io e))
  (createDrop prim cellAt now args draws).mapErr .ofStop

/-- The state when a creation for the entry at position `i` has ended with `disk`. -/
def Hunting.ended (s : Hunting) (i : Nat) (disk : Disk) : Hunting :=
  { s with
    disk
    made := s.made ++ (newDrops s.disk.dir disk.dir).map fun id => (i, id) }

/-- `drop_create` for the entry at position `i`, with the history. -/
def createFor (i : Nat) (now : UInt64) (args : CreateArgs) (draws : Draws) :
    Program SeedStop Hunting CreatedDrop :=
  .step fun s =>
    (((dropCreate prim cellAt now args draws).exec s.disk).1,
      s.ended i ((dropCreate prim cellAt now args draws).exec s.disk).2)

/-- The names of the participants. -/
def participantsOf (value : Json) : List String :=
  match (value.get "participants").bind Json.asArray with
  | some array => array.filterMap Json.asStr
  | none => []

/-- The text under `id`. -/
def idOf (entry : Json) : Option String := (entry.get "id").bind Json.asStr

/-- Whether the entry has an id. -/
def already (entry : Json) : Bool :=
  match idOf entry with
  | some id => !id.isEmpty
  | none => false

/-- What `hunt_seed` passes to `drop_create`. -/
def seedArgs (participants : List String) (entry : Json) : Except SeedStop CreateArgs := do
  let lat := ((entry.get "lat").bind Json.asF64).getD 0
  let lng := ((entry.get "lng").bind Json.asF64).getD 0
  let ring ← u32TryFrom (.error .conversion)
    (((entry.get "ring").bind Json.asU64).getD 2).toNat
  let suite := ((entry.get "suite").bind Json.asStr).getD "classical"
  let message := ((entry.get "message").bind Json.asStr).getD ""
  pure
    { names := participants, lat, lng, res := 9, ring, ttl := 0, suite, plaintext := utf8 message }

/-- What one run takes from the system: the clock and the draws of each entry, and how its calls
end. -/
structure SeedRun where
  /-- `now_unix` for the entry at each position. -/
  now : Nat → UInt64
  /-- What `create_drop` draws for it. -/
  draws : Nat → Draws
  /-- The outcomes of the calls. -/
  outcomes : List Outcome

/-- One turn of the loop. -/
def seedEntry (run : SeedRun) (participants : List String) (i : Nat) (entry : Json) :
    Program SeedStop Hunting Json :=
  if already entry then pure entry
  else do
    let args ← .ofExcept (seedArgs participants entry)
    let created ← createFor prim cellAt i (run.now i) args (run.draws i)
    .ofExcept (okOr (assign "id" (.str created.id.toHex) entry) .panics)

/-- The loop, from position `i` on. -/
def seedEntries (run : SeedRun) (participants : List String) (i : Nat) :
    List Json → Program SeedStop Hunting (List Json)
  | [] => pure []
  | entry :: rest => do
    let entry ← seedEntry prim cellAt run participants i entry
    let rest ← seedEntries run participants (i + 1) rest
    pure (entry :: rest)

/-- `hunt_seed`. A value with participants is an object, so the entries can be assigned to. -/
def huntSeed (run : SeedRun) : Program SeedStop Hunting Unit := do
  let value ← loadHunt serde name
  let participants := participantsOf value
  .ofExcept (check (!participants.isEmpty)
    (.error (.message ("hunt `" ++ name ++ "` has no participants"))))
  let drops ← .ofExcept (okOr ((value.get "drops").bind Json.asArray)
    (.error (.message "malformed hunt file")))
  let drops ← seedEntries prim cellAt run participants 0 drops
  let value ← .ofExcept (okOr (assign "drops" (.arr drops) value) .panics)
  saveHunt serde value

variable {prim cellAt serde name}

/-! ## What comes into the store -/

theorem mem_newDrops {before after : Dir} {id : DropId} :
    id ∈ newDrops before after ↔
      (after.lookup (.drop id)).isSome ∧ before.lookup (.drop id) = none := by
  unfold newDrops
  rw [List.mem_filterMap]
  constructor
  · rintro ⟨file, hfile, hid⟩
    split at hid
    case h_1 id' =>
      split at hid
      case isTrue hnone =>
        obtain rfl := Option.some.inj hid
        exact ⟨AList.lookup_isSome.mpr hfile, Option.isNone_iff_eq_none.mp hnone⟩
      case isFalse => exact absurd hid nofun
    case h_2 => exact absurd hid nofun
  · rintro ⟨hsome, hnone⟩
    refine ⟨.drop id, AList.lookup_isSome.mp hsome, ?_⟩
    exact if_pos (Option.isNone_iff_eq_none.mpr hnone)

theorem nodup_newDrops (before after : Dir) : (newDrops before after).Nodup := by
  refine after.keys_nodup.filterMap fun file file' id hid hid' => ?_
  cases file with
  | drop id₁ =>
    cases file' with
    | drop id₂ =>
      simp only [Option.mem_def, Option.ite_none_right_eq_some, Option.some.injEq] at hid hid'
      rw [hid.2, hid'.2]
    | _ => exact absurd hid' nofun
  | _ => exact absurd hid nofun

/-- If the envelopes of all other drops stay, there is at most one new drop. -/
theorem newDrops_eq {before after : Dir} {id : DropId}
    (h : ∀ other, other ≠ id → after.lookup (.drop other) = before.lookup (.drop other)) :
    newDrops before after = [] ∨ newDrops before after = [id] := by
  have hall : ∀ other ∈ newDrops before after, other = id := by
    intro other hmem
    by_contra hne
    obtain ⟨hsome, hnone⟩ := mem_newDrops.mp hmem
    rw [h other hne, hnone] at hsome
    exact absurd hsome nofun
  have hnodup := nodup_newDrops before after
  match hdrops : newDrops before after with
  | [] => exact .inl rfl
  | [other] =>
    rw [hall other (by rw [hdrops]; exact List.mem_cons_self)]
    exact .inr rfl
  | first :: second :: rest =>
    rw [hdrops] at hnodup hall
    have hsame : first = second := by
      rw [hall first (by simp), hall second (by simp)]
    simp [hsame] at hnodup

variable (prim cellAt) in
/-- **A call of `drop_create` brings at most one drop into the store**, the one it returns. -/
theorem newDrops_dropCreate (now : UInt64) (args : CreateArgs) (draws : Draws) (disk : Disk) :
    ∃ id, (∀ created, ((dropCreate prim cellAt now args draws).exec disk).1 = .ok created →
        created.id = id) ∧
      (newDrops disk.dir ((dropCreate prim cellAt now args draws).exec disk).2.dir = [] ∨
        newDrops disk.dir ((dropCreate prim cellAt now args draws).exec disk).2.dir = [id]) := by
  have hopen := exec_createDirAll disk
  unfold dropCreate
  cases hexec : createDirAll.exec disk with
  | mk r disk' =>
    obtain rfl : disk' = ⟨disk.dir, disk.outcomes.tail⟩ := by rw [← hopen, hexec]
    cases r with
    | error e =>
      rw [Program.exec_bind_error (Program.exec_mapErr_error hexec)]
      exact ⟨⟨List.Vector.replicate 32 0⟩, nofun, newDrops_eq fun _ _ => rfl⟩
    | ok u =>
      rw [Program.exec_bind_ok (Program.exec_mapErr_ok hexec)]
      obtain ⟨id, hid, hothers⟩ := exec_createDrop_others prim cellAt now args draws
        ⟨disk.dir, disk.outcomes.tail⟩
      refine ⟨id, fun created hcreated => hid created (mapError_ok_iff.mp hcreated), ?_⟩
      exact newDrops_eq hothers

/-! ## The loop -/

/-- What a loop that gets through makes of the entries from position `i` on, and which drops it
brings into the store: an entry with an id stays, another gets the id of its drop. -/
inductive Seeds : Nat → List Json → List Json → List (Nat × DropId) → Prop
  | nil {i : Nat} : Seeds i [] [] []
  | skip {i : Nat} {entry : Json} {rest out : List Json} {new : List (Nat × DropId)} :
    already entry = true → Seeds (i + 1) rest out new → Seeds i (entry :: rest) (entry :: out) new
  | create {i : Nat} {entry entry' : Json} {id : DropId} {rest out : List Json}
    {here new : List (Nat × DropId)} :
    already entry = false → assign "id" (.str id.toHex) entry = some entry' →
    here = [] ∨ here = [(i, id)] →
    Seeds (i + 1) rest out new → Seeds i (entry :: rest) (entry' :: out) (here ++ new)

theorem toHex_ne_empty (id : DropId) : id.toHex ≠ "" := by
  intro hempty
  have hlen := congrArg (fun text : String => text.toList.length) hempty
  simp [DropId.toHex, length_hexEncode] at hlen

theorem idOf_assign {entry entry' : Json} {id : DropId}
    (h : assign "id" (.str id.toHex) entry = some entry') : idOf entry' = some id.toHex := by
  rw [idOf, get_assign h]
  rfl

theorem already_of_idOf {entry : Json} {id : DropId} (h : idOf entry = some id.toHex) :
    already entry = true := by
  simp [already, h, toHex_ne_empty id]

section Seeds

variable {i : Nat} {entries out : List Json} {new : List (Nat × DropId)}

/-- A drop is created for an entry without an id, and its id is put there. -/
theorem Seeds.recorded (h : Seeds i entries out new) {j : Nat} {id : DropId}
    (hmem : (j, id) ∈ new) :
    i ≤ j ∧ (∃ entry, entries[j - i]? = some entry ∧ already entry = false) ∧
      ∃ entry, out[j - i]? = some entry ∧ idOf entry = some id.toHex := by
  induction h with
  | nil => exact absurd hmem List.not_mem_nil
  | @skip i entry rest out new hentry _ ih =>
    obtain ⟨hle, hbefore, hafter⟩ := ih hmem
    have hsub : j - i = j - (i + 1) + 1 := by omega
    rw [hsub, List.getElem?_cons_succ, List.getElem?_cons_succ]
    exact ⟨by omega, hbefore, hafter⟩
  | @create i entry entry' id' rest out here new hentry hassign hhere _ ih =>
    rcases List.mem_append.mp hmem with hfirst | hrest
    · rcases hhere with rfl | rfl
      · exact absurd hfirst List.not_mem_nil
      · obtain ⟨rfl, rfl⟩ := Prod.mk.inj (List.mem_singleton.mp hfirst)
        rw [Nat.sub_self]
        exact ⟨le_rfl, ⟨entry, rfl, hentry⟩, entry', rfl, idOf_assign hassign⟩
    · obtain ⟨hle, hbefore, hafter⟩ := ih hrest
      have hsub : j - i = j - (i + 1) + 1 := by omega
      rw [hsub, List.getElem?_cons_succ, List.getElem?_cons_succ]
      exact ⟨by omega, hbefore, hafter⟩

/-- An entry gets at most one drop. -/
theorem Seeds.nodup (h : Seeds i entries out new) : (new.map Prod.fst).Nodup := by
  induction h with
  | nil => exact List.nodup_nil
  | skip _ _ ih => exact ih
  | @create i entry entry' id rest out here new hentry hassign hhere hrest ih =>
    rcases hhere with rfl | rfl
    · exact ih
    · refine List.nodup_cons.mpr ⟨fun hmem => ?_, ih⟩
      obtain ⟨⟨j, id'⟩, hnew, rfl⟩ := List.mem_map.mp hmem
      have := (hrest.recorded hnew).1
      omega

/-- An entry with an id stays. -/
theorem Seeds.kept (h : Seeds i entries out new) {j : Nat} {entry : Json}
    (hentry : entries[j]? = some entry) (halready : already entry = true) :
    out[j]? = some entry := by
  induction h generalizing j with
  | nil => exact absurd hentry (by simp)
  | skip _ _ ih =>
    cases j with
    | zero => exact hentry
    | succ j => exact ih hentry
  | create hnone _ _ _ ih =>
    cases j with
    | zero =>
      obtain rfl := Option.some.inj hentry
      exact absurd (hnone.symm.trans halready) nofun
    | succ j => exact ih hentry

/-- An entry stays, or an id is put into it. -/
theorem Seeds.forall₂ (h : Seeds i entries out new) :
    List.Forall₂ (fun entry entry' => entry' = entry ∨
      ∃ id : DropId, assign "id" (.str id.toHex) entry = some entry') entries out := by
  induction h with
  | nil => exact .nil
  | skip _ _ ih => exact .cons (.inl rfl) ih
  | @create i entry entry' id rest out here new hentry hassign hhere hrest ih =>
    exact .cons (.inr ⟨id, hassign⟩) ih

end Seeds

section Loop

variable {run : SeedRun} {participants : List String}

/-- A creation that returns brings nothing but its own drop into the store. -/
theorem createFor_spec {i : Nat} {now : UInt64} {args : CreateArgs} {draws : Draws}
    {created : CreatedDrop} {s s' : Hunting}
    (h : (createFor prim cellAt i now args draws).exec s = (.ok created, s')) :
    ∃ here, (here = [] ∨ here = [(i, created.id)]) ∧ s'.made = s.made ++ here ∧
      s'.hunt = s.hunt := by
  obtain ⟨hvalue, rfl⟩ := Prod.mk.inj h
  obtain ⟨id, hid, hnew⟩ := newDrops_dropCreate prim cellAt now args draws s.disk
  refine ⟨_, ?_, rfl, rfl⟩
  rw [hid created hvalue]
  rcases hnew with hnone | hone
  · rw [hnone]
    exact .inl rfl
  · rw [hone]
    exact .inr rfl

/-- What the loop does when it gets through. -/
theorem seedEntries_spec {i : Nat} {entries out : List Json} {s s' : Hunting}
    (h : (seedEntries prim cellAt run participants i entries).exec s = (.ok out, s')) :
    ∃ new, Seeds i entries out new ∧ s'.made = s.made ++ new ∧ s'.hunt = s.hunt := by
  induction entries generalizing i out s with
  | nil =>
    obtain ⟨rfl, rfl⟩ := Program.exec_pure_eq_ok h
    exact ⟨[], .nil, (List.append_nil _).symm, rfl⟩
  | cons entry rest ih =>
    obtain ⟨entry', s₁, hentry, h⟩ := Program.exec_bind_eq_ok h
    obtain ⟨out', s₂, hrest, h⟩ := Program.exec_bind_eq_ok h
    obtain ⟨rfl, rfl⟩ := Program.exec_pure_eq_ok h
    obtain ⟨new, hseeds, hmade, hhunt⟩ := ih hrest
    unfold seedEntry at hentry
    split at hentry
    case isTrue halready =>
      obtain ⟨rfl, rfl⟩ := Program.exec_pure_eq_ok hentry
      exact ⟨new, .skip halready hseeds, hmade, hhunt⟩
    case isFalse halready =>
      obtain ⟨args, _, hargs, hentry⟩ := Program.exec_bind_eq_ok hentry
      obtain ⟨-, rfl⟩ := Program.exec_ofExcept_eq_ok hargs
      obtain ⟨created, _, hcreated, hentry⟩ := Program.exec_bind_eq_ok hentry
      obtain ⟨hassign, rfl⟩ := Program.exec_ofExcept_eq_ok hentry
      obtain ⟨here, hhere, hmade₁, hhunt₁⟩ := createFor_spec hcreated
      refine ⟨here ++ new,
        .create (Bool.not_eq_true _ ▸ halready) (okOr_ok_iff.mp hassign) hhere hseeds, ?_, ?_⟩
      · rw [hmade, hmade₁, List.append_assoc]
      · rw [hhunt, hhunt₁]

end Loop

/-! ## The file -/

/-- What is in the file. -/
def loaded (serde : Serde) (hunt : Option (List UInt8)) : Option Json :=
  (hunt.bind readText).bind fun text => (serde.fromStr text).toOption

/-- The id that the entry at position `i` has. -/
def idAt (value : Json) (i : Nat) : Option String :=
  ((value.get "drops").bind Json.asArray).bind fun drops => drops[i]?.bind idOf

/-- The id that the file records for the entry at position `i`. -/
def recorded (serde : Serde) (hunt : Option (List UInt8)) (i : Nat) : Option String :=
  (loaded serde hunt).bind fun value => idAt value i

/-- A hunt with ids put into some of its entries. -/
def Reseeded (value value' : Json) : Prop :=
  ∃ drops out, (value.get "drops").bind Json.asArray = some drops ∧
    List.Forall₂ (fun entry entry' => entry' = entry ∨
      ∃ id : DropId, assign "id" (.str id.toHex) entry = some entry') drops out ∧
    assign "drops" (.arr out) value = some value'

/-- A hunt that was parsed, and has ids put into some of its entries, can be printed, and what is
printed is parsed to a hunt with the same ids. -/
def Serde.KeepsIds (serde : Serde) : Prop :=
  ∀ text value value', serde.fromStr text = .ok value → Reseeded value value' →
    ∃ text' parsed, serde.toStringPretty value' = .ok text' ∧ serde.fromStr text' = .ok parsed ∧
      ∀ i, idAt parsed i = idAt value' i

theorem idAt_of_drops {value : Json} {drops : List Json}
    (h : (value.get "drops").bind Json.asArray = some drops) (i : Nat) :
    idAt value i = drops[i]?.bind idOf := by
  rw [idAt, h, Option.bind_some]

theorem idAt_assign {value value' : Json} {drops : List Json}
    (h : assign "drops" (.arr drops) value = some value') (i : Nat) :
    idAt value' i = drops[i]?.bind idOf := by
  refine idAt_of_drops ?_ i
  rw [get_assign h]
  rfl

theorem recorded_of_loaded {hunt : Option (List UInt8)} {value : Json}
    (h : loaded serde hunt = some value) (i : Nat) : recorded serde hunt i = idAt value i := by
  rw [recorded, h, Option.bind_some]

/-- What is saved, if no write is torn: the file has the ids of the value, or it stays. -/
theorem exec_saveHunt (hserde : serde.KeepsIds) {hunt : Option (List UInt8)} {found value : Json}
    (hfound : loaded serde hunt = some found) (hreseeded : Reseeded found value) {s : Hunting}
    (h : ∀ k, s.disk.outcomes[1]? ≠ some (.torn k)) :
    ((saveHunt serde value).exec s).2.made = s.made ∧
      ((∀ i, recorded serde ((saveHunt serde value).exec s).2.hunt i = idAt value i) ∨
        s.disk.outcomes[1]? = some .refused ∧
          ((saveHunt serde value).exec s).2.hunt = s.hunt) := by
  obtain ⟨_, -, hparsed⟩ := Option.bind_eq_some_iff.mp hfound
  obtain ⟨text, value', hprint, hparse, hids⟩ :=
    hserde _ found value (toOption_eq_some_iff.mp hparsed) hreseeded
  rw [← List.head?_tail] at h ⊢
  have hsaved : ∀ i, recorded serde (some (textBytes text)) i = idAt value i := by
    intro i
    have hloaded : loaded serde (some (textBytes text)) = some value' := by
      rw [loaded, Option.bind_some, readText_textBytes, Option.bind_some, hparse]
      rfl
    rw [recorded_of_loaded hloaded, hids]
  have hdir : ((onDisk createDirAll).ok : Program SeedStop Hunting (Option Unit)).exec s =
      (.ok (createDirAll.exec s.disk).1.toOption,
        { s with disk := ⟨s.disk.dir, s.disk.outcomes.tail⟩ }) := by
    rw [← exec_createDirAll]
    rfl
  unfold saveHunt
  rw [Program.exec_bind_ok hdir, Program.exec_ofExcept_bind (mapError_ok_iff.mpr hprint),
    Program.mapErr, Program.exec_step, writeHunt, Program.exec_step]
  cases htail : s.disk.outcomes.tail with
  | nil => exact ⟨rfl, .inl hsaved⟩
  | cons outcome rest =>
    rw [htail] at h
    cases outcome with
    | done => exact ⟨rfl, .inl hsaved⟩
    | refused => exact ⟨rfl, .inr ⟨rfl, rfl⟩⟩
    | torn k => exact absurd rfl (h k)

/-! ## Clean runs -/

/-- Whether `value[key]` can be assigned to. -/
def assignable : Json → Bool
  | .null => true
  | .obj _ => true
  | _ => false

theorem exists_assign {json : Json} (h : assignable json = true) (key : String) (value : Json) :
    ∃ json', assign key value json = some json' := by
  cases json with
  | null => exact ⟨_, rfl⟩
  | obj entries => exact ⟨_, rfl⟩
  | bool => exact absurd h nofun
  | num => exact absurd h nofun
  | str => exact absurd h nofun
  | arr => exact absurd h nofun

section Clean

variable (prim cellAt) (run : SeedRun) (participants : List String)

/-- What the entry at position `i` needs to be seeded: it can be assigned an id, its fields are in
their ranges, its drop can be created, and that is for at most 2^20 devices. -/
structure Seedable (i : Nat) (entry : Json) (dir : Dir) : Prop where
  assignable : assignable entry = true
  creatable : ∃ args, seedArgs participants entry = .ok args ∧
    Creatable prim cellAt args (run.draws i) dir ∧
    ∀ devices, resolve dir args = .ok devices → devices.length ≤ 2 ^ 20

/-- Nothing fails: each entry without an id can be seeded, and no call is refused or torn. -/
def Completes (drops : List Json) (dir : Dir) : Prop :=
  (∀ outcome ∈ run.outcomes, outcome = .done) ∧
    ∀ e ∈ drops.zipIdx, already e.1 = false → Seedable prim cellAt run participants e.2 e.1 dir

/-- Nothing comes into the store: all entries have an id, and the write of the file is not torn; or
the first without one has a field out of its range, or a drop that cannot be created, or a call
fails that is made before the envelope of its drop is written. -/
def Harmless (drops : List Json) (dir : Dir) : Prop :=
  match drops.zipIdx.find? fun e => !already e.1 with
  | none => ∀ k, run.outcomes[1]? ≠ some (.torn k)
  | some (entry, i) => ∀ args, seedArgs participants entry = .ok args →
    ¬ Creatable prim cellAt args (run.draws i) dir ∨
      ∃ outcome ∈ run.outcomes.take (2 + chunkCount args.plaintext.length), outcome ≠ .done

end Clean

theorem Seedable.after {run : SeedRun} {participants : List String} {i : Nat} {entry : Json}
    {before dir : Dir} (h : Seedable prim cellAt run participants i entry before)
    (hsame : SameAuthor prim before dir) : Seedable prim cellAt run participants i entry dir := by
  obtain ⟨hassignable, args, hargs, hcreatable, hcount⟩ := h
  refine ⟨hassignable, args, hargs, hcreatable.after hsame, ?_⟩
  rw [hsame.resolve]
  exact hcount

/-- `drop_create` opens the store first. -/
theorem exec_dropCreate_quiet {disk : Disk} (hquiet : disk.Quiet) (now : UInt64)
    (args : CreateArgs) (draws : Draws) :
    (dropCreate prim cellAt now args draws).exec disk =
      ((createDrop prim cellAt now args draws).mapErr SeedStop.ofStop).exec
        ⟨disk.dir, disk.outcomes.tail⟩ := by
  unfold dropCreate
  exact Program.exec_bind_ok (Program.exec_mapErr_ok (exec_call hquiet _ _)) _

/-- What can be created is, and leaves what creating depends on. -/
theorem returns_dropCreate (laws : ReturnLaws prim) (lengths : LengthLaws prim)
    (hcells : ∀ lat lng res cell, cellAt lat lng res = .ok cell → (utf8 cell).length ≤ 16)
    {args : CreateArgs} {draws : Draws} {disk : Disk} (hquiet : disk.Quiet)
    (h : Creatable prim cellAt args draws disk.dir)
    (hcount : ∀ devices, resolve disk.dir args = .ok devices → devices.length ≤ 2 ^ 20)
    (now : UInt64) :
    ∃ created disk', (dropCreate prim cellAt now args draws).exec disk = (.ok created, disk') ∧
      disk'.Quiet ∧ SameAuthor prim disk.dir disk'.dir := by
  have hopened : Creatable prim cellAt args draws (Disk.mk disk.dir disk.outcomes.tail).dir := h
  obtain ⟨created, disk', hcreate, hquiet'⟩ :=
    returns_createDrop laws lengths hcells now hopened (hquiet.tail disk.dir) hcount
  have hstart : Safely (SameAuthor prim disk.dir) ⟨disk.dir, disk.outcomes.tail⟩ :=
    ⟨.refl prim disk.dir, (hquiet.tail disk.dir).intact⟩
  have hsame := (keeps_createDrop_sameAuthor laws cellAt now args draws).after hstart hcreate
  refine ⟨created, disk', ?_, hquiet', hsame.1⟩
  rw [exec_dropCreate_quiet hquiet]
  exact Program.exec_mapErr_ok hcreate

/-- What cannot be created does not come into the store, and neither does what a call fails for. -/
theorem exec_dropCreate_of_not (now : UInt64) {args : CreateArgs} {draws : Draws} {disk : Disk}
    (h : ¬ Creatable prim cellAt args draws disk.dir ∨
      ∃ outcome ∈ disk.outcomes.take (2 + chunkCount args.plaintext.length), outcome ≠ .done) :
    ∃ e disk', (dropCreate prim cellAt now args draws).exec disk = (.error e, disk') ∧
      newDrops disk.dir disk'.dir = [] := by
  have hnone : ∀ {dir : Dir}, (∀ id, dir.lookup (.drop id) = disk.dir.lookup (.drop id)) →
      newDrops disk.dir dir = [] := by
    intro dir hsame
    refine List.eq_nil_iff_forall_not_mem.mpr fun id hid => ?_
    obtain ⟨hsome, hlookup⟩ := mem_newDrops.mp hid
    rw [hsame, hlookup] at hsome
    exact absurd hsome (by simp)
  unfold dropCreate
  cases hopen : createDirAll.exec disk with
  | mk r opened =>
    have hdir : opened.dir = disk.dir := by
      have hexec := exec_createDirAll disk
      rw [hopen] at hexec
      rw [show opened = _ from hexec]
    cases r with
    | error e =>
      refine ⟨_, opened, Program.exec_bind_error (Program.exec_mapErr_error hopen) _, ?_⟩
      rw [hdir]
      exact hnone fun _ => rfl
    | ok u =>
      rw [Program.exec_bind_ok (Program.exec_mapErr_ok hopen)]
      cases hexec : (untilEnvelope prim cellAt now args draws).exec opened with
      | mk r disk' =>
        cases r with
        | error stop =>
          have hkept := fun id => (keeps_untilEnvelope prim
            (keeps_mldsaOrCreate prim (ignores_lookup (by simp) _).always draws.mlDsa)
            (fun _ _ => (ignores_lookup (by simp) _).always) cellAt now args).after
            (I := fun d : Disk => d.dir.lookup (.drop id) = disk.dir.lookup (.drop id))
            (by rw [hdir]) hexec
          refine ⟨.ofStop stop, disk', ?_, hnone hkept⟩
          rw [createDrop_eq]
          exact Program.exec_mapErr_error (Program.exec_bind_error hexec _)
        | ok pair =>
          -- it has come to its envelope, so all was there and no call has failed
          obtain ⟨hcreatable, hcalls⟩ := creatable_of_untilEnvelope hexec
          have hspent := spent_call hopen
          rcases h with hnot | ⟨outcome, ho, hne⟩
          · exact absurd (hdir ▸ hcreatable) hnot
          · have hall := hspent.trans (⟨rfl, hcalls⟩ : opened.Spent _
              ⟨opened.dir, opened.outcomes.drop (1 + chunkCount args.plaintext.length)⟩)
            refine absurd (hall.2 outcome ?_) hne
            rwa [← Nat.add_assoc]

section Loop

variable {run : SeedRun} {participants : List String}

theorem exec_seedEntry_already {entry : Json} (h : already entry = true) (i : Nat) (s : Hunting) :
    (seedEntry prim cellAt run participants i entry).exec s = (.ok entry, s) := by
  rw [seedEntry, if_pos h]
  rfl

/-- A turn that calls `drop_create`, up to the assignment. -/
theorem exec_seedEntry_create {entry : Json} (h : ¬ already entry = true) {args : CreateArgs}
    (hargs : seedArgs participants entry = .ok args) {i : Nat} {s : Hunting}
    {r : Except SeedStop CreatedDrop} {disk : Disk}
    (hcreate : (dropCreate prim cellAt (run.now i) args (run.draws i)).exec s.disk = (r, disk)) :
    (seedEntry prim cellAt run participants i entry).exec s =
      (r >>= fun created => okOr (assign "id" (.str created.id.toHex) entry) .panics,
        s.ended i disk) := by
  have hcreated : (createFor prim cellAt i (run.now i) args (run.draws i)).exec s =
      (r, s.ended i disk) := by
    rw [createFor, Program.exec_step, hcreate]
  rw [seedEntry, if_neg h, Program.exec_ofExcept_bind hargs]
  cases r with
  | error e => exact Program.exec_bind_error hcreated _
  | ok created => exact Program.exec_bind_ok hcreated _

/-- A loop gets through when each entry without an id can be seeded and no call fails. What one turn
creates leaves what the next needs. -/
theorem exec_of_completes (laws : ReturnLaws prim) (lengths : LengthLaws prim)
    (hcells : ∀ lat lng res cell, cellAt lat lng res = .ok cell → (utf8 cell).length ≤ 16)
    {i : Nat} {entries : List Json} {s : Hunting} (hquiet : s.disk.Quiet)
    (h : ∀ e ∈ entries.zipIdx i, already e.1 = false →
      Seedable prim cellAt run participants e.2 e.1 s.disk.dir) :
    ∃ out s', (seedEntries prim cellAt run participants i entries).exec s = (.ok out, s') ∧
      s'.disk.Quiet := by
  induction entries generalizing i s with
  | nil => exact ⟨[], s, rfl, hquiet⟩
  | cons entry rest ih =>
    rw [List.zipIdx_cons, List.forall_mem_cons] at h
    obtain ⟨hfirst, hrest⟩ := h
    have hturn : ∃ entry' s₁, (seedEntry prim cellAt run participants i entry).exec s =
        (.ok entry', s₁) ∧ s₁.disk.Quiet ∧ SameAuthor prim s.disk.dir s₁.disk.dir := by
      cases halready : already entry with
      | true => exact ⟨entry, s, exec_seedEntry_already halready i s, hquiet, .refl prim _⟩
      | false =>
        obtain ⟨hassignable, args, hargs, hcreatable, hcount⟩ := hfirst halready
        obtain ⟨created, disk', hcreate, hquiet', hsame⟩ :=
          returns_dropCreate laws lengths hcells hquiet hcreatable hcount (run.now i)
        obtain ⟨entry', hassign⟩ := exists_assign hassignable "id" (.str created.id.toHex)
        refine ⟨entry', s.ended i disk', ?_, hquiet', hsame⟩
        rw [exec_seedEntry_create (by rw [halready]; exact Bool.false_ne_true) hargs hcreate]
        exact Prod.ext (okOr_ok_iff.mpr hassign) rfl
    obtain ⟨entry', s₁, hentry, hquiet₁, hsame⟩ := hturn
    obtain ⟨out, s', hexec, hquiet'⟩ :=
      ih hquiet₁ fun e he hnot => (hrest e he hnot).after hsame
    refine ⟨entry' :: out, s', ?_, hquiet'⟩
    unfold seedEntries
    rw [Program.exec_bind_ok hentry, Program.exec_bind_ok hexec]
    rfl

/-- A loop over entries that have ids does nothing. -/
theorem exec_of_already {i : Nat} {entries : List Json}
    (h : ∀ entry ∈ entries, already entry = true) (s : Hunting) :
    (seedEntries prim cellAt run participants i entries).exec s = (.ok entries, s) := by
  induction entries generalizing i with
  | nil => rfl
  | cons entry rest ih =>
    rw [List.forall_mem_cons] at h
    unfold seedEntries
    rw [Program.exec_bind_ok (exec_seedEntry_already h.1 i s), Program.exec_bind_ok (ih h.2)]
    rfl

/-- A loop ends at the first entry without an id if nothing is created for it. -/
theorem exec_of_first {i : Nat} {entries : List Json} {s : Hunting} {first : Json × Nat}
    (hfirst : (entries.zipIdx i).find? (fun e => !already e.1) = some first)
    (h : ∀ args, seedArgs participants first.1 = .ok args →
      ¬ Creatable prim cellAt args (run.draws first.2) s.disk.dir ∨
        ∃ outcome ∈ s.disk.outcomes.take (2 + chunkCount args.plaintext.length),
          outcome ≠ .done) :
    ∃ e s', (seedEntries prim cellAt run participants i entries).exec s = (.error e, s') ∧
      s'.made = s.made ∧ s'.hunt = s.hunt := by
  induction entries generalizing i with
  | nil => exact absurd hfirst (by simp)
  | cons entry rest ih =>
    rw [List.zipIdx_cons, List.find?_cons] at hfirst
    unfold seedEntries
    cases halready : already entry with
    | true =>
      rw [halready] at hfirst
      obtain ⟨e, s', hexec, hmade, hhunt⟩ := ih hfirst
      rw [Program.exec_bind_ok (exec_seedEntry_already halready i s)]
      exact ⟨e, s', Program.exec_bind_error hexec _, hmade, hhunt⟩
    | false =>
      rw [halready] at hfirst
      obtain rfl : (entry, i) = first := Option.some.inj hfirst
      have hnot : ¬ already entry = true := by rw [halready]; exact Bool.false_ne_true
      cases hargs : seedArgs participants entry with
      | error e =>
        have hentry : (seedEntry prim cellAt run participants i entry).exec s = (.error e, s) := by
          rw [seedEntry, if_neg hnot, hargs]
          rfl
        exact ⟨e, s, Program.exec_bind_error hentry _, rfl, rfl⟩
      | ok args =>
        obtain ⟨e, disk', hcreate, hnone⟩ := exec_dropCreate_of_not (run.now i) (h args hargs)
        have hentry := exec_seedEntry_create hnot hargs hcreate
        refine ⟨e, s.ended i disk', Program.exec_bind_error hentry _, ?_, rfl⟩
        rw [Hunting.ended, hnone, List.map_nil, List.append_nil]

theorem exec_of_harmless {entries : List Json} {s : Hunting}
    (houtcomes : s.disk.outcomes = run.outcomes)
    (h : Harmless prim cellAt run participants entries s.disk.dir) :
    (∃ e s', (seedEntries prim cellAt run participants 0 entries).exec s = (.error e, s') ∧
      s'.made = s.made ∧ s'.hunt = s.hunt) ∨
    (seedEntries prim cellAt run participants 0 entries).exec s = (.ok entries, s) ∧
      ∀ k, s.disk.outcomes[1]? ≠ some (.torn k) := by
  unfold Harmless at h
  rw [houtcomes]
  cases hfirst : entries.zipIdx.find? fun e => !already e.1 with
  | none =>
    rw [hfirst] at h
    refine .inr ⟨exec_of_already (fun entry hentry => ?_) s, h⟩
    obtain ⟨i, hi, rfl⟩ := List.getElem_of_mem hentry
    simpa using List.find?_eq_none.mp hfirst (entries[i], i) (List.mem_zipIdx_iff_getElem?.mpr
      (List.getElem?_eq_getElem hi))
  | some first =>
    rw [hfirst] at h
    refine .inl (exec_of_first hfirst fun args hargs => ?_)
    rw [houtcomes]
    exact h args hargs

end Loop

/-! ## Runs -/

section Runs

variable (prim cellAt serde name)

/-- The state after a run. -/
def SeedRun.exec (run : SeedRun) (s : Hunting) : Hunting :=
  ((huntSeed prim cellAt serde name run).exec { s with disk := ⟨s.disk.dir, run.outcomes⟩ }).2

/-- The state after a sequence of runs. -/
def seedRuns (runs : List SeedRun) (s : Hunting) : Hunting :=
  runs.foldl (fun s run => run.exec prim cellAt serde name s) s

/-- The run finds all that it needs to create every drop, or cannot create the first. -/
def SeedRun.Clean (run : SeedRun) (s : Hunting) : Prop :=
  ∀ value drops, loaded serde s.hunt = some value → participantsOf value ≠ [] →
    (value.get "drops").bind Json.asArray = some drops →
    Completes prim cellAt run (participantsOf value) drops s.disk.dir ∨
      Harmless prim cellAt run (participantsOf value) drops s.disk.dir

/-- Every run is clean in the state it finds. -/
def CleanSeeds : List SeedRun → Hunting → Prop
  | [], _ => True
  | run :: rest, s =>
    run.Clean prim cellAt serde s ∧ CleanSeeds rest (run.exec prim cellAt serde name s)

end Runs

/-- Every entry has at most one drop, and the id of it is in the file. -/
structure Hunting.Recorded (serde : Serde) (s : Hunting) : Prop where
  once : (s.made.map Prod.fst).Nodup
  ids : ∀ i id, (i, id) ∈ s.made → recorded serde s.hunt i = some id.toHex

theorem exec_loadHunt {s : Hunting} {value : Json} (h : loaded serde s.hunt = some value) :
    (loadHunt serde name).exec s = (.ok value, s) := by
  obtain ⟨text, htext, hvalue⟩ := Option.bind_eq_some_iff.mp h
  have hreads : (Program.reads fun s : Hunting => okOr (s.hunt.bind readText)
      (SeedStop.error (.context ("no hunt `" ++ name ++ "`") (.io .system)))).exec s =
      (.ok text, s) := Program.exec_reads_ok (okOr_ok_iff.mpr htext)
  unfold loadHunt
  rw [Program.exec_bind_ok hreads, Program.exec_ofExcept, toOption_eq_some_iff.mp hvalue]
  rfl

variable (name) in
theorem exec_loadHunt_none {s : Hunting} (h : loaded serde s.hunt = none) :
    ∃ e, (loadHunt serde name).exec s = (.error e, s) := by
  unfold loadHunt
  cases htext : s.hunt.bind readText with
  | none =>
    refine ⟨.error (.context ("no hunt `" ++ name ++ "`") (.io .system)), ?_⟩
    refine Program.exec_bind_error ?_ _
    rw [Program.reads, Program.exec_step, htext]
    rfl
  | some text =>
    rw [loaded, htext, Option.bind_some] at h
    have hreads : (Program.reads fun s : Hunting => okOr (s.hunt.bind readText)
        (SeedStop.error (.context ("no hunt `" ++ name ++ "`") (.io .system)))).exec s =
        (.ok text, s) := Program.exec_reads_ok (okOr_ok_iff.mpr htext)
    rw [Program.exec_bind_ok hreads, Program.exec_ofExcept]
    cases hvalue : serde.fromStr text with
    | error e => exact ⟨.error (.message e), rfl⟩
    | ok value =>
      rw [hvalue] at h
      exact absurd h (Option.some_ne_none value)

variable (name) in
theorem check_participants {value : Json} (h : participantsOf value ≠ []) :
    check (!(participantsOf value).isEmpty)
      (SeedStop.error (.message ("hunt `" ++ name ++ "` has no participants"))) = .ok () := by
  rw [check_ok_iff, Bool.not_eq_true', List.isEmpty_eq_false_iff]
  exact h

/-- What follows when the file has participants and entries. -/
theorem exec_huntSeed {run : SeedRun} {s : Hunting} {value : Json} {drops : List Json}
    (hloaded : loaded serde s.hunt = some value) (hparticipants : participantsOf value ≠ [])
    (hdrops : (value.get "drops").bind Json.asArray = some drops) :
    (huntSeed prim cellAt serde name run).exec s =
      (seedEntries prim cellAt run (participantsOf value) 0 drops >>= fun drops =>
        .ofExcept (okOr (assign "drops" (.arr drops) value) .panics) >>= fun value =>
          saveHunt serde value).exec s := by
  unfold huntSeed
  rw [Program.exec_bind_ok (exec_loadHunt hloaded)]
  refine (Program.exec_ofExcept_bind (check_participants name hparticipants) _ s).trans ?_
  exact Program.exec_ofExcept_bind (okOr_ok_iff.mpr hdrops) _ s

variable (prim cellAt serde name) in
/-- A run stops where it began, or the file has participants and entries. -/
theorem huntSeed_cases (run : SeedRun) (s : Hunting) :
    (∃ e, (huntSeed prim cellAt serde name run).exec s = (.error e, s)) ∨
    ∃ value drops, loaded serde s.hunt = some value ∧ participantsOf value ≠ [] ∧
      (value.get "drops").bind Json.asArray = some drops := by
  cases hloaded : loaded serde s.hunt with
  | none =>
    obtain ⟨e, hload⟩ := exec_loadHunt_none name hloaded
    exact .inl ⟨e, Program.exec_bind_error hload _⟩
  | some value =>
    unfold huntSeed
    rw [Program.exec_bind_ok (exec_loadHunt hloaded)]
    by_cases hparticipants : participantsOf value = []
    · refine .inl ⟨.error (.message ("hunt `" ++ name ++ "` has no participants")), ?_⟩
      refine Program.exec_bind_error ?_ _
      rw [hparticipants]
      rfl
    cases hdrops : (value.get "drops").bind Json.asArray with
    | none =>
      refine .inl ⟨.error (.message "malformed hunt file"), ?_⟩
      refine (Program.exec_ofExcept_bind (check_participants name hparticipants) _ s).trans ?_
      exact Program.exec_bind_error rfl _
    | some drops => exact .inr ⟨value, drops, rfl, hparticipants, hdrops⟩

theorem assignable_of_get {json value : Json} {key : String} (h : json.get key = some value) :
    assignable json = true := by
  cases json with
  | obj entries => rfl
  | _ => exact absurd h nofun

/-- A clean run keeps the record. -/
theorem exec_recorded (laws : ReturnLaws prim) (lengths : LengthLaws prim)
    (hcells : ∀ lat lng res cell, cellAt lat lng res = .ok cell → (utf8 cell).length ≤ 16)
    (hserde : serde.KeepsIds) {run : SeedRun} {s : Hunting}
    (hclean : run.Clean prim cellAt serde s) (h : s.Recorded serde) :
    (run.exec prim cellAt serde name s).Recorded serde := by
  unfold SeedRun.exec
  rcases huntSeed_cases prim cellAt serde name run
    { s with disk := ⟨s.disk.dir, run.outcomes⟩ } with
    ⟨e, hexec⟩ | ⟨value, drops, hloaded, hparticipants, hdrops⟩
  · rw [hexec]
    exact ⟨h.once, h.ids⟩
  rw [exec_huntSeed hloaded hparticipants hdrops]
  obtain ⟨array, harray⟩ : ∃ array, value.get "drops" = some array := by
    cases hget : value.get "drops" with
    | none => exact absurd hdrops (by rw [hget]; nofun)
    | some array => exact ⟨array, rfl⟩
  have hids : ∀ i, recorded serde s.hunt i = drops[i]?.bind idOf := fun i => by
    rw [recorded_of_loaded hloaded, idAt_of_drops hdrops]
  -- an entry that has a drop has its id, so it is passed over
  have hseeded : ∀ i id, (i, id) ∈ s.made →
      ∃ entry, drops[i]? = some entry ∧ idOf entry = some id.toHex := by
    intro i id hmem
    exact Option.bind_eq_some_iff.mp ((hids i).symm.trans (h.ids i id hmem))
  rcases hclean value drops hloaded hparticipants hdrops with hcompletes | hharmless
  · obtain ⟨out, s₁, hloop, hquiet⟩ := exec_of_completes laws lengths hcells
      (s := { s with disk := ⟨s.disk.dir, run.outcomes⟩ }) hcompletes.1 hcompletes.2
    obtain ⟨new, hseeds, hmade, -⟩ := seedEntries_spec hloop
    obtain ⟨value', hassign⟩ := exists_assign (assignable_of_get harray) "drops" (.arr out)
    rw [Program.exec_bind_ok hloop, Program.exec_ofExcept_bind (okOr_ok_iff.mpr hassign)]
    have hdone : ∀ outcome, s₁.disk.outcomes[1]? = some outcome → outcome = .done :=
      fun outcome hat => hquiet outcome (List.mem_of_getElem? hat)
    obtain ⟨hmade', hsaved⟩ :=
      exec_saveHunt hserde hloaded ⟨drops, out, hdrops, hseeds.forall₂, hassign⟩
      (s := s₁) fun k hk => absurd (hdone _ hk) (by simp)
    have hfile := hsaved.resolve_right fun hrefused => absurd (hdone _ hrefused.1) (by simp)
    constructor
    · rw [hmade', hmade, List.map_append, List.nodup_append]
      refine ⟨h.once, hseeds.nodup, fun i hi j hj hij => ?_⟩
      obtain ⟨⟨_, id⟩, hold, rfl⟩ := List.mem_map.mp hi
      obtain ⟨⟨_, id'⟩, hnew, rfl⟩ := List.mem_map.mp hj
      obtain ⟨entry, hentry, hid⟩ := hseeded _ _ hold
      obtain ⟨-, ⟨entry', hentry', hnot⟩, -⟩ := hseeds.recorded hnew
      simp only at hij
      rw [Nat.sub_zero, ← hij, hentry, Option.some.injEq] at hentry'
      subst hentry'
      exact absurd (hnot.symm.trans (already_of_idOf hid)) nofun
    · intro i id hmem
      rw [hmade', hmade] at hmem
      rw [hfile, idAt_assign hassign]
      rcases List.mem_append.mp hmem with hold | hnew
      · obtain ⟨entry, hentry, hid⟩ := hseeded i id hold
        rw [hseeds.kept hentry (already_of_idOf hid), Option.bind_some, hid]
      · obtain ⟨-, -, entry, hentry, hid⟩ := hseeds.recorded hnew
        rw [Nat.sub_zero] at hentry
        rw [hentry, Option.bind_some, hid]
  · rcases exec_of_harmless (s := { s with disk := ⟨s.disk.dir, run.outcomes⟩ }) rfl hharmless with
      ⟨e, s', hloop, hmade, hhunt⟩ | ⟨hloop, htorn⟩
    · rw [Program.exec_bind_error hloop]
      exact ⟨hmade ▸ h.once, fun i id hmem => hhunt ▸ h.ids i id (hmade ▸ hmem)⟩
    · obtain ⟨value', hassign⟩ := exists_assign (assignable_of_get harray) "drops" (.arr drops)
      rw [Program.exec_bind_ok hloop, Program.exec_ofExcept_bind (okOr_ok_iff.mpr hassign)]
      have hsame : List.Forall₂ (fun entry entry' => entry' = entry ∨
          ∃ id : DropId, assign "id" (.str id.toHex) entry = some entry') drops drops :=
        List.forall₂_same.mpr fun _ _ => .inl rfl
      obtain ⟨hmade', hsaved⟩ :=
        exec_saveHunt hserde hloaded ⟨drops, drops, hdrops, hsame, hassign⟩ htorn
      refine ⟨by rw [hmade']; exact h.once, fun i id hmem => ?_⟩
      rw [hmade'] at hmem
      rcases hsaved with hfile | ⟨-, hfile⟩
      · rw [hfile, idAt_assign hassign, ← hids i]
        exact h.ids i id hmem
      · rw [hfile]
        exact h.ids i id hmem

theorem seedRuns_recorded (laws : ReturnLaws prim) (lengths : LengthLaws prim)
    (hcells : ∀ lat lng res cell, cellAt lat lng res = .ok cell → (utf8 cell).length ≤ 16)
    (hserde : serde.KeepsIds) {runs : List SeedRun} {s : Hunting}
    (hclean : CleanSeeds prim cellAt serde name runs s) (h : s.Recorded serde) (k : Nat) :
    (seedRuns prim cellAt serde name (runs.take k) s).Recorded serde := by
  induction runs generalizing s k with
  | nil =>
    rw [List.take_nil]
    exact h
  | cons run runs ih =>
    cases k with
    | zero => exact h
    | succ k =>
      rw [List.take_succ_cons]
      exact ih hclean.2 (exec_recorded laws lengths hcells hserde hclean.1 h) k

/-- **Seeding creates each drop at most once**, whatever the hunt file and the store are at first,
after each run of a sequence of clean runs; and the id of the drop is in the file. -/
theorem seeded_once (prim : Primitives) (laws : ReturnLaws prim) (lengths : LengthLaws prim)
    (cellAt : Float → Float → UInt8 → Except CoreError String)
    (hcells : ∀ lat lng res cell, cellAt lat lng res = .ok cell → (utf8 cell).length ≤ 16)
    (serde : Serde) (hserde : serde.KeepsIds) (name : String) (runs : List SeedRun) (dir : Dir)
    (hunt : Option (List UInt8))
    (hclean : CleanSeeds prim cellAt serde name runs ⟨⟨dir, []⟩, hunt, []⟩) (k : Nat) :
    let s := seedRuns prim cellAt serde name (runs.take k) ⟨⟨dir, []⟩, hunt, []⟩
    (∀ i, (s.made.map Prod.fst).count i ≤ 1) ∧
      ∀ i id, (i, id) ∈ s.made → recorded serde s.hunt i = some id.toHex := by
  intro s
  have h : s.Recorded serde := seedRuns_recorded laws lengths hcells hserde hclean
    ⟨List.nodup_nil, fun _ _ hmem => absurd hmem List.not_mem_nil⟩ k
  exact ⟨List.nodup_iff_count_le_one.mp h.once, h.ids⟩

/-! ## A hunt with one entry -/

namespace KnownHunt

open KnownAnswers KnownAuthor

/-- The hunt with the given id in its entry. -/
def value (id : String) : Json :=
  .obj
    [("drops", .arr [.obj [("id", .str id), ("message", .str "hello")]]),
      ("name", .str "demo"),
      ("participants", .arr [.str "bob"])]

/-- Its text up to the id. -/
def front : List Char := "\x7b\n  \"drops\": [\n    \x7b\n      \"id\": \"".toList

/-- Its text after the id. -/
def back : List Char :=
  "\",\n      \"message\": \"hello\"\n    \x7d\n  ],\n  \"name\": \"demo\",\n".toList ++
    "  \"participants\": [\n    \"bob\"\n  ]\n\x7d".toList

/-- The text with the given id. -/
def text (id : List Char) : List Char := front ++ id ++ back

/-- The hunt with a second entry, whose ring is no `u32`. -/
def valueTwo : Json :=
  .obj
    [("drops", .arr
      [.obj [("id", .str ""), ("message", .str "hello")],
        .obj [("ring", .num (.posInt 4294967296))]]),
      ("name", .str "demo"),
      ("participants", .arr [.str "bob"])]

/-- Its text. -/
def textTwo : List Char :=
  front ++ "\",\n      \"message\": \"hello\"\n    \x7d,\n    \x7b\n".toList ++
    "      \"ring\": 4294967296\n    \x7d\n  ],\n  \"name\": \"demo\",\n".toList ++
    "  \"participants\": [\n    \"bob\"\n  ]\n\x7d".toList

/-- The id in a text of the first form. -/
def idIn (t : List Char) : Option (List Char) :=
  let id := (t.drop front.length).take (t.length - front.length - back.length)
  if t = text id ∧ id.all Char.isAlphanum then some id else none

/-- The id in a value of the first form. -/
def idOfValue : Json → Option String
  | .obj [("drops", .arr [.obj [("id", .str id), ("message", .str "hello")]]),
      ("name", .str "demo"), ("participants", .arr [.str "bob"])] =>
    if id.toList.all Char.isAlphanum then some id else none
  | _ => none

/-- The ids of all entries. -/
def ids (value : Json) : List (Option String) :=
  (((value.get "drops").bind Json.asArray).getD []).map idOf

/-- A hunt with these ids. -/
def valueWith (ids : List (Option String)) : Json :=
  .obj [("drops", .arr (ids.map fun id => .obj [("id", (id.map Json.str).getD .null)]))]

/-- The ids as numbers. -/
def codes (ids : List (Option String)) : List (Option (List Nat)) :=
  ids.map fun id => id.map fun t => t.toList.map Char.toNat

/-- The ids of such numbers. -/
def uncodes (codes : List (Option (List Nat))) : List (Option String) :=
  codes.map fun id => id.map fun code => String.ofList (code.map Char.ofNat)

/-- `serde_json` on these texts and values. For others it is a stand-in that keeps the ids: the
text has as many characters as the number that encodes them. -/
def knownSerde : Serde where
  fromStr t :=
    match idIn t with
    | some id => .ok (value (String.ofList id))
    | none =>
      if t = textTwo then .ok valueTwo
      else if t.all (· = 'x') then
        okOr ((Encodable.decode t.length).map fun codes => valueWith (uncodes codes))
          "expected value"
      else .error "expected value"
  toStringPretty v :=
    match idOfValue v with
    | some id => .ok (text id.toList)
    | none => .ok (List.replicate (Encodable.encode (codes (ids v))) 'x')

theorem idIn_text {id : List Char} (h : id.all Char.isAlphanum = true) :
    idIn (text id) = some id := by
  have hid : ((text id).drop front.length).take
      ((text id).length - front.length - back.length) = id := by
    unfold text
    rw [List.append_assoc, List.drop_left, List.length_append, List.length_append]
    exact List.take_left' (by omega)
  unfold idIn
  rw [hid]
  exact if_pos ⟨rfl, h⟩

theorem idAt_eq (value : Json) (i : Nat) : idAt value i = (ids value)[i]?.bind id := by
  unfold idAt ids
  cases (value.get "drops").bind Json.asArray with
  | none => rfl
  | some drops =>
    rw [Option.bind_some, Option.getD_some, List.getElem?_map]
    cases drops[i]? with
    | none => rfl
    | some entry => rfl

theorem uncodes_codes (ids : List (Option String)) : uncodes (codes ids) = ids := by
  unfold uncodes codes
  rw [List.map_map]
  refine (List.map_congr_left fun id _ => ?_).trans (List.map_id ids)
  cases id with
  | none => rfl
  | some t =>
    have hchars : (t.toList.map Char.toNat).map Char.ofNat = t.toList := by
      rw [List.map_map]
      exact (List.map_congr_left fun c _ => Char.ofNat_toNat c).trans (List.map_id _)
    simp [hchars]

theorem ids_valueWith (l : List (Option String)) : ids (valueWith l) = l := by
  have hid : ∀ id : Option String,
      idOf (.obj [("id", (id.map Json.str).getD .null)]) = id := by
    intro id
    cases id with
    | none => rfl
    | some t => rfl
  unfold ids valueWith
  simp [Json.get, Json.asArray, Function.comp_def, hid]

theorem idOfValue_eq_some {v : Json} {id : String} (h : idOfValue v = some id) :
    v = value id ∧ id.toList.all Char.isAlphanum = true := by
  unfold idOfValue at h
  split at h
  case h_1 id' =>
    split at h
    case isTrue halnum =>
      obtain rfl := Option.some.inj h
      exact ⟨rfl, halnum⟩
    case isFalse => exact absurd h nofun
  case h_2 => exact absurd h nofun

/-- The stand-in's texts do not open with a brace. -/
theorem replicate_ne {t : List Char} (h : t.head? = some (Char.ofNat 0x7b)) (n : Nat) :
    List.replicate n 'x' ≠ t := by
  rintro rfl
  cases n with
  | zero => exact absurd h nofun
  | succ n => exact absurd h (by simp [List.replicate_succ])

theorem idIn_replicate (n : Nat) : idIn (List.replicate n 'x') = none :=
  if_neg fun h => replicate_ne rfl n h.1

theorem knownSerde_keepsIds : knownSerde.KeepsIds := by
  intro _ _ v _ _
  cases hid : idOfValue v with
  | some id =>
    obtain ⟨rfl, halnum⟩ := idOfValue_eq_some hid
    refine ⟨text id.toList, value id, ?_, ?_, fun _ => rfl⟩
    · simp only [knownSerde, hid]
    · simp only [knownSerde, idIn_text halnum, String.ofList_toList]
  | none =>
    refine ⟨List.replicate (Encodable.encode (codes (ids v))) 'x', valueWith (ids v), ?_, ?_,
      fun i => ?_⟩
    · simp only [knownSerde, hid]
    · simp only [knownSerde, idIn_replicate, if_neg (replicate_ne (t := textTwo) rfl _),
        List.length_replicate, Encodable.encodek, Option.map_some, uncodes_codes]
      simp [okOr]
    · rw [idAt_eq, idAt_eq, ids_valueWith]

/-- One run, in which no call fails. -/
def knownRun : SeedRun := ⟨fun _ => 0, fun _ => draws, []⟩

/-- The author's directory, and the file with the given text. -/
def start (text : List Char) : Hunting := ⟨⟨dir, []⟩, some (textBytes text), []⟩

theorem allows_nil (file : File) : Allows (fun disk : Disk => disk.outcomes = []) file where
  createDirAll := by
    rintro ⟨dir, _⟩ rfl
    exact ⟨rfl, fun _ _ => trivial⟩
  write _ := by
    rintro ⟨dir, _⟩ rfl
    exact ⟨rfl, fun _ _ => trivial⟩
  openAppend := by
    rintro ⟨dir, _⟩ rfl
    exact ⟨rfl, fun _ _ => trivial⟩
  writeAll _ := by
    rintro ⟨dir, _⟩ rfl
    exact ⟨rfl, fun _ _ => trivial⟩

/-- The drop of the first entry can be created, and is new. -/
theorem exists_dropCreate : ∃ created disk,
    (dropCreate sending KnownAuthor.cellAt 0 (args 1 false) draws).exec ⟨dir, []⟩ =
      (.ok created, disk) ∧
    disk.outcomes = [] ∧ newDrops dir disk.dir = [created.id] := by
  obtain ⟨created, disk, hcreate⟩ := exists_created (by decide) (by decide : 1 ≤ minTags) false
  have hexec : (dropCreate sending KnownAuthor.cellAt 0 (args 1 false) draws).exec ⟨dir, []⟩ =
      (.ok created, disk) := by
    have hopen : createDirAll.exec ⟨dir, []⟩ = (.ok (), ⟨dir, []⟩) := rfl
    unfold dropCreate
    rw [Program.exec_bind_ok (Program.exec_mapErr_ok hopen)]
    exact Program.exec_mapErr_ok hcreate
  refine ⟨created, disk, hexec, ?_, ?_⟩
  · exact (keeps_createDrop sending (keeps_mldsaOrCreate sending (allows_nil _) _)
      (fun _ _ => allows_nil _) (allows_nil _) (fun signed => (allows_nil _).write _)
      KnownAuthor.cellAt 0 (args 1 false)).after rfl hcreate
  · obtain ⟨_, signed, body, -, hcreated⟩ := exec_createDrop hcreate
    have hmem : created.id ∈ newDrops dir disk.dir := by
      refine mem_newDrops.mpr ⟨by rw [hcreated.envelope]; rfl, ?_⟩
      unfold dir
      rw [AList.lookup_insert_ne (by nofun), AList.lookup_insert_ne (by nofun), AList.lookup_empty]
    obtain ⟨id, hid, hnew⟩ := newDrops_dropCreate sending KnownAuthor.cellAt 0 (args 1 false) draws
      ⟨dir, []⟩
    rw [hexec] at hid hnew
    obtain rfl := hid created rfl
    exact hnew.resolve_left fun hnone => absurd hmem (by rw [hnone]; exact List.not_mem_nil)

theorem cells_le (lat lng : Float) (res : UInt8) (cell : String)
    (h : KnownAuthor.cellAt lat lng res = .ok cell) : (utf8 cell).length ≤ 16 := by
  obtain rfl := Except.ok.inj h
  decide +kernel

/-- The drop of the first entry has all that it needs. -/
theorem creatable : Creatable sending KnownAuthor.cellAt (args 1 false) draws dir :=
  creatable_args Nat.one_ne_zero false 0 0 9 2 rfl

/-- The first entry. -/
def first : Json := .obj [("id", .str ""), ("message", .str "hello")]

theorem already_first : ¬ already first = true := by
  simp [already, idOf, first, Json.get, Json.asStr]

theorem seedArgs_first : seedArgs ["bob"] first = .ok (args 1 false) := rfl

/-- The second entry. -/
def second : Json := .obj [("ring", .num (.posInt 4294967296))]

theorem already_second : ¬ already second = true := by
  simp [already, idOf, second, Json.get, List.lookup_cons]

theorem seedArgs_second : seedArgs ["bob"] second = .error (.error .conversion) := rfl

theorem loaded_one : loaded knownSerde (start (text [])).hunt = some (value "") := by
  rw [loaded, start, Option.bind_some, readText_textBytes, Option.bind_some]
  simp only [knownSerde, idIn_text (rfl : ([] : List Char).all Char.isAlphanum = true)]
  rfl

theorem loaded_two : loaded knownSerde (start textTwo).hunt = some valueTwo := by
  have hother : idIn textTwo = none := by decide +kernel
  rw [loaded, start, Option.bind_some, readText_textBytes, Option.bind_some]
  simp only [knownSerde, hother, if_true]
  rfl

theorem participants_one : participantsOf (value "") = ["bob"] := by
  simp [participantsOf, value, Json.get, Json.asArray, Json.asStr, List.lookup_cons]

theorem participants_two : participantsOf valueTwo = ["bob"] := by
  simp [participantsOf, valueTwo, Json.get, Json.asArray, Json.asStr, List.lookup_cons]

theorem drops_one : ((value "").get "drops").bind Json.asArray = some [first] := by
  simp [value, first, Json.get, Json.asArray]

theorem drops_two : (valueTwo.get "drops").bind Json.asArray = some [first, second] := by
  simp [valueTwo, first, second, Json.get, Json.asArray]

/-- The turn for the first entry. -/
theorem exec_first {created : CreatedDrop} {disk : Disk}
    (h : (dropCreate sending KnownAuthor.cellAt 0 (args 1 false) draws).exec ⟨dir, []⟩ =
      (.ok created, disk)) (t : List Char) :
    ∃ entry, assign "id" (.str created.id.toHex) first = some entry ∧
      (seedEntry sending KnownAuthor.cellAt knownRun ["bob"] 0 first).exec (start t) =
        (.ok entry, (start t).ended 0 disk) := by
  obtain ⟨entry, hassign⟩ : ∃ entry, assign "id" (.str created.id.toHex) first = some entry :=
    exists_assign rfl _ _
  have hcreate : (dropCreate sending KnownAuthor.cellAt (knownRun.now 0) (args 1 false)
      (knownRun.draws 0)).exec (start t).disk = (.ok created, disk) := h
  have hvalue : okOr (assign "id" (.str created.id.toHex) first) SeedStop.panics = .ok entry :=
    okOr_ok_iff.mpr hassign
  refine ⟨entry, hassign, (exec_seedEntry_create already_first seedArgs_first hcreate).trans ?_⟩
  exact congrArg (fun r => (r, (start t).ended 0 disk)) hvalue

theorem seedRuns_known (t : List Char) :
    seedRuns sending KnownAuthor.cellAt knownSerde "demo" [knownRun] (start t) =
      ((huntSeed sending KnownAuthor.cellAt knownSerde "demo" knownRun).exec (start t)).2 := rfl

theorem made_ended {id : DropId} {disk : Disk} (h : newDrops dir disk.dir = [id])
    (t : List Char) : ((start t).ended 0 disk).made = [(0, id)] := by
  show [] ++ (newDrops dir disk.dir).map _ = _
  rw [h]
  rfl

/-- A run over the hunt with one entry creates its drop and records the id. -/
theorem known_entry_seeded : ∃ id,
    let s := seedRuns sending KnownAuthor.cellAt knownSerde "demo" [knownRun] (start (text []))
    (0, id) ∈ s.made ∧ (∀ i, (s.made.map Prod.fst).count i ≤ 1) ∧
      recorded knownSerde s.hunt 0 = some id.toHex := by
  obtain ⟨created, disk, hcreate, houtcomes, hnew⟩ := exists_dropCreate
  have hclean : CleanSeeds sending KnownAuthor.cellAt knownSerde "demo" [knownRun]
      (start (text [])) := by
    refine ⟨fun value drops hloaded _ hdrops => .inl ?_, trivial⟩
    obtain rfl := Option.some.inj (loaded_one.symm.trans hloaded)
    obtain rfl := Option.some.inj (drops_one.symm.trans hdrops)
    rw [participants_one]
    refine ⟨fun outcome h => absurd h List.not_mem_nil, fun e he _ => ?_⟩
    obtain rfl := List.mem_singleton.mp he
    refine ⟨rfl, args 1 false, seedArgs_first, creatable, fun devices hdevices => ?_⟩
    obtain rfl := Except.ok.inj ((resolve_dir 1 false).symm.trans hdevices)
    decide
  have hmade : (seedRuns sending KnownAuthor.cellAt knownSerde "demo" [knownRun]
      (start (text []))).made = [(0, created.id)] := by
    obtain ⟨entry, hput, hentry⟩ := exec_first hcreate (text [])
    obtain ⟨value', hassign⟩ : ∃ value', assign "drops" (.arr [entry]) (value "") = some value' :=
      exists_assign rfl _ _
    have hloop : (seedEntries sending KnownAuthor.cellAt knownRun ["bob"] 0 [first]).exec
        (start (text [])) = (.ok [entry], (start (text [])).ended 0 disk) := by
      unfold seedEntries
      rw [Program.exec_bind_ok hentry]
      rfl
    have hexec : (huntSeed sending KnownAuthor.cellAt knownSerde "demo" knownRun).exec
        (start (text [])) = (saveHunt knownSerde value').exec ((start (text [])).ended 0 disk) := by
      rw [exec_huntSeed loaded_one (by rw [participants_one]; nofun) drops_one, participants_one,
        Program.exec_bind_ok hloop, Program.exec_ofExcept_bind (okOr_ok_iff.mpr hassign)]
    have hquiet : ∀ k, ((start (text [])).ended 0 disk).disk.outcomes[1]? ≠ some (.torn k) := by
      intro k hk
      rw [Hunting.ended, houtcomes] at hk
      exact absurd hk (by simp)
    have hreseeded : Reseeded (value "") value' :=
      ⟨[first], [entry], drops_one, .cons (.inr ⟨created.id, hput⟩) .nil, hassign⟩
    have hsave := (exec_saveHunt knownSerde_keepsIds loaded_one hreseeded hquiet).1
    rw [made_ended hnew, ← hexec, ← seedRuns_known] at hsave
    exact hsave
  obtain ⟨honce, hids⟩ := seeded_once sending returnLaws lengthLaws KnownAuthor.cellAt
    cells_le knownSerde knownSerde_keepsIds "demo" [knownRun] dir _ hclean 1
  have hmem : (0, created.id) ∈ (seedRuns sending KnownAuthor.cellAt knownSerde "demo" [knownRun]
      (start (text []))).made := by
    rw [hmade]
    exact List.mem_singleton.mpr rfl
  exact ⟨created.id, hmem, honce, hids 0 created.id hmem⟩

/-- With a second entry that fails, the drop of the first is in the store and its id is lost. -/
theorem known_id_lost : ∃ id : DropId,
    let s := seedRuns sending KnownAuthor.cellAt knownSerde "demo" [knownRun] (start textTwo)
    s.made = [(0, id)] ∧ recorded knownSerde s.hunt 0 = some "" ∧ id.toHex ≠ "" := by
  obtain ⟨created, disk, hcreate, -, hnew⟩ := exists_dropCreate
  obtain ⟨entry, -, hentry⟩ := exec_first hcreate textTwo
  have hexec : seedRuns sending KnownAuthor.cellAt knownSerde "demo" [knownRun] (start textTwo) =
      (start textTwo).ended 0 disk := by
    have hsecond : (seedEntries sending KnownAuthor.cellAt knownRun ["bob"] 1 [second]).exec
        ((start textTwo).ended 0 disk) =
        (.error (.error .conversion), (start textTwo).ended 0 disk) := by
      unfold seedEntries seedEntry
      rw [if_neg already_second, seedArgs_second]
      rfl
    have hloop : (seedEntries sending KnownAuthor.cellAt knownRun ["bob"] 0 [first, second]).exec
        (start textTwo) = (.error (.error .conversion), (start textTwo).ended 0 disk) := by
      unfold seedEntries
      rw [Program.exec_bind_ok hentry]
      exact Program.exec_bind_error hsecond _
    have hexec : (huntSeed sending KnownAuthor.cellAt knownSerde "demo" knownRun).exec
        (start textTwo) = (.error (.error .conversion), (start textTwo).ended 0 disk) := by
      rw [exec_huntSeed loaded_two (by rw [participants_two]; nofun) drops_two, participants_two,
        Program.exec_bind_error hloop]
    rw [seedRuns_known, hexec]
  refine ⟨created.id, ?_⟩
  rw [hexec]
  exact ⟨made_ended hnew _, recorded_of_loaded loaded_two 0, toHex_ne_empty created.id⟩

end KnownHunt

end Keepstone.Cli
