import Keepstone.Log.Inclusion
import Keepstone.Store.Log
import Keepstone.Store.Opening

/-!
# Verifying a stored drop (`crates/store/src/lib.rs:748-777`)

`verify` takes the envelope from the file of the id's name and the leaf from the log entry whose
hash is the id. The proof it then makes for that leaf is checked against the tree it was made
from, so `inclusion` is never false; and nothing compares the two envelopes.

Results:
* `exec_verify`: what a call that returns has looked at;
* **`verify_one_object_iff`**: when the signature and the leaf are of the same bytes.
-/

namespace Keepstone.Store

open Keepstone.Lib Keepstone.Crypto Keepstone.Core Keepstone.Log

/-- `Verification`. -/
structure Verification where
  /-- Whether the drop signature is valid. -/
  signature : Bool
  /-- Whether the inclusion proof is valid. -/
  inclusion : Bool
  /-- Whether the signed tree head is valid. -/
  sth : Bool
  /-- Number of leaves. -/
  treeSize : Nat
  /-- Index of the drop's leaf. -/
  leafIndex : Nat
  /-- Merkle root. -/
  root : Hash
  /-- Signature kind of the drop. -/
  sigKind : UInt8
  deriving DecidableEq

/-- `Store::verify` at the time `now`, with the identity `log_identity` generates if there is none.
`inclusion_proof` has failed if the index is not one of the leaves. -/
def verify (prim : Primitives) (generated : Identity) (now : UInt64) (id : DropId) :
    Program StoreError Disk Verification := do
  let (signed, _) ← .reads fun disk => readDrop disk.dir id
  let signature := (signed.verify prim).isOk
  let entries ← .reads fun disk => .ok (logEntries disk.dir)
  let leaves := entries.map (leafHash prim.sha256)
  let index ← .ofExcept (okOr (entries.findIdx? fun entry => prim.sha256 entry = id.bytes)
    (.notFound "drop is not in the local log"))
  let treeSize := leaves.length
  let root := mth prim.sha256 leaves
  let proof ← .ofExcept ((inclusionProof prim.sha256 leaves index).mapError .log)
  let inclusion := verifyInclusion prim.sha256 (leaves.getD index root) index treeSize proof root
  let log ← logIdentity generated
  let sth := SignedTreeHead.sign prim log (UInt64.ofNat treeSize) root now
  pure
    { signature, inclusion, sth := (sth.verify prim).isOk, treeSize, leafIndex := index, root,
      sigKind := signed.sigKind }

variable {prim : Primitives} {generated : Identity} {now : UInt64} {id : DropId}
  {disk disk' : Disk} {v : Verification}

/-- `verify` may write the key of the log and nothing else. -/
theorem keeps_verify {I : Disk → Prop} (hkey : Allows I .logKey) :
    Keeps I (verify prim generated now id) fun _ => True := by
  refine (Keeps.reads fun _ _ _ _ => trivial).bind fun (signed, _) _ => ?_
  refine (Keeps.reads fun _ _ _ _ => trivial).bind fun entries _ => ?_
  refine (Keeps.ofExcept _).bind fun index _ => ?_
  refine (Keeps.ofExcept _).bind fun proof _ => ?_
  refine (keeps_logIdentity hkey generated).bind fun log _ => ?_
  exact Keeps.pure trivial

/-- The entry at an index and its leaf, which the proof made for it proves. -/
theorem inclusion_of_index {entries : List (List UInt8)} {index : Nat} {entry : List UInt8}
    (hentry : entries[index]? = some entry) :
    let leaves := entries.map (leafHash prim.sha256)
    let root := mth prim.sha256 leaves
    inclusionProof prim.sha256 leaves index = .ok (path prim.sha256 leaves index) ∧
      verifyInclusion prim.sha256 (leaves.getD index root) index leaves.length
        (path prim.sha256 leaves index) root = true := by
  intro leaves root
  have hleaf : leaves[index]? = some (leafHash prim.sha256 entry) := by
    rw [List.getElem?_map, hentry, Option.map_some]
  rw [List.getD_eq_getElem?_getD, hleaf, Option.getD_some]
  exact verifyInclusion_complete hleaf

/-- **What a call that returns has looked at**: the signature of the file under the id, and the
leaf of an entry that hashes to the id. -/
theorem exec_verify (h : (verify prim generated now id).exec disk = (.ok v, disk')) :
    ∃ raw signed entry, disk.dir.lookup (.drop id) = some raw ∧
      SignedDrop.decode raw = .ok signed ∧ (logEntries disk.dir)[v.leafIndex]? = some entry ∧
      prim.sha256 entry = id.bytes ∧ v.signature = (signed.verify prim).isOk ∧
      v.inclusion = true := by
  obtain ⟨⟨signed, body⟩, _, hreads, h⟩ := Program.exec_bind_eq_ok h
  obtain ⟨hread, rfl⟩ := Program.exec_reads_eq_ok hreads
  obtain ⟨entries, _, hreads, h⟩ := Program.exec_bind_eq_ok h
  obtain ⟨hentries, rfl⟩ := Program.exec_reads_eq_ok hreads
  obtain rfl := Except.ok.inj hentries
  obtain ⟨index, _, hfound, h⟩ := Program.exec_bind_eq_ok h
  obtain ⟨hindex, rfl⟩ := Program.exec_ofExcept_eq_ok hfound
  obtain ⟨proof, _, hmade, h⟩ := Program.exec_bind_eq_ok h
  obtain ⟨hproof, rfl⟩ := Program.exec_ofExcept_eq_ok hmade
  obtain ⟨log, _, -, h⟩ := Program.exec_bind_eq_ok h
  obtain ⟨rfl, -⟩ := Program.exec_pure_eq_ok h
  obtain ⟨raw, hraw, hdecode, -⟩ := readDrop_ok_iff.mp hread
  obtain ⟨hlt, hhash, -⟩ := List.findIdx?_eq_some_iff_getElem.mp (okOr_ok_iff.mp hindex)
  have hentry : (logEntries disk.dir)[index]? = some (logEntries disk.dir)[index] :=
    List.getElem?_eq_getElem hlt
  obtain ⟨hgen, hinclusion⟩ := @inclusion_of_index prim _ _ _ hentry
  obtain rfl := Except.ok.inj (hgen.symm.trans (mapError_ok_iff.mp hproof))
  exact ⟨raw, signed, _, hraw, hdecode, hentry, of_decide_eq_true hhash, rfl, hinclusion⟩

/-- The file under the id and the log entry at the index hold the same bytes, or two that collide
under SHA-256. -/
def OneObject (prim : Primitives) (dir : Dir) (id : DropId) (index : Nat) : Prop :=
  ∃ raw entry, dir.lookup (.drop id) = some raw ∧ (logEntries dir)[index]? = some entry ∧
    (raw = entry ∨ Collides prim.sha256 [raw] [entry])

/-- **When `verify` speaks about one object**: if the file under the id hashes to the id, or its
signature is not valid, and then that is reported. -/
theorem verify_one_object_iff (h : (verify prim generated now id).exec disk = (.ok v, disk')) :
    (v.signature = true → v.inclusion = true → OneObject prim disk.dir id v.leafIndex) ↔
      ∃ raw signed, disk.dir.lookup (.drop id) = some raw ∧ SignedDrop.decode raw = .ok signed ∧
        (signed.verify prim ≠ .ok () ∨ DropId.of prim raw = id) := by
  obtain ⟨raw, signed, entry, hraw, hdecode, hentry, hhash, hsignature, hinclusion⟩ := exec_verify h
  have hid : DropId.of prim raw = id ↔ prim.sha256 raw = prim.sha256 entry := by
    rw [hhash]
    exact ⟨congrArg DropId.bytes, congrArg DropId.mk⟩
  have hobject : OneObject prim disk.dir id v.leafIndex ↔ DropId.of prim raw = id := by
    rw [hid]
    constructor
    · rintro ⟨raw', entry', hraw', hentry', h⟩
      obtain rfl := Option.some.inj (hraw.symm.trans hraw')
      obtain rfl := Option.some.inj (hentry.symm.trans hentry')
      rcases h with rfl | ⟨a, ha, b, hb, -, hab⟩
      · rfl
      · rwa [List.mem_singleton.mp ha, List.mem_singleton.mp hb] at hab
    · intro heq
      exact ⟨raw, entry, hraw, hentry,
        eq_or_collides List.mem_cons_self List.mem_cons_self heq⟩
  rw [hobject, hsignature, hinclusion, isOk_iff]
  constructor
  · intro hmeets
    refine ⟨raw, signed, hraw, hdecode, ?_⟩
    by_cases hverify : signed.verify prim = .ok ()
    · exact Or.inr (hmeets hverify rfl)
    · exact Or.inl hverify
  · rintro ⟨raw', signed', hraw', hdecode', hcond⟩ hverify -
    obtain rfl := Option.some.inj (hraw.symm.trans hraw')
    obtain rfl := Except.ok.inj (hdecode.symm.trans hdecode')
    exact hcond.resolve_left (not_not.mpr hverify)

theorem exec_logIdentity_of_none {dir : Dir} (generated : Identity)
    (hkey : dir.lookup .logKey = none) :
    (logIdentity generated).exec ⟨dir, []⟩ =
      (.ok generated, ⟨dir.insert .logKey (textBytes (identityText generated)), []⟩) := by
  have hread : (.ok (readToString dir .logKey) : Except StoreError _) = .ok none := by
    unfold readToString
    rw [hkey, Option.bind_none]
  have hreads : (Program.reads fun disk : Disk =>
      (.ok (readToString disk.dir .logKey) : Except StoreError _)).exec ⟨dir, []⟩ =
        (.ok none, ⟨dir, []⟩) := Program.exec_reads_ok hread
  exact Program.exec_bind_ok hreads _

/-- A key that was saved is loaded. -/
theorem exec_logIdentity_of_saved {dir : Dir} {saved : Identity} (generated : Identity)
    (hkey : dir.lookup .logKey = some (textBytes (identityText saved))) :
    (logIdentity generated).exec ⟨dir, []⟩ = (.ok saved, ⟨dir, []⟩) := by
  have hread : (.ok (readToString dir .logKey) : Except StoreError _) =
      .ok (some (identityText saved)) := by
    unfold readToString
    rw [hkey, Option.bind_some, readText_textBytes]
  have hreads : (Program.reads fun disk : Disk =>
      (.ok (readToString disk.dir .logKey) : Except StoreError _)).exec ⟨dir, []⟩ =
        (.ok (some (identityText saved)), ⟨dir, []⟩) := Program.exec_reads_ok hread
  unfold logIdentity
  rw [Program.exec_bind_ok hreads]
  simp only [lines_identityText, List.getD_cons_zero, List.getD_cons_succ]
  rw [Program.exec_ofExcept_bind (hex32_hexEncode saved.signing),
    Program.exec_ofExcept_bind (hex32_hexEncode saved.ecdh)]
  rfl

/-- Nothing fails: the file decodes, an entry hashes to the id, and the log has no key yet. -/
theorem verify_returns {dir : Dir} {signed : SignedDrop} {body : DropBody} {index : Nat}
    (hread : readDrop dir id = .ok (signed, body))
    (hindex : (logEntries dir).findIdx? (fun entry => prim.sha256 entry = id.bytes) = some index)
    (hkey : dir.lookup .logKey = none) :
    ∃ v disk', (verify prim generated now id).exec ⟨dir, []⟩ = (.ok v, disk') ∧
      v.signature = (signed.verify prim).isOk ∧ v.leafIndex = index := by
  obtain ⟨hlt, -⟩ := List.findIdx?_eq_some_iff_getElem.mp hindex
  obtain ⟨hproof, -⟩ := @inclusion_of_index prim _ _ _ (List.getElem?_eq_getElem hlt)
  have hreadDrop : (Program.reads fun disk : Disk => readDrop disk.dir id).exec ⟨dir, []⟩ =
      (.ok (signed, body), ⟨dir, []⟩) := Program.exec_reads_ok hread
  have hreadLog : (Program.reads fun disk : Disk =>
      (.ok (logEntries disk.dir) : Except StoreError _)).exec ⟨dir, []⟩ =
        (.ok (logEntries dir), ⟨dir, []⟩) := Program.exec_reads_ok rfl
  have hexec : (verify prim generated now id).exec ⟨dir, []⟩ = _ :=
    (Program.exec_bind_ok hreadDrop _).trans <|
      (Program.exec_bind_ok hreadLog _).trans <|
      (Program.exec_ofExcept_bind (okOr_ok_iff.mpr hindex) _ _).trans <|
      (Program.exec_ofExcept_bind (mapError_ok_iff.mpr hproof) _ _).trans <|
      Program.exec_bind_ok (exec_logIdentity_of_none generated hkey) _
  exact ⟨_, _, hexec, rfl, rfl⟩

/-- A directory whose log has the known envelope, with some file under its id. -/
def loggedDir (raw : List UInt8) : Dir :=
  AList.insert (.drop (KnownAnswers.drop.id KnownAnswers.primitives)) raw
    (AList.insert .logEntries (records 4 [KnownAnswers.drop.raw]) ∅)

theorem logEntries_loggedDir (raw : List UInt8) :
    logEntries (loggedDir raw) = [KnownAnswers.drop.raw] := by
  have hfits : ∀ entry ∈ [KnownAnswers.drop.raw], Fits 4 entry := by decide +kernel
  unfold logEntries loggedDir
  rw [AList.lookup_insert_ne (by nofun), AList.lookup_insert]
  exact scan_records (by decide) hfits

/-- Whatever the file under the id is, as long as it decodes, `verify` returns. -/
theorem verify_loggedDir {raw : List UInt8} {signed : SignedDrop} {body : DropBody}
    (hdecode : SignedDrop.decode raw = .ok signed) (hbody : signed.body = .ok body)
    (generated : Identity) (now : UInt64) :
    ∃ v disk', (verify KnownAnswers.primitives generated now
        (KnownAnswers.drop.id KnownAnswers.primitives)).exec ⟨loggedDir raw, []⟩ = (.ok v, disk') ∧
      v.signature = (signed.verify KnownAnswers.primitives).isOk ∧ v.leafIndex = 0 := by
  refine verify_returns (readDrop_ok_iff.mpr ⟨raw, AList.lookup_insert _, hdecode, hbody⟩) ?_ ?_
  · rw [logEntries_loggedDir]
    have hhash : KnownAnswers.primitives.sha256 KnownAnswers.drop.raw =
        (KnownAnswers.drop.id KnownAnswers.primitives).bytes := rfl
    rw [List.findIdx?_cons, if_pos (decide_eq_true hhash)]
  · unfold loggedDir
    rw [AList.lookup_insert_ne (by nofun), AList.lookup_insert_ne (by nofun)]
    rfl

/-- The known drop in its own file. -/
theorem known_drop_one_object :
    let id := KnownAnswers.drop.id KnownAnswers.primitives
    ∃ v disk', (verify KnownAnswers.primitives KnownAnswers.recipient 1 id).exec
        ⟨loggedDir KnownAnswers.drop.raw, []⟩ = (.ok v, disk') ∧
      (v.signature = true → v.inclusion = true →
        OneObject KnownAnswers.primitives (loggedDir KnownAnswers.drop.raw) id v.leafIndex) := by
  intro id
  obtain ⟨hdecode, -, hbody⟩ := known_drop_accepted
  obtain ⟨v, disk', hexec, -⟩ := verify_loggedDir hdecode hbody KnownAnswers.recipient 1
  refine ⟨v, disk', hexec, (verify_one_object_iff hexec).mpr ?_⟩
  exact ⟨_, _, AList.lookup_insert _, hdecode, Or.inr rfl⟩

/-- Another valid envelope in the file of the known drop: its signature and the inclusion of the
known drop are reported as those of one object. -/
theorem sibling_verified_as_known :
    let id := KnownAnswers.drop.id KnownAnswers.primitives
    let sibling := KnownAnswers.drop.withSuite 0
    let dir := loggedDir sibling.raw
    ∃ v disk', (verify KnownAnswers.primitives KnownAnswers.recipient 1 id).exec ⟨dir, []⟩ =
        (.ok v, disk') ∧ v.signature = true ∧ v.inclusion = true ∧
      dir.lookup (.drop id) = some sibling.raw ∧
      (logEntries dir)[v.leafIndex]? = some KnownAnswers.drop.raw ∧
      sibling.raw ≠ KnownAnswers.drop.raw ∧
      KnownAnswers.primitives.sha256 sibling.raw ≠
        KnownAnswers.primitives.sha256 KnownAnswers.drop.raw := by
  intro id sibling dir
  have hlen : sibling.raw.length < 2 ^ 64 := by decide +kernel
  have hencode : sibling.raw = sibling.encode := withSuite_raw _ _
  have hdecode : SignedDrop.decode sibling.raw = .ok sibling := decode_raw hencode hlen
  have hbody : sibling.body = .ok KnownAnswers.body := body_of_payload rfl (hencode ▸ hlen)
  have hverify : sibling.verify KnownAnswers.primitives = .ok () :=
    (withSuite_verify _ _).trans known_drop_accepted.2.1
  obtain ⟨v, disk', hexec, hsignature, hindex⟩ :=
    verify_loggedDir hdecode hbody KnownAnswers.recipient 1
  obtain ⟨_, _, _, -, -, -, -, -, hinclusion⟩ := exec_verify hexec
  refine ⟨v, disk', hexec, ?_, hinclusion, AList.lookup_insert _, ?_, ?_,
    known_sibling_hash⟩
  · rw [hsignature]
    exact isOk_iff.mpr hverify
  · rw [hindex, logEntries_loggedDir]
    rfl
  · exact fun heq => known_sibling_hash (congrArg KnownAnswers.primitives.sha256 heq)

end Keepstone.Store
