import Keepstone.Store.Directory

/-!
# Identity and contacts (`crates/store/src/lib.rs:183-394`)

The files that hold keys are text: secrets and public keys in hexadecimal, one contact device a
line. What a call draws from the operating system is an argument.

Results:
* `identity_saved`: the identity that was saved is the one that is loaded.
-/

namespace Keepstone.Store

open Keepstone.Lib Keepstone.Crypto

variable (prim : Primitives)

/-- `hex32`. -/
def hex32 (text : List Char) : Except StoreError (Bytes 32) :=
  match hexDecode (trim text) with
  | none => .error (.invalid "hex")
  | some bytes =>
    match tryBytes 32 bytes with
    | none => .error (.invalid "expected 32 bytes")
    | some out => .ok out

/-- `fs::read_to_string`. -/
def readToString (dir : Dir) (file : File) : Option (List Char) := (dir.lookup file).bind readText

/-! ## Identity -/

/-- What `save_identity` writes. -/
def identityText (identity : Identity) : List Char :=
  hexEncode identity.signing.toList ++ '\n' :: (hexEncode identity.ecdh.toList ++ ['\n'])

/-- `Store::save_identity`. -/
def saveIdentity (identity : Identity) : Program StoreError Disk Unit :=
  (write .identity (textBytes (identityText identity))).mapErr .io

/-- `Store::identity`. -/
def identity (dir : Dir) : Except StoreError Identity :=
  match readToString dir .identity with
  | none => .error .noIdentity
  | some text => do
    let signing ← hex32 ((lines text).getD 0 [])
    let ecdh ← hex32 ((lines text).getD 1 [])
    pure ⟨signing, ecdh⟩

theorem hex32_hexEncode (bytes : Bytes 32) : hex32 (hexEncode bytes.toList) = .ok bytes := by
  unfold hex32
  simp only [trim_hexEncode, hexDecode_hexEncode, tryBytes_eq_some_iff.mpr rfl]

theorem lines_identityText (identity : Identity) : lines (identityText identity) =
    [hexEncode identity.signing.toList, hexEncode identity.ecdh.toList] := by
  rw [identityText, lines_hexEncode, lines_hexEncode]
  rfl

/-- The identity that was saved is the one that is loaded. -/
theorem identity_saved {dir : Dir} {saved : Identity}
    (h : dir.lookup .identity = some (textBytes (identityText saved))) :
    identity dir = .ok saved := by
  unfold identity readToString
  simp only [h, Option.bind_some, readText_textBytes, lines_identityText, List.getD_cons_zero,
    List.getD_cons_succ, hex32_hexEncode]
  rfl

/-- `Store::save_hybrid`. -/
def saveHybrid (keypair : HybridKeypair) : Program StoreError Disk Unit :=
  (write .hybrid (textBytes (hexEncode keypair.toSecretBytes.toList))).mapErr .io

/-- `Store::hybrid`. -/
def hybrid (dir : Dir) : Except StoreError HybridKeypair :=
  match readToString dir .hybrid with
  | none => .error .noHybrid
  | some text =>
    match hexDecode (trim text) with
    | none => .error (.invalid "hybrid hex")
    | some bytes =>
      match tryBytes 96 bytes with
      | none => .error (.invalid "hybrid length")
      | some array => (HybridKeypair.fromSecretBytes prim array).mapError .crypto

/-- `Store::hybrid_or_create` with the keypair it generates if there is none. -/
def hybridOrCreate (generated : HybridKeypair) : Program StoreError Disk HybridKeypair := do
  if ← .reads fun disk => .ok (disk.dir.lookup .hybrid).isSome then
    .reads fun disk => hybrid prim disk.dir
  else
    saveHybrid generated
    pure generated

/-- `Store::hybrid_public_bytes`. -/
def hybridPublicBytes (generated : HybridKeypair) : Program StoreError Disk (List UInt8) := do
  let pub := (← hybridOrCreate prim generated).public prim
  pure (pub.x25519.toList ++ pub.kem)

/-- `Store::save_mldsa`. -/
def saveMldsa (keypair : MlDsaKeypair) : Program StoreError Disk Unit :=
  (write .mldsa (textBytes (hexEncode keypair.seed.toList))).mapErr .io

/-- `Store::mldsa`. -/
def mldsa (dir : Dir) : Except StoreError MlDsaKeypair :=
  match readToString dir .mldsa with
  | none => .error .noMlDsa
  | some text =>
    match hexDecode (trim text) with
    | none => .error (.invalid "mldsa hex")
    | some bytes =>
      match tryBytes 32 bytes with
      | none => .error (.invalid "mldsa seed length")
      | some seed => (MlDsaKeypair.fromSeed prim seed).mapError .crypto

/-- `Store::mldsa_or_create` with the keypair it generates if there is none. -/
def mldsaOrCreate (generated : MlDsaKeypair) : Program StoreError Disk MlDsaKeypair := do
  if ← .reads fun disk => .ok (disk.dir.lookup .mldsa).isSome then
    .reads fun disk => mldsa prim disk.dir
  else
    saveMldsa generated
    pure generated

/-- `Store::keygen` with the keys it generates. -/
def keygen (generated : Identity) (hybrid : HybridKeypair) (mlDsa : MlDsaKeypair) :
    Program StoreError Disk Identity := do
  .checks (fun disk => (disk.dir.lookup .identity).isNone) (.invalid "identity already exists")
  saveIdentity generated
  saveHybrid hybrid
  saveMldsa mlDsa
  pure generated

section Invariant

variable {I : Disk → Prop}

/-- A key that is loaded if its file exists, and else generated and saved. -/
theorem keeps_orCreate {α : Type} {file : File} {bytes : List UInt8}
    (hfile : Keeps I (write file bytes) fun _ => True) (load : Disk → Except StoreError α)
    (generated : α) :
    Keeps I (do
      if ← .reads fun disk => .ok (disk.dir.lookup file).isSome then .reads load
      else
        (write file bytes).mapErr .io
        pure generated : Program StoreError Disk α) fun _ => True := by
  refine (Keeps.reads fun _ _ _ _ => trivial).bind fun present _ => ?_
  cases present with
  | true => exact Keeps.reads fun _ _ _ _ => trivial
  | false => exact (hfile.mapErr _).bind fun _ _ => Keeps.pure trivial

theorem keeps_hybridPublicBytes (hhybrid : Allows I .hybrid) (generated : HybridKeypair) :
    Keeps I (hybridPublicBytes prim generated) fun _ => True :=
  (keeps_orCreate (hhybrid.write _) _ _).bind fun _ _ => Keeps.pure trivial

theorem keeps_mldsaOrCreate (hmldsa : Allows I .mldsa) (generated : MlDsaKeypair) :
    Keeps I (mldsaOrCreate prim generated) fun _ => True := keeps_orCreate (hmldsa.write _) _ _

theorem keeps_keygen (hidentity : Allows I .identity) (hhybrid : Allows I .hybrid)
    (hmldsa : Allows I .mldsa) (generated : Identity) (hybrid : HybridKeypair)
    (mlDsa : MlDsaKeypair) : Keeps I (keygen generated hybrid mlDsa) fun _ => True := by
  refine (Keeps.reads fun _ _ _ _ => trivial).bind fun _ _ => ?_
  refine ((hidentity.write _).mapErr _).bind fun _ _ => ?_
  refine ((hhybrid.write _).mapErr _).bind fun _ _ => ?_
  exact ((hmldsa.write _).mapErr _).bind fun _ _ => Keeps.pure trivial

end Invariant

/-! ## Contacts -/

/-- `Contact`. -/
structure Contact where
  /-- Petname. -/
  name : String
  /-- Ed25519 public key. -/
  signing : Bytes 32
  /-- X25519 public key. -/
  ecdh : Bytes 32
  /-- Hybrid public key bytes, if known. -/
  hybrid : Option (List UInt8)
  deriving DecidableEq

/-- One line of the contacts file; a line of fewer than three words is skipped. -/
def parseContact (line : List Char) : Except StoreError (Option Contact) :=
  match splitWhitespace line with
  | name :: signing :: ecdh :: rest => do
    let hybrid ← match rest with
      | [] => pure none
      | value :: _ =>
        if value = ['-'] then pure none
        else match hexDecode value with
          | none => throw (.invalid "contact hybrid")
          | some bytes => pure (some bytes)
    let signing ← hex32 signing
    let ecdh ← hex32 ecdh
    pure (some ⟨String.ofList name, signing, ecdh, hybrid⟩)
  | _ => pure none

/-- `Store::contacts`. -/
def contacts (dir : Dir) : Except StoreError (List Contact) := do
  let parsed ← (lines ((readToString dir .contacts).getD [])).mapM parseContact
  pure parsed.reduceOption

/-- `Store::add_contact`. -/
def addContact (name signing ecdh : String) (hybrid : Option String) :
    Program StoreError Disk Unit := do
  .ofExcept (check (!name.toList.isEmpty && !name.toList.any isWhitespace)
    (.invalid "contact name must be non-empty and have no whitespace"))
  let signing ← .ofExcept (hex32 signing.toList)
  let ecdh ← .ofExcept (hex32 ecdh.toList)
  let hybrid ← .ofExcept <| match hybrid with
    | none => .ok none
    | some value =>
      match hexDecode value.toList with
      | none => .error (.invalid "hybrid hex")
      | some bytes => .ok (some bytes)
  let existing ← .reads fun disk => .ok ((readToString disk.dir .contacts).getD [])
  let device := name.toList ++ ' ' :: (hexEncode signing.toList ++ ' ' ::
    (hexEncode ecdh.toList ++ [' ']))
  .ofExcept (check (!(lines existing).any fun line => device.isPrefixOf line)
    (.invalid ("contact `" ++ name ++ "` already has this device")))
  let hybridText := match hybrid with
    | none => ['-']
    | some bytes => hexEncode bytes
  (write .contacts (textBytes (existing ++ device ++ hybridText ++ ['\n']))).mapErr .io

theorem keeps_addContact {I : Disk → Prop} (hcontacts : Allows I .contacts)
    (name signing ecdh : String) (hybrid : Option String) :
    Keeps I (addContact name signing ecdh hybrid) fun _ => True := by
  refine (Keeps.ofExcept _).bind fun _ _ => ?_
  refine (Keeps.ofExcept _).bind fun _ _ => ?_
  refine (Keeps.ofExcept _).bind fun _ _ => ?_
  refine (Keeps.ofExcept _).bind fun _ _ => ?_
  refine (Keeps.reads fun _ _ _ _ => trivial).bind fun existing _ => ?_
  refine (Keeps.ofExcept _).bind fun _ _ => ?_
  exact (hcontacts.write _).mapErr _

end Keepstone.Store
