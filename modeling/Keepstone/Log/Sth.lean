import Keepstone.Crypto.Keys
import Keepstone.Lib.Layout
import Keepstone.Log.Merkle

/-!
# Signed tree heads (`crates/log/src/sth.rs`)

The log's commitment to its current tree, and the comparison by which clients catch a log that
shows different histories to different people.

Results:
* `fromBytes_toBytes`, `toBytes_fromBytes`: the fixed-size encoding is a bijection.
-/

namespace Keepstone.Log

open Keepstone.Lib Keepstone.Crypto

/-- `STH_CONTEXT`. -/
def sthContext : List UInt8 := utf8 "keepstone/v1/sth"

/-- `SignedTreeHead`. -/
structure SignedTreeHead where
  /-- Number of leaves in the tree. -/
  treeSize : UInt64
  /-- Merkle Tree Hash of the tree. -/
  root : Hash
  /-- Unix seconds at signing time. -/
  timestamp : UInt64
  /-- Log's Ed25519 public key. -/
  logPublic : Bytes 32
  /-- Log's signature. -/
  signature : Bytes 64
  deriving DecidableEq

/-- `sth_input`. -/
def sthInput (treeSize : UInt64) (root : Hash) (timestamp : UInt64) : List UInt8 :=
  sthContext ++ beBytes 8 treeSize.toNat ++ root.toList ++ beBytes 8 timestamp.toNat

namespace SignedTreeHead

variable (prim : Primitives)

/-- `SignedTreeHead::sign`. -/
def sign (signer : Identity) (treeSize : UInt64) (root : Hash) (timestamp : UInt64) :
    SignedTreeHead where
  treeSize
  root
  timestamp
  logPublic := signer.signingPublic prim
  signature := signer.sign prim (sthInput treeSize root timestamp)

/-- `SignedTreeHead::verify`. -/
def verify (sth : SignedTreeHead) : Except LogError Unit :=
  (Crypto.verify prim sth.logPublic (sthInput sth.treeSize sth.root sth.timestamp)
    sth.signature).mapError fun _ => .treeHeadInvalid

/-! ## The encoding -/

/-- `SignedTreeHead::to_bytes`. -/
def toBytes (sth : SignedTreeHead) : Bytes 144 :=
  let out : Bytes 144 := List.Vector.replicate 144 0
  let out := writeField 0 8 (toBeBytes sth.treeSize) out
  let out := writeField 8 40 sth.root out
  let out := writeField 40 48 (toBeBytes sth.timestamp) out
  let out := writeField 48 80 sth.logPublic out
  writeField 80 144 sth.signature out

/-- `SignedTreeHead::from_bytes`. -/
def fromBytes (bytes : Bytes 144) : SignedTreeHead where
  treeSize := fromBeBytes (readField 0 8 bytes)
  root := readField 8 40 bytes
  timestamp := fromBeBytes (readField 40 48 bytes)
  logPublic := readField 48 80 bytes
  signature := readField 80 144 bytes

/-- The ranges are disjoint, so that no field is written over another. -/
theorem fromBytes_toBytes (sth : SignedTreeHead) : fromBytes sth.toBytes = sth := by
  cases sth
  simp only [fromBytes, toBytes, readField_writeField, readField_writeField_of_disjoint,
    fromBeBytes_toBeBytes, Nat.reduceLeDiff, true_or]

/-- The ranges cover the array. -/
theorem fromBytes_injective : Function.Injective fromBytes := by
  intro a b h
  obtain ⟨hsize, hroot, htimestamp, hpublic, hsignature⟩ := SignedTreeHead.mk.inj h
  have hsize' := fromBeBytes_injective hsize
  have htimestamp' := fromBeBytes_injective htimestamp
  have h8 := take_eq_of_readField_eq _ (by rw [List.take_zero, List.take_zero]) hsize'
  have h40 := take_eq_of_readField_eq _ h8 hroot
  have h48 := take_eq_of_readField_eq _ h40 htimestamp'
  have h80 := take_eq_of_readField_eq _ h48 hpublic
  have h144 := take_eq_of_readField_eq _ h80 hsignature
  rw [List.take_of_length_le a.toList_length.le, List.take_of_length_le b.toList_length.le] at h144
  exact List.Vector.toList_injective h144

theorem toBytes_fromBytes (bytes : Bytes 144) : (fromBytes bytes).toBytes = bytes :=
  fromBytes_injective (fromBytes_toBytes _)

end SignedTreeHead

/-- `detect_equivocation`. -/
def detectEquivocation (a b : SignedTreeHead) : Bool := a.treeSize = b.treeSize && a.root ≠ b.root

end Keepstone.Log
