import Keepstone.Core.KnownAnswers
import Keepstone.Crypto.Shamir

/-!
# Place-locked key release (`crates/core/src/place.rs`)

A content key is split among custodians, each share sealed to its custodian, and put together
again from the shares they release. `open` counts the entries it is given, not the shares among
them. A share given twice passes the count, gets weight zero in `combine`, and leaves its factor
in the weights of the others.

What `seal` draws is an argument: `fill` for the polynomials, `wraps i` for the ephemeral secret
and the nonce of share `i`.

Results:
* `seal_spec`: what a sealing consists of;
* `open_released`: what `open` makes of the entries of a sealing;
* **`released_open_iff`**: from which custodians' entries `open` gives the content key or an
  error, whatever the key.
-/

namespace Keepstone.Core

open Keepstone.Lib Keepstone.Crypto

/-- `CustodianShare`. -/
structure CustodianShare where
  /-- Custodian's X25519 public key. -/
  custodian : Bytes 32
  /-- Shamir evaluation point. -/
  x : UInt8
  /-- The share value, sealed to the custodian. -/
  sealedY : SealedKey
  deriving DecidableEq

variable (prim : Primitives)

/-- One turn of the loop of `seal`. -/
def Place.sealShare (wraps : Nat → Bytes 32 × Bytes 24) (i : Nat) (custodian : Bytes 32)
    (share : Share) : Except CoreError CustodianShare := do
  let y ← okOr (tryBytes 32 share.y) (.invalid "share length")
  let sealedY ←
    (SealedKey.seal prim y custodian (wraps i).1 (wraps i).2).mapError CoreError.crypto
  pure ⟨custodian, share.x, sealedY⟩

/-- `place::seal`. -/
def Place.seal (contentKey : Bytes 32) (custodians : List (Bytes 32)) (threshold : UInt8)
    (fill : Nat → Bytes (threshold.toNat - 1)) (wraps : Nat → Bytes 32 × Bytes 24) :
    Except CoreError (List CustodianShare) := do
  check (!custodians.isEmpty) (CoreError.invalid "no custodians")
  -- `u8::try_from`
  check (decide (custodians.length < 256)) (CoreError.invalid "too many custodians")
  let count := UInt8.ofNat custodians.length
  let shares ← (split contentKey.toList threshold count fill).mapError CoreError.crypto
  (custodians.zip shares).zipIdx.mapM fun e => Place.sealShare prim wraps e.2 e.1.1 e.1.2

/-- One turn of the loop of `open`. -/
def Place.openShare (entry : Bytes 32 × UInt8 × SealedKey) : Except CoreError Share := do
  let y ← (entry.2.2.open prim entry.1).mapError CoreError.crypto
  pure ⟨entry.2.1, y.toList⟩

/-- `place::open`; an entry is the custodian's secret, the point and the sealed share. -/
def Place.open (available : List (Bytes 32 × UInt8 × SealedKey)) (threshold : Nat) :
    Except CoreError (Bytes 32) := do
  check (!(decide (available.length < threshold) || decide (threshold < 2)))
    (CoreError.invalid "insufficient shares")
  let shares ← available.mapM (Place.openShare prim)
  let key ← (combine shares).mapError CoreError.crypto
  okOr (tryBytes 32 key) (.invalid "reconstructed key length")

/-- The evaluation point of share `i`. -/
def pointOf (i : Nat) : UInt8 := UInt8.ofNat (i + 1)

theorem pointOf_inj {i j : Nat} (hi : i < 255) (hj : j < 255) (h : pointOf i = pointOf j) :
    i = j := by
  have := uint8_ofNat_inj (a := i + 1) (b := j + 1) (by omega) (by omega) h
  omega

theorem pointOf_ne_zero {i : Nat} (hi : i < 255) : pointOf i ≠ 0 := by
  intro h
  have := uint8_ofNat_inj (a := i + 1) (b := 0) (by omega) (by omega) h
  omega

variable {prim}

/-! ## A sealing -/

section Sealing

variable {contentKey : Bytes 32} {custodians : List (Bytes 32)} {threshold : UInt8}
  {fill : Nat → Bytes (threshold.toNat - 1)} {wraps : Nat → Bytes 32 × Bytes 24}

theorem sealShare_ok_iff {i : Nat} {custodian : Bytes 32} {share : Share} {out : CustodianShare} :
    Place.sealShare prim wraps i custodian share = .ok out ↔
      ∃ y : Bytes 32, y.toList = share.y ∧
        SealedKey.seal prim y custodian (wraps i).1 (wraps i).2 = .ok out.sealedY ∧
        out.custodian = custodian ∧ out.x = share.x := by
  simp only [Place.sealShare, bind_ok_iff, okOr_ok_iff, tryBytes_eq_some_iff, mapError_ok_iff,
    pure_ok_iff]
  constructor
  · rintro ⟨y, hy, sealedY, hseal, rfl⟩
    exact ⟨y, hy.symm, hseal, rfl, rfl⟩
  · rintro ⟨y, hy, hseal, rfl, hx⟩
    refine ⟨y, hy.symm, out.sealedY, hseal, ?_⟩
    rw [← hx]

/-- The parameters `seal` accepts. -/
structure Place.Accepts (custodians : List (Bytes 32)) (threshold : UInt8) : Prop where
  count : custodians.length < 256
  two_le : 2 ≤ threshold.toNat
  le_count : threshold.toNat ≤ custodians.length

/-- `seal` with its shares written out. -/
theorem seal_ok_iff {shares : List CustodianShare} :
    Place.seal prim contentKey custodians threshold fill wraps = .ok shares ↔
      Place.Accepts custodians threshold ∧
      List.Forall₂ (fun e out => Place.sealShare prim wraps e.2 e.1
        (shareAt contentKey.toList fill (pointOf e.2)) = .ok out) custodians.zipIdx shares := by
  have hkey : contentKey.toList ≠ [] :=
    List.length_pos_iff.mp (by rw [contentKey.toList_length]; decide)
  -- the loop over the zipped lists is one over the positions of the custodians
  have hzip : (custodians.zip ((List.range' 1 custodians.length).map fun x =>
      shareAt contentKey.toList fill (UInt8.ofNat x))).zipIdx =
      custodians.zipIdx.map fun e =>
        ((e.1, shareAt contentKey.toList fill (pointOf e.2)), e.2) := by
    refine List.ext_getElem (by simp) fun i h h' => ?_
    simp [pointOf, Nat.add_comm 1]
  simp only [Place.seal, bind_ok_iff, check_ok_iff, mapError_ok_iff, split_ok_iff, mapM_ok_iff]
  constructor
  · rintro ⟨-, -, -, hcount, out, ⟨-, ht, hn, rfl⟩, hshares⟩
    have hcount' : custodians.length < 256 := of_decide_eq_true hcount
    rw [UInt8.toNat_ofNat_of_lt' hcount', hzip, List.forall₂_map_left_iff] at hshares
    refine ⟨⟨hcount', ht, ?_⟩, hshares⟩
    have hle : threshold.toNat ≤ (UInt8.ofNat custodians.length).toNat := hn
    rwa [UInt8.toNat_ofNat_of_lt' hcount'] at hle
  · rintro ⟨⟨hcount, ht, hn⟩, hshares⟩
    refine ⟨(), ?_, (), decide_eq_true hcount, _, ⟨hkey, ht, ?_, rfl⟩, ?_⟩
    · cases custodians with
      | nil => exact absurd (ht.trans hn) (by decide)
      | cons _ _ => rfl
    · show threshold.toNat ≤ (UInt8.ofNat custodians.length).toNat
      rwa [UInt8.toNat_ofNat_of_lt' hcount]
    · rw [UInt8.toNat_ofNat_of_lt' hcount, hzip, List.forall₂_map_left_iff]
      exact hshares

/-- What a sealing consists of. -/
theorem seal_spec {shares : List CustodianShare}
    (h : Place.seal prim contentKey custodians threshold fill wraps = .ok shares) {i : Nat}
    (hi : i < custodians.length) {out : CustodianShare} (hout : shares[i]? = some out) :
    Place.sealShare prim wraps i custodians[i] (shareAt contentKey.toList fill (pointOf i)) =
      .ok out := by
  have hshares := (seal_ok_iff.mp h).2
  obtain ⟨hlen, rfl⟩ := List.getElem?_eq_some_iff.mp hout
  have hat := hshares.get (by rwa [List.length_zipIdx]) hlen
  simpa using hat

theorem length_of_seal_ok {shares : List CustodianShare}
    (h : Place.seal prim contentKey custodians threshold fill wraps = .ok shares) :
    shares.length = custodians.length := by
  rw [← (seal_ok_iff.mp h).2.length_eq, List.length_zipIdx]

/-- A key is sealed if its parameters are accepted and each share can be sealed. -/
theorem exists_seal_ok (contentKey : Bytes 32) (fill : Nat → Bytes (threshold.toNat - 1))
    (haccepts : Place.Accepts custodians threshold)
    (hseal : ∀ i (hi : i < custodians.length) (y : Bytes 32), ∃ sealed,
      SealedKey.seal prim y custodians[i] (wraps i).1 (wraps i).2 = .ok sealed) :
    ∃ shares, Place.seal prim contentKey custodians threshold fill wraps = .ok shares := by
  have hloop : ∀ e ∈ custodians.zipIdx, ∃ out, Place.sealShare prim wraps e.2 e.1
      (shareAt contentKey.toList fill (pointOf e.2)) = .ok out := by
    rintro ⟨custodian, i⟩ he
    have hget : custodians[i]? = some custodian := List.mem_zipIdx_iff_getElem?.mp he
    obtain ⟨hi, rfl⟩ := List.getElem?_eq_some_iff.mp hget
    have hy : (shareAt contentKey.toList fill (pointOf i)).y.length = 32 := by simp [shareAt]
    obtain ⟨sealed, hsealed⟩ := hseal i hi (bytesOf _ hy)
    exact ⟨⟨custodians[i], pointOf i, sealed⟩,
      sealShare_ok_iff.mpr ⟨bytesOf _ hy, rfl, hsealed, rfl, rfl⟩⟩
  obtain ⟨shares, hshares⟩ := exists_mapM_ok_iff.mpr hloop
  exact ⟨shares, seal_ok_iff.mpr ⟨haccepts, mapM_ok_iff.mp hshares⟩⟩

end Sealing

/-! ## What is released -/

/-- `available` holds what the custodians `picks` release of a sealing, one after the other: the
secret, the point and the sealed share of each. -/
def Place.Released {n : Nat} (secrets : Fin n → Bytes 32) (shares : List CustodianShare)
    (picks : List (Fin n)) (available : List (Bytes 32 × UInt8 × SealedKey)) : Prop :=
  List.Forall₂ (fun (i : Fin n) entry =>
    ∃ share, shares[(i : Nat)]? = some share ∧ entry = (secrets i, share.x, share.sealedY))
    picks available

/-- The points of the picked shares. -/
def Place.points {n : Nat} (picks : List (Fin n)) : List UInt8 :=
  picks.map fun i : Fin n => pointOf i

/-- A share can be sealed to each custodian, and opens to what was sealed with the custodian's
secret. -/
def Place.Opens (prim : Primitives) (custodians : List (Bytes 32))
    (secrets : Fin custodians.length → Bytes 32) (wraps : Nat → Bytes 32 × Bytes 24) : Prop :=
  ∀ (i : Fin custodians.length) (y : Bytes 32), ∃ sealed,
    SealedKey.seal prim y (custodians.get i) (wraps i).1 (wraps i).2 = .ok sealed ∧
      sealed.open prim (secrets i) = .ok y

theorem points_ne_zero {n : Nat} (hn : n < 256) (picks : List (Fin n)) :
    ∀ x ∈ Place.points picks, x ≠ 0 := by
  simp only [Place.points, List.forall_mem_map]
  intro i _
  exact pointOf_ne_zero (by omega)

section Released

variable {contentKey : Bytes 32} {custodians : List (Bytes 32)} {threshold : UInt8}
  {fill : Nat → Bytes (threshold.toNat - 1)} {wraps : Nat → Bytes 32 × Bytes 24}
  {secrets : Fin custodians.length → Bytes 32} {shares : List CustodianShare}
  {picks : List (Fin custodians.length)} {available : List (Bytes 32 × UInt8 × SealedKey)}

/-- Each custodian has a share to release. -/
theorem exists_released (secrets : Fin custodians.length → Bytes 32)
    (hseal : Place.seal prim contentKey custodians threshold fill wraps = .ok shares)
    (picks : List (Fin custodians.length)) :
    ∃ available, Place.Released secrets shares picks available := by
  induction picks with
  | nil => exact ⟨[], .nil⟩
  | cons i picks ih =>
    obtain ⟨available, havailable⟩ := ih
    have hi : (i : Nat) < shares.length := by
      rw [length_of_seal_ok hseal]
      exact i.isLt
    exact ⟨_, .cons ⟨_, List.getElem?_eq_getElem hi, rfl⟩ havailable⟩

/-- The released entries open to the shares at their points. -/
theorem mapM_openShare (hopens : Place.Opens prim custodians secrets wraps)
    (hseal : Place.seal prim contentKey custodians threshold fill wraps = .ok shares)
    (hreleased : Place.Released secrets shares picks available) :
    available.mapM (Place.openShare prim) =
      .ok ((Place.points picks).map (shareAt contentKey.toList fill)) := by
  rw [mapM_ok_iff, Place.points, List.map_map, List.forall₂_map_right_iff]
  refine List.Forall₂.flip (hreleased.imp ?_)
  rintro i _ ⟨share, hshare, rfl⟩
  obtain ⟨y, hy, hsealed, -, hx⟩ := sealShare_ok_iff.mp (seal_spec hseal i.isLt hshare)
  obtain ⟨sealed, hsealed', hopen⟩ := hopens i y
  obtain rfl := Except.ok.inj (hsealed'.symm.trans hsealed)
  simp only [Place.openShare, bind_ok_iff, mapError_ok_iff, pure_ok_iff]
  refine ⟨y, hopen, ?_⟩
  rw [hx, hy]
  rfl

/-- **What `open` makes of released entries**: with too few an error, else what `combine` does. -/
theorem open_released (hopens : Place.Opens prim custodians secrets wraps)
    (hseal : Place.seal prim contentKey custodians threshold fill wraps = .ok shares)
    (hreleased : Place.Released secrets shares picks available) :
    (picks.length < threshold.toNat ∧
      Place.open prim available threshold.toNat = .error (.invalid "insufficient shares")) ∨
    (threshold.toNat ≤ picks.length ∧ ∃ key : Bytes 32,
      combine ((Place.points picks).map (shareAt contentKey.toList fill)) = .ok key.toList ∧
      Place.open prim available threshold.toNat = .ok key) := by
  obtain ⟨hcount, ht, hn⟩ := (seal_ok_iff.mp hseal).1
  have hlen : available.length = picks.length := hreleased.length_eq.symm
  rcases Nat.lt_or_ge picks.length threshold.toNat with hfew | hmany
  · refine .inl ⟨hfew, ?_⟩
    rw [Place.open, hlen, decide_eq_true hfew]
    rfl
  · refine .inr ⟨hmany, ?_⟩
    have hpoints : ∀ s ∈ (Place.points picks).map (shareAt contentKey.toList fill),
        s.y.length = 32 ∧ s.x ≠ 0 := by
      rw [List.forall_mem_map]
      intro x hx
      exact ⟨by simp [shareAt], points_ne_zero hcount picks x hx⟩
    obtain ⟨secret, hcombine, hsecret⟩ := combine_total
      (by simpa [Place.points] using ht.trans hmany) (by decide) hpoints
    refine ⟨bytesOf secret hsecret, hcombine, ?_⟩
    simp only [Place.open, bind_ok_iff, check_ok_iff, mapError_ok_iff, okOr_ok_iff,
      tryBytes_eq_some_iff, mapM_openShare hopens hseal hreleased]
    refine ⟨(), ?_, _, rfl, secret, hcombine, rfl⟩
    rw [hlen, decide_eq_false (by omega), decide_eq_false (by omega)]
    rfl

end Released

/-- Different custodians' shares reconstruct. -/
theorem reconstructs_of_nodup {n t : Nat} (hn : n < 256) {picks : List (Fin n)}
    (hnodup : picks.Nodup) (ht : t ≤ picks.length) :
    Reconstructs t fun i => Gf256.mk ((Place.points picks).get i) := by
  refine reconstructs_of_injective ?_ (by rwa [Fintype.card_fin, Place.points, List.length_map])
  have hpoints : (Place.points picks).Nodup := by
    refine hnodup.map_on fun i _ j _ hij => ?_
    exact Fin.ext (pointOf_inj (by omega) (by omega) hij)
  intro i j hij
  exact List.nodup_iff_injective_get.mp hpoints (congrArg Gf256.byte hij)

/-- **From which custodians' entries the key comes back.** For a sealing that succeeds and the
entries of any list of its custodians, with repetitions: `open` at the sealing threshold gives the
content key or an error, whatever the key and what was drawn for it, exactly if the entries are
too few or the repeated points do not disturb the interpolation. -/
theorem released_open_iff {custodians : List (Bytes 32)} {threshold : UInt8}
    {wraps : Nat → Bytes 32 × Bytes 24} {secrets : Fin custodians.length → Bytes 32}
    (hopens : Place.Opens prim custodians secrets wraps)
    (hseals : ∃ contentKey fill shares,
      Place.seal prim contentKey custodians threshold fill wraps = .ok shares)
    (picks : List (Fin custodians.length)) :
    (∀ contentKey fill shares available,
        Place.seal prim contentKey custodians threshold fill wraps = .ok shares →
        Place.Released secrets shares picks available →
        Place.open prim available threshold.toNat = .ok contentKey ∨
          ∃ e, Place.open prim available threshold.toNat = .error e) ↔
      picks.length < threshold.toNat ∨
        Reconstructs threshold.toNat fun i => Gf256.mk ((Place.points picks).get i) := by
  obtain ⟨_, _, _, hseal₀⟩ := hseals
  have haccepts := (seal_ok_iff.mp hseal₀).1
  have ht := haccepts.two_le
  have hlen : (Place.points picks).length = picks.length := List.length_map _
  have hpoints := points_ne_zero haccepts.count picks
  constructor
  · intro hall
    rcases Nat.lt_or_ge picks.length threshold.toNat with hfew | hmany
    · exact .inl hfew
    refine .inr ((forall_combine_iff ht 32 (by decide) (by rwa [hlen]) hpoints).mp ?_)
    intro secret fill hsecret
    obtain ⟨shares, hseal⟩ := exists_seal_ok (bytesOf secret hsecret) fill haccepts
      fun i hi y => (hopens ⟨i, hi⟩ y).imp fun _ h => h.1
    obtain ⟨available, havailable⟩ := exists_released secrets hseal picks
    rcases open_released hopens hseal havailable with ⟨hfew, -⟩ | ⟨-, key, hcombine, hopen⟩
    · omega
    rcases hall _ _ _ _ hseal havailable with hkey | ⟨e, herror⟩
    · obtain rfl := Except.ok.inj (hopen.symm.trans hkey)
      exact hcombine
    · exact absurd (hopen.symm.trans herror) nofun
  · intro hcond contentKey fill shares available hseal havailable
    rcases open_released hopens hseal havailable with ⟨-, hopen⟩ | ⟨hmany, key, hcombine, hopen⟩
    · exact .inr ⟨_, hopen⟩
    have hreconstructs := hcond.resolve_left (Nat.not_lt.mpr hmany)
    have hsame := (forall_combine_iff ht 32 (by decide) (by rwa [hlen]) hpoints).mpr hreconstructs
      contentKey.toList fill contentKey.toList_length
    have hkey : key = contentKey := Subtype.ext (Except.ok.inj (hcombine.symm.trans hsame))
    exact .inl (hkey ▸ hopen)

/-! ## A sealing for two custodians -/

section Known

open KnownAnswers

/-- The public keys: one device keeps both shares. -/
def knownCustodians : List (Bytes 32) := [recipientPublic, recipientPublic]

/-- The custodian of the first share. -/
def knownFirst : Fin knownCustodians.length := ⟨0, by decide⟩

/-- The custodian of the second share. -/
def knownSecond : Fin knownCustodians.length := ⟨1, by decide⟩

/-- The drawn ephemeral secrets and nonces. -/
def knownWraps (i : Nat) : Bytes 32 × Bytes 24 := (ephemeral, be 24 i)

/-- The coefficient drawn for each byte. -/
def knownFill (_ : Nat) : Bytes ((2 : UInt8).toNat - 1) := ⟨[0x53], rfl⟩

theorem known_opens :
    Place.Opens sending knownCustodians (fun _ => recipient.ecdh) knownWraps := by
  intro i y
  have hcustodian : knownCustodians.get i = recipientPublic := by
    revert i
    decide
  have hseal : sending.x25519 ephemeral recipientPublic = shared := by decide +kernel
  have hopen : sending.x25519 recipient.ecdh (sending.x25519Public ephemeral) = shared := by
    decide +kernel
  have hshared : shared.toList.all (· = 0) = false := by decide +kernel
  obtain ⟨wrapKey, hderive⟩ := exists_deriveKey32 shared.toList defaultSalt infoSealKey
  obtain ⟨ciphertext, hencrypt⟩ := exists_sending wrapKey (be 24 i) sealAad y.toList
  have hdecrypt := sending_opens hencrypt
  refine ⟨⟨sending.x25519Public ephemeral, be 24 i, ciphertext⟩, ?_, ?_⟩
  · simp only [SealedKey.seal, hcustodian, knownWraps, hseal, bind_ok_iff, pure_ok_iff]
    refine ⟨wrapKey, hderive, ciphertext, ?_, rfl⟩
    rw [aeadSeal, hencrypt]
  · simp only [SealedKey.open, hopen, hshared]
    refine bind_ok_iff.mpr ⟨wrapKey, hderive, bind_ok_iff.mpr ⟨y.toList, ?_, ?_⟩⟩
    · rw [aeadOpen, hdecrypt]
    · rw [contentKeyOf, tryBytes_eq_some_iff.mpr rfl]

theorem known_seals :
    ∃ shares, Place.seal sending contentKey knownCustodians 2 knownFill knownWraps = .ok shares := by
  have haccepts : Place.Accepts knownCustodians 2 := ⟨by decide, by decide, by decide⟩
  exact exists_seal_ok contentKey knownFill haccepts fun i hi y =>
    (known_opens ⟨i, hi⟩ y).imp fun _ h => h.1

/-- The two shares, the second first, give back the key. -/
theorem known_shares_reconstruct : ∃ shares available,
    Place.seal sending contentKey knownCustodians 2 knownFill knownWraps = .ok shares ∧
    Place.Released (fun _ => recipient.ecdh) shares [knownSecond, knownFirst] available ∧
    Place.open sending available 2 = .ok contentKey := by
  obtain ⟨shares, hseal⟩ := known_seals
  obtain ⟨available, havailable⟩ :=
    exists_released (fun _ => recipient.ecdh) hseal [knownSecond, knownFirst]
  refine ⟨shares, available, hseal, havailable, ?_⟩
  have hkey := (released_open_iff known_opens ⟨contentKey, knownFill, shares, hseal⟩
    [knownSecond, knownFirst]).mpr
    (.inr (reconstructs_of_nodup (by decide) (by decide) (by decide)))
    contentKey knownFill shares available hseal havailable
  rcases open_released known_opens hseal havailable with ⟨hfew, -⟩ | ⟨-, key, -, hopen⟩
  · exact absurd hfew (by decide)
  · exact hkey.resolve_right fun ⟨e, herror⟩ => absurd (hopen.symm.trans herror) nofun

/-- The first share twice passes the threshold of two and opens to a key of zeros. -/
theorem known_share_repeated : ∃ shares available,
    Place.Opens sending knownCustodians (fun _ => recipient.ecdh) knownWraps ∧
    Place.seal sending contentKey knownCustodians 2 knownFill knownWraps = .ok shares ∧
    Place.Released (fun _ => recipient.ecdh) shares [knownFirst, knownFirst] available ∧
    Place.open sending available 2 = .ok (List.Vector.replicate 32 0) ∧
    contentKey ≠ List.Vector.replicate 32 0 := by
  obtain ⟨shares, hseal⟩ := known_seals
  obtain ⟨available, havailable⟩ :=
    exists_released (fun _ => recipient.ecdh) hseal [knownFirst, knownFirst]
  have hzero : combine ((Place.points [knownFirst, knownFirst]).map
      (shareAt contentKey.toList knownFill)) = .ok (List.replicate 32 0) := by
    decide +kernel
  refine ⟨shares, available, known_opens, hseal, havailable, ?_, by decide +kernel⟩
  rcases open_released known_opens hseal havailable with ⟨hfew, -⟩ | ⟨-, key, hcombine, hopen⟩
  · exact absurd hfew (by decide)
  · have hkey : key = List.Vector.replicate 32 0 :=
      Subtype.ext (Except.ok.inj (hcombine.symm.trans hzero))
    rw [← hkey]
    exact hopen

end Known

end Keepstone.Core
