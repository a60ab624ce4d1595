import Keepstone.Lib.Chain
import Keepstone.Lib.Sha256
import Keepstone.Log.Merkle

/-!
# Anchoring tree heads in a hash chain (`crates/log/src/anchor.rs`)

A receipt records a tree head under a link that hashes the head, the time and the previous link.
The trait `Anchor` has one implementation, `HashChainAnchor`, which is what is modelled. Receipts
carry no position: what says that a chain has no more links before its first is that the first
names `GENESIS`, which no link is expected to be.

Results:
* `verifyReceipts_iff`: what is verified is a chain from `GENESIS`;
* **`verifyReceipts_commits`**: the last link commits to the whole list of receipts;
* `verify_fromLinks_iff`: which receipts an anchor rebuilt from its links accepts.
-/

namespace Keepstone.Log

open Keepstone.Lib

/-- `ANCHOR_CONTEXT`. -/
def anchorContext : List UInt8 := utf8 "keepstone/v1/anchor"

/-- `GENESIS`. -/
def genesis : Hash := List.Vector.replicate 32 0

/-- `AnchorReceipt`. -/
structure AnchorReceipt where
  /-- Backend name. -/
  anchor : String
  /-- Number of leaves at anchoring time. -/
  treeSize : UInt64
  /-- Merkle root that was anchored. -/
  root : Hash
  /-- Unix seconds at anchoring time. -/
  anchoredAt : UInt64
  /-- The previous link in the chain. -/
  previous : Hash
  /-- This link. -/
  link : Hash
  deriving DecidableEq

/-- A receipt is its backend, the arguments of its link, and its link. -/
theorem AnchorReceipt.eq_of_args {r s : AnchorReceipt} (hanchor : r.anchor = s.anchor)
    (hargs : (r.previous, r.treeSize, r.root, r.anchoredAt) =
      (s.previous, s.treeSize, s.root, s.anchoredAt)) (hlink : r.link = s.link) : r = s := by
  cases r
  cases s
  simp_all

section Links

variable (sha256 : List UInt8 → Hash)

/-- `link_hash`. -/
def linkHash (previous : Hash) (treeSize : UInt64) (root : Hash) (now : UInt64) : Hash :=
  sha256 (anchorContext ++ previous.toList ++ beBytes 8 treeSize.toNat ++ root.toList ++
    beBytes 8 now.toNat)

/-- `verify_link`. -/
def verifyLink (receipt : AnchorReceipt) : Bool :=
  linkHash sha256 receipt.previous receipt.treeSize receipt.root receipt.anchoredAt = receipt.link

/-- The loop of `verify_receipts`. -/
def verifyFrom : Hash → List AnchorReceipt → Bool
  | _, [] => true
  | previous, receipt :: rest =>
    if receipt.previous ≠ previous || !verifyLink sha256 receipt then false
    else verifyFrom receipt.link rest

/-- `verify_receipts`. -/
def verifyReceipts (receipts : List AnchorReceipt) : Bool := verifyFrom sha256 genesis receipts

/-- `HashChainAnchor`. -/
structure HashChainAnchor where
  /-- The links. -/
  links : List Hash
  /-- The last of them. -/
  latest : Hash

namespace HashChainAnchor

/-- `HashChainAnchor::from_links`. -/
def fromLinks (links : List Hash) : HashChainAnchor := ⟨links, links.getLast?.getD genesis⟩

/-- `Anchor::name`. -/
def name : String := "local-hashchain"

/-- `Anchor::submit`: the receipt, and the anchor afterwards. -/
def submit (anchor : HashChainAnchor) (treeSize : UInt64) (root : Hash) (now : UInt64) :
    AnchorReceipt × HashChainAnchor :=
  let previous := anchor.latest
  let link := linkHash sha256 previous treeSize root now
  (⟨name, treeSize, root, now, previous, link⟩, ⟨anchor.links ++ [link], link⟩)

/-- `Anchor::verify`. -/
def verify (anchor : HashChainAnchor) (receipt : AnchorReceipt) : Bool :=
  receipt.anchor = name && verifyLink sha256 receipt && receipt.link ∈ anchor.links

end HashChainAnchor

/-- Two receipts exhibit a collision of `link_hash`: the arguments differ and the link is one. -/
def LinkCollision (r s : AnchorReceipt) : Prop :=
  (r.previous, r.treeSize, r.root, r.anchoredAt) ≠
      (s.previous, s.treeSize, s.root, s.anchoredAt) ∧
    linkHash sha256 r.previous r.treeSize r.root r.anchoredAt = r.link ∧
    linkHash sha256 s.previous s.treeSize s.root s.anchoredAt = s.link ∧ r.link = s.link

end Links

variable {sha256 : List UInt8 → Hash}

/-! ## Receipts as records of a chain -/

/-- A receipt without the name of its backend. -/
def AnchorReceipt.linked (r : AnchorReceipt) : Linked Hash (UInt64 × Hash × UInt64) :=
  ⟨r.previous, (r.treeSize, r.root, r.anchoredAt), r.link⟩

variable (sha256) in
/-- `link_hash` of the previous link and a content. -/
def nextLink (previous : Hash) (content : UInt64 × Hash × UInt64) : Hash :=
  linkHash sha256 previous content.1 content.2.1 content.2.2

theorem verifyFrom_iff {start : Hash} {receipts : List AnchorReceipt} :
    verifyFrom sha256 start receipts = true ↔
      Chained (nextLink sha256) start (receipts.map AnchorReceipt.linked) := by
  induction receipts generalizing start with
  | nil => exact iff_of_true rfl trivial
  | cons receipt rest ih =>
    rw [verifyFrom, List.map_cons, Chained, ← ih]
    by_cases hprevious : receipt.previous = start
    · by_cases hlink : verifyLink sha256 receipt = true
      · rw [if_neg (by simp [hprevious, hlink])]
        exact ⟨fun h => ⟨hprevious, of_decide_eq_true hlink, h⟩, fun h => h.2.2⟩
      · rw [if_pos (by simp [hlink])]
        exact iff_of_false Bool.false_ne_true fun h => hlink (decide_eq_true h.2.1)
    · rw [if_pos (by simp [hprevious])]
      exact iff_of_false Bool.false_ne_true fun h => hprevious h.1

/-- **What `verify_receipts` accepts**: a chain from `GENESIS`. -/
theorem verifyReceipts_iff {receipts : List AnchorReceipt} :
    verifyReceipts sha256 receipts = true ↔
      Chained (nextLink sha256) genesis (receipts.map AnchorReceipt.linked) := verifyFrom_iff

theorem linkHash_of_chained {start : Hash} {receipts : List AnchorReceipt}
    (h : Chained (nextLink sha256) start (receipts.map AnchorReceipt.linked)) {r : AnchorReceipt}
    (hr : r ∈ receipts) :
    linkHash sha256 r.previous r.treeSize r.root r.anchoredAt = r.link := by
  have hlink := h.link_eq (r := r.linked) (List.mem_map_of_mem hr)
  exact hlink

theorem endLink_map_linked (start : Hash) {receipts : List AnchorReceipt} (h : receipts ≠ []) :
    endLink start (receipts.map AnchorReceipt.linked) = (receipts.getLast h).link := by
  unfold endLink
  rw [List.getLast?_map, List.getLast?_eq_some_getLast h]
  rfl

/-! ## The anchor -/

/-- A submitted receipt goes on from the last link. -/
theorem submit_chained {receipts : List AnchorReceipt} (h : verifyReceipts sha256 receipts = true)
    (treeSize : UInt64) (root : Hash) (now : UInt64) :
    let chain := HashChainAnchor.fromLinks (receipts.map (·.link))
    let receipt := (chain.submit sha256 treeSize root now).1
    verifyReceipts sha256 (receipts ++ [receipt]) = true ∧
      (chain.submit sha256 treeSize root now).2 =
        .fromLinks ((receipts ++ [receipt]).map (·.link)) := by
  intro chain receipt
  constructor
  · rw [verifyReceipts_iff, List.map_append, List.map_singleton, chained_concat]
    refine ⟨verifyReceipts_iff.mp h, ?_, rfl⟩
    show (receipts.map (·.link)).getLast?.getD genesis = _
    unfold endLink
    rw [List.getLast?_map, List.getLast?_map, Option.map_map]
    rfl
  · have hlinks : (receipts ++ [receipt]).map (·.link) =
        receipts.map (·.link) ++ [receipt.link] := by
      rw [List.map_append, List.map_singleton]
    rw [hlinks]
    unfold HashChainAnchor.fromLinks
    rw [List.getLast?_concat]
    rfl

/-- **Which receipts a rebuilt anchor accepts**: those with its name, a right link, and the link
of one it was built from. -/
theorem verify_fromLinks_iff {receipts : List AnchorReceipt} {r : AnchorReceipt} :
    (HashChainAnchor.fromLinks (receipts.map (·.link))).verify sha256 r = true ↔
      r.anchor = HashChainAnchor.name ∧ verifyLink sha256 r = true ∧
        ∃ s ∈ receipts, s.link = r.link := by
  simp only [HashChainAnchor.verify, HashChainAnchor.fromLinks, Bool.and_eq_true, decide_eq_true_eq,
    List.mem_map, and_assoc]

/-- Receipts of the anchor's own name are accepted, and what else is accepted collides with one of
them. -/
theorem verify_fromLinks_of_chained {receipts : List AnchorReceipt}
    (h : verifyReceipts sha256 receipts = true)
    (hname : ∀ r ∈ receipts, r.anchor = HashChainAnchor.name) :
    (∀ r ∈ receipts,
      (HashChainAnchor.fromLinks (receipts.map (·.link))).verify sha256 r = true) ∧
    ∀ r, (HashChainAnchor.fromLinks (receipts.map (·.link))).verify sha256 r = true →
      r ∈ receipts ∨ ∃ s ∈ receipts, LinkCollision sha256 r s := by
  have hlinks : ∀ r ∈ receipts, verifyLink sha256 r = true := by
    intro r hr
    exact decide_eq_true (linkHash_of_chained (verifyReceipts_iff.mp h) hr)
  refine ⟨fun r hr => verify_fromLinks_iff.mpr ⟨hname r hr, hlinks r hr, r, hr, rfl⟩, ?_⟩
  intro r haccepted
  obtain ⟨hanchor, hlink, s, hs, hsame⟩ := verify_fromLinks_iff.mp haccepted
  by_cases hargs : (r.previous, r.treeSize, r.root, r.anchoredAt) =
      (s.previous, s.treeSize, s.root, s.anchoredAt)
  · left
    rwa [AnchorReceipt.eq_of_args (hanchor.trans (hname s hs).symm) hargs hsame.symm]
  · exact Or.inr ⟨s, hs, hargs, of_decide_eq_true hlink, of_decide_eq_true (hlinks s hs),
      hsame.symm⟩

/-! ## What the last link says -/

/-- Receipts of a chain whose records clash have colliding links. -/
theorem linkCollision_of_clashes {start : Hash} {xs ys : List AnchorReceipt}
    (hxs : Chained (nextLink sha256) start (xs.map AnchorReceipt.linked))
    (hys : Chained (nextLink sha256) start (ys.map AnchorReceipt.linked)) {r s : AnchorReceipt}
    (hr : r ∈ xs) (hs : s ∈ ys) (h : r.linked.Clashes s.linked) : LinkCollision sha256 r s :=
  ⟨h.1, linkHash_of_chained hxs hr, linkHash_of_chained hys hs, h.2⟩

/-- **The last link commits to the whole list of receipts**: two verified lists with one last link
are the same receipt by receipt, or two of the receipts exhibit a collision, or a link is
`GENESIS`. -/
theorem verifyReceipts_commits (sha256 : List UInt8 → Hash) (xs ys : List AnchorReceipt)
    (hxs : xs ≠ []) (hys : ys ≠ []) (hverifyX : verifyReceipts sha256 xs = true)
    (hverifyY : verifyReceipts sha256 ys = true)
    (hlast : (xs.getLast hxs).link = (ys.getLast hys).link) :
    (xs.length = ys.length ∧ List.Forall₂ (fun r s => r.treeSize = s.treeSize ∧ r.root = s.root ∧
      r.anchoredAt = s.anchoredAt ∧ r.previous = s.previous ∧ r.link = s.link) xs ys) ∨
    (∃ r ∈ xs, ∃ s ∈ ys, LinkCollision sha256 r s) ∨ ∃ r ∈ xs ++ ys, r.link = genesis := by
  have hchainX := verifyReceipts_iff.mp hverifyX
  have hchainY := verifyReceipts_iff.mp hverifyY
  have hend : endLink genesis (xs.map AnchorReceipt.linked) =
      endLink genesis (ys.map AnchorReceipt.linked) := by
    rw [endLink_map_linked genesis hxs, endLink_map_linked genesis hys, hlast]
  rcases hchainX.commits hchainY hend with hsame | ⟨_, hmemX, _, hmemY, hclash⟩ | ⟨_, hmem, hgenesis⟩
  · left
    refine ⟨?_, ?_⟩
    · rw [← List.length_map AnchorReceipt.linked, hsame, List.length_map]
    · rw [← List.forall₂_eq_eq_eq, List.forall₂_map_left_iff, List.forall₂_map_right_iff] at hsame
      refine hsame.imp fun r s h => ?_
      obtain ⟨hprevious, hcontent, hlink⟩ := Linked.mk.inj h
      obtain ⟨hsize, hrest⟩ := Prod.mk.inj hcontent
      obtain ⟨hroot, hat⟩ := Prod.mk.inj hrest
      exact ⟨hsize, hroot, hat, hprevious, hlink⟩
  · obtain ⟨r, hr, rfl⟩ := List.mem_map.mp hmemX
    obtain ⟨s, hs, rfl⟩ := List.mem_map.mp hmemY
    exact Or.inr (Or.inl ⟨r, hr, s, hs, linkCollision_of_clashes hchainX hchainY hr hs hclash⟩)
  · rw [← List.map_append] at hmem
    obtain ⟨r, hr, rfl⟩ := List.mem_map.mp hmem
    exact Or.inr (Or.inr ⟨r, hr, hgenesis⟩)

variable (sha256) in
/-- The receipts of two tree heads, submitted one after the other. -/
def twoReceipts : List AnchorReceipt :=
  let first := ((HashChainAnchor.fromLinks []).submit sha256 1 (List.Vector.replicate 32 1) 100).1
  let second := ((HashChainAnchor.fromLinks [first.link]).submit sha256 2
    (List.Vector.replicate 32 2) 200).1
  [first, second]

theorem verifyReceipts_twoReceipts : verifyReceipts sha256 (twoReceipts sha256) = true :=
  (submit_chained (@submit_chained sha256 [] rfl 1 _ 100).1 2 _ 200).1

/-- `verify_receipts` does not look at the name of the backend. -/
theorem map_linked_rename (receipts : List AnchorReceipt) (anchor : String) :
    (receipts.map fun r => { r with anchor }).map AnchorReceipt.linked =
      receipts.map AnchorReceipt.linked := List.map_map

/-- Two receipts, and the same two under another name of the backend. -/
theorem twoReceipts_commit :
    let xs := twoReceipts Sha256.digest
    let ys := xs.map fun r => { r with anchor := "another" }
    (xs.length = ys.length ∧ List.Forall₂ (fun r s => r.treeSize = s.treeSize ∧ r.root = s.root ∧
      r.anchoredAt = s.anchoredAt ∧ r.previous = s.previous ∧ r.link = s.link) xs ys) ∨
    (∃ r ∈ xs, ∃ s ∈ ys, LinkCollision Sha256.digest r s) ∨ ∃ r ∈ xs ++ ys, r.link = genesis := by
  intro xs ys
  have hxs : xs ≠ [] := List.cons_ne_nil _ _
  have hys : ys ≠ [] := fun h => hxs (List.map_eq_nil_iff.mp h)
  have hverify : verifyReceipts Sha256.digest xs = true := verifyReceipts_twoReceipts
  have hlinked : ys.map AnchorReceipt.linked = xs.map AnchorReceipt.linked :=
    map_linked_rename xs "another"
  have hverify' : verifyReceipts Sha256.digest ys = true := by
    rw [verifyReceipts_iff, hlinked]
    exact verifyReceipts_iff.mp hverify
  refine verifyReceipts_commits Sha256.digest xs ys hxs hys hverify hverify' ?_
  rw [← endLink_map_linked genesis hxs, ← endLink_map_linked genesis hys, hlinked]

end Keepstone.Log
