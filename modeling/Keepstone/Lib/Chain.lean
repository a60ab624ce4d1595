import Mathlib.Data.List.Induction

/-!
# Chains of links

A record carries a link to its predecessor, a content, and its own link, which is a function of
both. A list of records is chained from a starting link when each names the link before it and its
own link is the right one. A record says nothing about its position: only the starting link ends
the way back.

Results:
* `chained_concat`: what it takes to add a record at the end;
* **`Chained.commits`**: the link at the end determines the whole list, up to two records of which
  the links clash, or one whose link is the starting link again.
-/

namespace Keepstone.Lib

variable {H α : Type}

/-- A record of a chain. -/
structure Linked (H α : Type) where
  /-- The link before this one. -/
  previous : H
  /-- What is recorded. -/
  content : α
  /-- This link. -/
  link : H

/-- Each record names the link before it, and its own is computed from that and its content. -/
def Chained (next : H → α → H) : H → List (Linked H α) → Prop
  | _, [] => True
  | start, r :: rs =>
    r.previous = start ∧ next r.previous r.content = r.link ∧ Chained next r.link rs

/-- The link at the end of a list that starts from `start`. -/
def endLink (start : H) (rs : List (Linked H α)) : H := (rs.getLast?.map (·.link)).getD start

/-- Two records with one link and something different under it. -/
def Linked.Clashes (r s : Linked H α) : Prop :=
  (r.previous, r.content) ≠ (s.previous, s.content) ∧ r.link = s.link

variable {next : H → α → H}

@[simp] theorem endLink_nil (start : H) : endLink (α := α) start [] = start := rfl

@[simp] theorem endLink_concat (start : H) (rs : List (Linked H α)) (r : Linked H α) :
    endLink start (rs ++ [r]) = r.link := by
  unfold endLink
  rw [List.getLast?_concat, Option.map_some, Option.getD_some]

theorem endLink_cons (start : H) (r : Linked H α) (rs : List (Linked H α)) :
    endLink start (r :: rs) = endLink r.link rs := by
  cases rs using List.reverseRecOn with
  | nil => rfl
  | append_singleton rs s => rw [← List.cons_append, endLink_concat, endLink_concat]

/-- A record added at the end. -/
theorem chained_concat {start : H} {rs : List (Linked H α)} {r : Linked H α} :
    Chained next start (rs ++ [r]) ↔
      Chained next start rs ∧ r.previous = endLink start rs ∧
        next r.previous r.content = r.link := by
  induction rs generalizing start with
  | nil => simp [Chained]
  | cons s rs ih =>
    rw [List.cons_append, Chained, Chained, ih, endLink_cons]
    constructor
    · rintro ⟨hprevious, hlink, hrest, hlast⟩
      exact ⟨⟨hprevious, hlink, hrest⟩, hlast⟩
    · rintro ⟨⟨hprevious, hlink, hrest⟩, hlast⟩
      exact ⟨hprevious, hlink, hrest, hlast⟩

/-- The links of a chain are what their records hash to. -/
theorem Chained.link_eq {start : H} {rs : List (Linked H α)} (h : Chained next start rs)
    {r : Linked H α} (hr : r ∈ rs) : next r.previous r.content = r.link := by
  induction rs generalizing start with
  | nil => exact absurd hr List.not_mem_nil
  | cons s rs ih =>
    obtain ⟨-, hlink, hrest⟩ := h
    rcases List.mem_cons.mp hr with rfl | hr
    · exact hlink
    · exact ih hrest hr

/-- **The link at the end commits to the whole chain.** -/
theorem Chained.commits {start : H} {xs ys : List (Linked H α)} (hxs : Chained next start xs)
    (hys : Chained next start ys) (hend : endLink start xs = endLink start ys) :
    xs = ys ∨ (∃ r ∈ xs, ∃ s ∈ ys, r.Clashes s) ∨ ∃ r ∈ xs ++ ys, r.link = start := by
  -- both chains are walked back from their ends; the shorter one ends at the starting link
  induction xs using List.reverseRecOn generalizing ys with
  | nil =>
    cases ys using List.reverseRecOn with
    | nil => exact Or.inl rfl
    | append_singleton ys s =>
      rw [endLink_nil, endLink_concat] at hend
      exact Or.inr (Or.inr ⟨s, by simp, hend.symm⟩)
  | append_singleton xs r ih =>
    cases ys using List.reverseRecOn with
    | nil =>
      rw [endLink_nil, endLink_concat] at hend
      exact Or.inr (Or.inr ⟨r, by simp, hend⟩)
    | append_singleton ys s =>
      rw [endLink_concat, endLink_concat] at hend
      by_cases hsame : (r.previous, r.content) = (s.previous, s.content)
      · obtain ⟨hxs, hr, -⟩ := chained_concat.mp hxs
        obtain ⟨hys, hs, -⟩ := chained_concat.mp hys
        obtain ⟨hprevious, hcontent⟩ := Prod.mk.inj hsame
        have hrs : r = s := by
          cases r
          cases s
          simp_all
        rcases ih hxs hys (hr.symm.trans (hprevious.trans hs)) with rfl | hclash | hstart
        · exact Or.inl (by rw [hrs])
        · obtain ⟨r', hr', s', hs', hclashes⟩ := hclash
          exact Or.inr (Or.inl ⟨r', List.mem_append_left _ hr', s', List.mem_append_left _ hs',
            hclashes⟩)
        · obtain ⟨t, ht, hlink⟩ := hstart
          refine Or.inr (Or.inr ⟨t, ?_, hlink⟩)
          rcases List.mem_append.mp ht with ht | ht
          · exact List.mem_append_left _ (List.mem_append_left _ ht)
          · exact List.mem_append_right _ (List.mem_append_left _ ht)
      · exact Or.inr (Or.inl ⟨r, by simp, s, by simp, hsame, hend⟩)

end Keepstone.Lib
