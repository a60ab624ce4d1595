import Mathlib.Data.List.Infix

/-!
# The first occurrence in a list that grows

A reader that looks for a terminator in what has arrived so far looks again each time more arrives.
It finds the first occurrence in the whole, as soon as that has arrived and not before.

Results:
* `find_eq_some_iff`: what is found;
* `find_eq_some_iff_of_isPrefix`: what is found in a first part of a list.
-/

namespace Keepstone.Lib

variable {α : Type}

/-- `slice::windows`. -/
def windows (n : Nat) (l : List α) : List (List α) :=
  (List.range (l.length + 1 - n)).map fun i => (l.drop i).take n

/-- The position of the first window that is `needle`. -/
def find [DecidableEq α] (haystack needle : List α) : Option Nat :=
  (windows needle.length haystack).findIdx? (· = needle)

variable {haystack needle : List α}

theorem prefix_drop_iff (i : Nat) :
    needle <+: haystack.drop i ↔ (haystack.drop i).take needle.length = needle := by
  rw [List.prefix_iff_eq_take, eq_comm]

/-- An occurrence lies within the list. -/
theorem add_length_le_of_prefix (hne : needle ≠ []) {i : Nat} (h : needle <+: haystack.drop i) :
    i + needle.length ≤ haystack.length := by
  have hpos := List.length_pos_iff.mpr hne
  have hle := h.length_le
  rw [List.length_drop] at hle
  omega

variable [DecidableEq α]

/-- **What is found** is the first occurrence. -/
theorem find_eq_some_iff (hne : needle ≠ []) {i : Nat} :
    find haystack needle = some i ↔
      needle <+: haystack.drop i ∧ ∀ j < i, ¬ needle <+: haystack.drop j := by
  simp only [find, List.findIdx?_eq_some_iff_getElem, windows, List.getElem_map, List.getElem_range,
    decide_eq_true_eq, List.length_map, List.length_range, prefix_drop_iff]
  constructor
  · rintro ⟨-, hi, hbefore⟩
    exact ⟨hi, hbefore⟩
  · rintro ⟨hi, hbefore⟩
    have hin := add_length_le_of_prefix hne ((prefix_drop_iff i).mpr hi)
    exact ⟨by omega, hi, hbefore⟩

/-- **What is found in a first part of a list**: what is found in the list, if that lies within the
part. -/
theorem find_eq_some_iff_of_isPrefix (hne : needle ≠ []) {part : List α} (hpart : part <+: haystack)
    {i : Nat} :
    find part needle = some i ↔
      find haystack needle = some i ∧ i + needle.length ≤ part.length := by
  obtain ⟨rest, rfl⟩ := hpart
  have hgrow (j : Nat) (hj : j ≤ part.length) : (part ++ rest).drop j = part.drop j ++ rest :=
    List.drop_append_of_le_length hj
  rw [find_eq_some_iff hne, find_eq_some_iff hne]
  constructor
  · rintro ⟨hi, hbefore⟩
    have hin := add_length_le_of_prefix hne hi
    refine ⟨⟨?_, fun j hj hoccurs => hbefore j hj ?_⟩, hin⟩
    · rw [hgrow i (by omega)]
      exact hi.trans (List.prefix_append _ _)
    · rw [hgrow j (by omega)] at hoccurs
      refine List.prefix_of_prefix_length_le hoccurs (List.prefix_append _ _) ?_
      rw [List.length_drop]
      omega
  · rintro ⟨⟨hi, hbefore⟩, hin⟩
    refine ⟨?_, fun j hj hoccurs => hbefore j hj ?_⟩
    · rw [hgrow i (by omega)] at hi
      refine List.prefix_of_prefix_length_le hi (List.prefix_append _ _) ?_
      rw [List.length_drop]
      omega
    · rw [hgrow j (by omega)]
      exact hoccurs.trans (List.prefix_append _ _)

theorem find_eq_none_of_isPrefix (hne : needle ≠ []) {part : List α} (hpart : part <+: haystack)
    (h : ∀ i, find haystack needle = some i → part.length < i + needle.length) :
    find part needle = none := by
  cases hfound : find part needle with
  | none => rfl
  | some i =>
    obtain ⟨hfind, hin⟩ := (find_eq_some_iff_of_isPrefix hne hpart).mp hfound
    exact absurd (h i hfind) (by omega)

end Keepstone.Lib
