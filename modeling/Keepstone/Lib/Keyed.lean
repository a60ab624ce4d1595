import Mathlib.Data.List.Basic
import Mathlib.Data.List.Induction

/-!
# Items under their keys

A store that puts each item under a key of its own holds, under a key, the last item it was given
with that key. Where no two of the items have the same key, that depends on which items there were,
and not on their order or on how often each came.

Results:
* `lastWith_append`: what is held after more items;
* **`lastWith_congr`**: stores that were given the same items hold the same;
* `get_foldl`: a fold in which each item sets a value or leaves it ends with the last that is set;
* **`findSome?_reverse_perm_iff`**: when that is one value, in whatever order the items come.
-/

namespace Keepstone.Lib

variable {α κ : Type} [DecidableEq κ] (key : α → κ) (k : κ)

/-- The last item with the key `k`. -/
def lastWith : List α → Option α
  | [] => none
  | item :: items => (lastWith items).or (if key item = k then some item else none)

/-- Two different items have the same key. -/
def Clash (items : List α) : Prop := ∃ x ∈ items, ∃ y ∈ items, x ≠ y ∧ key x = key y

variable {key k}

theorem lastWith_append (first second : List α) :
    lastWith key k (first ++ second) = (lastWith key k second).or (lastWith key k first) := by
  induction first with
  | nil => simp [lastWith]
  | cons item first ih => simp [lastWith, ih, Option.or_assoc]

theorem lastWith_eq_some {items : List α} {item : α} (h : lastWith key k items = some item) :
    item ∈ items ∧ key item = k := by
  induction items with
  | nil => exact absurd h nofun
  | cons first items ih =>
    rcases Option.or_eq_some_iff.mp h with hlater | ⟨-, hfirst⟩
    · obtain ⟨hmem, hkey⟩ := ih hlater
      exact ⟨List.mem_cons_of_mem _ hmem, hkey⟩
    · split_ifs at hfirst with hkey
      obtain rfl := Option.some.inj hfirst
      exact ⟨List.mem_cons_self, hkey⟩

theorem exists_lastWith {items : List α} {item : α} (hmem : item ∈ items) (hkey : key item = k) :
    ∃ last, lastWith key k items = some last := by
  induction items with
  | nil => exact absurd hmem List.not_mem_nil
  | cons first items ih =>
    rw [lastWith]
    cases hlater : lastWith key k items with
    | some last => exact ⟨last, rfl⟩
    | none =>
      rcases List.mem_cons.mp hmem with rfl | hmem
      · exact ⟨item, by rw [if_pos hkey]; rfl⟩
      · obtain ⟨last, hlast⟩ := ih hmem
        exact absurd (hlater.symm.trans hlast) nofun

/-- Without a clash, an item that was given is held. -/
theorem lastWith_of_mem {items : List α} (hclash : ¬ Clash key items) {item : α}
    (hmem : item ∈ items) (hkey : key item = k) : lastWith key k items = some item := by
  obtain ⟨last, hlast⟩ := exists_lastWith hmem hkey
  obtain ⟨hlastMem, hlastKey⟩ := lastWith_eq_some hlast
  by_contra hne
  refine hclash ⟨last, hlastMem, item, hmem, ?_, hlastKey.trans hkey.symm⟩
  rintro rfl
  exact hne hlast

/-- **The order does not matter**, nor how often an item came. -/
theorem lastWith_congr {items others : List α} (h : ∀ item, item ∈ items ↔ item ∈ others)
    (hclash : ¬ Clash key items) : lastWith key k items = lastWith key k others := by
  have hclash' : ¬ Clash key others := by
    rintro ⟨x, hx, y, hy, hdistinct⟩
    exact hclash ⟨x, (h x).mpr hx, y, (h y).mpr hy, hdistinct⟩
  cases hlast : lastWith key k items with
  | some item =>
    obtain ⟨hmem, hkey⟩ := lastWith_eq_some hlast
    exact (lastWith_of_mem hclash' ((h item).mp hmem) hkey).symm
  | none =>
    cases hother : lastWith key k others with
    | none => rfl
    | some item =>
      obtain ⟨hmem, hkey⟩ := lastWith_eq_some hother
      obtain ⟨last, hfound⟩ := exists_lastWith ((h item).mpr hmem) hkey
      exact absurd (hlast.symm.trans hfound) nofun

/-! ## Values that items set -/

section Setting

variable {σ β : Type} {value : α → Option β} {items : List α} {b : β}

/-- The value at the end is the last that an item sets, or the one at the start. -/
theorem get_foldl (get : σ → Option β) {f : σ → α → σ}
    (hturn : ∀ s item, get (f s item) = (value item).or (get s)) (items : List α) (s : σ) :
    get (items.foldl f s) = (items.reverse.findSome? value).or (get s) := by
  induction items using List.reverseRecOn with
  | nil => rfl
  | append_singleton items last ih =>
    rw [List.foldl_concat, hturn, ih, List.reverse_concat, List.findSome?_cons]
    cases value last <;> rfl

/-- What no item changes stays. -/
theorem get_foldl_of_eq {γ : Type} (get : σ → γ) {f : σ → α → σ}
    (hturn : ∀ s item, get (f s item) = get s) (items : List α) (s : σ) :
    get (items.foldl f s) = get s := by
  induction items generalizing s with
  | nil => rfl
  | cons item items ih => rw [List.foldl_cons, ih, hturn]

/-- Items in groups: the last group in which one sets a value, and in it the last. -/
theorem findSome?_reverse_flatMap {γ : Type} (groups : List γ) (items : γ → List α) :
    (groups.flatMap items).reverse.findSome? value =
      groups.reverse.findSome? fun group => (items group).reverse.findSome? value := by
  induction groups using List.reverseRecOn with
  | nil => rfl
  | append_singleton groups last ih =>
    rw [List.flatMap_append, List.reverse_append, List.findSome?_append, ih, List.reverse_concat,
      List.findSome?_cons, List.flatMap_singleton]
    cases (items last).reverse.findSome? value <;> rfl

/-- Where an item sets a value, and none sets another, it is the last. -/
theorem findSome?_reverse_of_forall {item : α} (hmem : item ∈ items) (hitem : value item = some b)
    (hall : ∀ other ∈ items, ∀ c, value other = some c → c = b) :
    items.reverse.findSome? value = some b := by
  cases hfound : items.reverse.findSome? value with
  | none =>
    have hnone := List.findSome?_eq_none_iff.mp hfound item (List.mem_reverse.mpr hmem)
    exact absurd (hnone.symm.trans hitem) (Option.some_ne_none b).symm
  | some c =>
    obtain ⟨other, hother, hset⟩ := List.exists_of_findSome?_eq_some hfound
    rw [hall other (List.mem_reverse.mp hother) c hset]

/-- An item that comes last, and sets a value, has set the one at the end. -/
theorem findSome?_reverse_concat {last : α} {c : β} (hlast : value last = some c) :
    (items ++ [last]).reverse.findSome? value = some c := by
  rw [List.reverse_concat, List.findSome?_cons, hlast]

/-- **In every order the last value is the one that an item sets, exactly when none sets
another.** -/
theorem findSome?_reverse_perm_iff {item : α} (hmem : item ∈ items) (hitem : value item = some b) :
    (∀ order, items.Perm order → order.reverse.findSome? value = some b) ↔
      ∀ other ∈ items, ∀ c, value other = some c → c = b := by
  constructor
  · intro horder other hother c hset
    obtain ⟨before, after, rfl⟩ := List.append_of_mem hother
    have hperm : (before ++ other :: after).Perm (before ++ after ++ [other]) :=
      List.perm_middle.trans (List.perm_append_singleton other (before ++ after)).symm
    have hlast := horder _ hperm
    rw [findSome?_reverse_concat hset] at hlast
    exact Option.some.inj hlast
  · intro hall order hperm
    exact findSome?_reverse_of_forall (hperm.mem_iff.mp hmem) hitem fun other hother =>
      hall other (hperm.mem_iff.mpr hother)

end Setting

end Keepstone.Lib
