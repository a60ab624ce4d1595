import Mathlib.Data.List.Basic

/-!
# Collisions among the arguments a computation used

Statements about hashed structures are of the form "the two inputs agree, or the computations
themselves exhibit a collision". `Collides f s t` is the second half: two *different* arguments,
one from each of the two lists of arguments the computations fed to `f`, with one image. It is
always about arguments that were used, never about the mere existence of a collision (which
every compressing function has).

Results:
* `eq_or_collides`: two used arguments with one image are equal or collide;
* `map_eq_or_collides`: the same for two lists of arguments;
* `Collides.mono`: a collision stays one when more arguments are recorded.
-/

namespace Keepstone.Lib

variable {α β : Type*}

/-- Two different arguments, one recorded in `s` and one in `t`, with one image under `f`. -/
def Collides (f : α → β) (s t : List α) : Prop :=
  ∃ a ∈ s, ∃ b ∈ t, a ≠ b ∧ f a = f b

theorem Collides.mono {f : α → β} {s s' t t' : List α} (hs : ∀ a ∈ s, a ∈ s')
    (ht : ∀ b ∈ t, b ∈ t') (h : Collides f s t) : Collides f s' t' := by
  obtain ⟨a, ha, b, hb, hne, heq⟩ := h
  exact ⟨a, hs a ha, b, ht b hb, hne, heq⟩

/-- Two recorded arguments with one image agree, or they collide. -/
theorem eq_or_collides {f : α → β} {s t : List α} {a b : α} (ha : a ∈ s) (hb : b ∈ t)
    (h : f a = f b) : a = b ∨ Collides f s t := by
  by_cases hab : a = b
  · exact Or.inl hab
  · exact Or.inr ⟨a, ha, b, hb, hab, h⟩

/-- Two lists with the same images are the same, or some of their entries collide. -/
theorem map_eq_or_collides {f : α → β} {a b : List α} (h : a.map f = b.map f) :
    a = b ∨ Collides f a b := by
  induction a generalizing b with
  | nil => exact Or.inl (List.map_eq_nil_iff.mp h.symm).symm
  | cons x a ih =>
    cases b with
    | nil => exact absurd h (List.cons_ne_nil _ _)
    | cons y b =>
      obtain ⟨hxy, hrest⟩ := List.cons.inj h
      rcases eq_or_collides List.mem_cons_self List.mem_cons_self hxy with rfl | hcol
      · rcases ih hrest with rfl | hcol
        · exact Or.inl rfl
        · exact Or.inr (hcol.mono (fun _ => List.mem_cons_of_mem _) fun _ => List.mem_cons_of_mem _)
      · exact Or.inr hcol

end Keepstone.Lib
