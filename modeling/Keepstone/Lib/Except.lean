import Mathlib.Data.List.Forall2

/-!
# Successful runs of fallible code

Inversion of `Except` computations: when a composed computation succeeds, each of its parts did.
-/

namespace Keepstone.Lib

variable {ε ε' α β : Type}

theorem bind_ok_iff {x : Except ε α} {f : α → Except ε β} {b : β} :
    (x >>= f) = .ok b ↔ ∃ a, x = .ok a ∧ f a = .ok b := by
  cases x with
  | error e =>
    constructor
    · intro h
      exact absurd h nofun
    · rintro ⟨a, h, -⟩
      exact absurd h nofun
  | ok a =>
    constructor
    · intro h
      exact ⟨a, rfl, h⟩
    · rintro ⟨a', h, hf⟩
      obtain rfl := Except.ok.inj h
      exact hf

theorem mapError_ok_iff {x : Except ε α} {f : ε → ε'} {a : α} :
    x.mapError f = .ok a ↔ x = .ok a := by
  cases x with
  | error e => exact iff_of_false nofun nofun
  | ok a' => exact ⟨fun h => congrArg Except.ok (Except.ok.inj h), fun h => congrArg _ h⟩

/-- Goes on if `p` holds: `if !p { return Err(e) }`. -/
def check (p : Bool) (e : ε) : Except ε Unit := if p then .ok () else .error e

theorem check_ok_iff {p : Bool} {e : ε} {u : Unit} : check p e = .ok u ↔ p = true := by
  cases p with
  | true => exact iff_of_true rfl rfl
  | false => exact iff_of_false nofun nofun

/-- `Option::ok_or`. -/
def okOr (x : Option α) (e : ε) : Except ε α :=
  match x with
  | some a => .ok a
  | none => .error e

theorem okOr_ok_iff {x : Option α} {e : ε} {a : α} : okOr x e = .ok a ↔ x = some a := by
  cases x with
  | none => exact iff_of_false nofun nofun
  | some a' =>
    constructor
    · intro h
      exact congrArg some (Except.ok.inj h)
    · intro h
      exact congrArg Except.ok (Option.some.inj h)

theorem pure_ok_iff {a b : α} : (pure a : Except ε α) = .ok b ↔ a = b :=
  ⟨Except.ok.inj, congrArg _⟩

theorem exists_error_iff {x : Except ε Unit} : (∃ e, x = .error e) ↔ x ≠ .ok () := by
  cases x with
  | error e => exact iff_of_true ⟨e, rfl⟩ nofun
  | ok u => exact iff_of_false nofun fun h => h rfl

theorem isOk_iff {x : Except ε Unit} : x.isOk = true ↔ x = .ok () := by
  cases x with
  | error e => exact iff_of_false nofun nofun
  | ok u => exact iff_of_true rfl rfl

theorem toOption_eq_some_iff {x : Except ε α} {a : α} : x.toOption = some a ↔ x = .ok a := by
  cases x with
  | error e => exact iff_of_false nofun nofun
  | ok b => exact ⟨fun h => congrArg _ (Option.some.inj h), fun h => congrArg _ (Except.ok.inj h)⟩

/-- A loop succeeds when each of its turns does. -/
theorem mapM_ok_iff {f : α → Except ε β} {l : List α} {out : List β} :
    l.mapM f = .ok out ↔ List.Forall₂ (fun a b => f a = .ok b) l out := by
  induction l generalizing out with
  | nil =>
    rw [List.mapM_nil, pure_ok_iff, List.forall₂_nil_left_iff]
    exact eq_comm
  | cons a l ih =>
    simp only [List.mapM_cons, bind_ok_iff, ih, pure_ok_iff, List.forall₂_cons_left_iff]
    constructor
    · rintro ⟨b, hb, out', hout, rfl⟩
      exact ⟨b, out', hb, hout, rfl⟩
    · rintro ⟨b, out', hb, hout, rfl⟩
      exact ⟨b, hb, out', hout, rfl⟩

/-- A member of the first list is related to one of the second. -/
theorem exists_mem_of_forall₂ {R : α → β → Prop} {l : List α} {out : List β}
    (h : List.Forall₂ R l out) {a : α} (ha : a ∈ l) : ∃ b ∈ out, R a b := by
  induction h with
  | nil => exact absurd ha List.not_mem_nil
  | cons hhead _ ih =>
    rcases List.mem_cons.mp ha with rfl | ha
    · exact ⟨_, List.mem_cons_self, hhead⟩
    · obtain ⟨b, hb, hrel⟩ := ih ha
      exact ⟨b, List.mem_cons_of_mem _ hb, hrel⟩

theorem exists_mapM_ok_iff {f : α → Except ε β} {l : List α} :
    (∃ out, l.mapM f = .ok out) ↔ ∀ a ∈ l, ∃ b, f a = .ok b := by
  simp only [mapM_ok_iff]
  induction l with
  | nil => simp
  | cons a l ih =>
    simp only [List.forall₂_cons_left_iff, List.forall_mem_cons, ← ih]
    constructor
    · rintro ⟨_, b, out, hb, hout, -⟩
      exact ⟨⟨b, hb⟩, out, hout⟩
    · rintro ⟨⟨b, hb⟩, out, hout⟩
      exact ⟨_, b, out, hb, hout, rfl⟩

end Keepstone.Lib
