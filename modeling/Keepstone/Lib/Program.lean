import Keepstone.Lib.Except

/-!
# Programs on a state that may fail

`Program ε σ` is the exception monad over the state monad, in this order: a program that fails
leaves the state as it was when it failed, it does not undo anything.

`Keeps I m Q` is the invariant rule for such programs: from a state with `I`, a run of `m` ends in
a state with `I` whether it fails or not, and a value it returns has `Q`. One rule a way to build
a program; an invariant of a whole program is then one lemma for each operation that changes the
state. `Returns I m` is the rule for termination without an error, with the same shape.
-/

namespace Keepstone.Lib

/-- Programs that fail with `ε` on the state `σ`. -/
abbrev Program (ε σ : Type) := ExceptT ε (StateM σ)

variable {ε ε' σ α β : Type}

namespace Program

/-- How a run ends: with a value or an error, and in which state. -/
def exec (m : Program ε σ α) (s : σ) : Except ε α × σ := StateT.run (ExceptT.run m) s

/-- One operation on the state. -/
def step (f : σ → Except ε α × σ) : Program ε σ α := ExceptT.mk f

/-- A computation that reads the state. -/
def reads (f : σ → Except ε α) : Program ε σ α := step fun s => (f s, s)

/-- A computation that does not look at the state. -/
def ofExcept (x : Except ε α) : Program ε σ α := reads fun _ => x

/-- Goes on if `p` holds of the state. -/
def checks (p : σ → Bool) (e : ε) : Program ε σ Unit := reads fun s => check (p s) e

/-- `Result::map_err`. -/
def mapErr (f : ε → ε') (m : Program ε σ α) : Program ε' σ α :=
  step fun s => ((m.exec s).1.mapError f, (m.exec s).2)

/-- `Result::ok`: the program goes on after an error. -/
def ok (m : Program ε σ α) : Program ε' σ (Option α) :=
  step fun s => (.ok (m.exec s).1.toOption, (m.exec s).2)

@[simp] theorem exec_step (f : σ → Except ε α × σ) (s : σ) : (step f).exec s = f s := rfl

@[simp] theorem exec_ofExcept (x : Except ε α) (s : σ) : (ofExcept x).exec s = (x, s) := rfl

theorem exec_bind_ok {m : Program ε σ α} {s s' : σ} {a : α} (h : m.exec s = (.ok a, s'))
    (f : α → Program ε σ β) : (m >>= f).exec s = (f a).exec s' := by
  simp only [exec, ExceptT.run, StateT.run] at h
  simp only [exec, bind, ExceptT.bind, ExceptT.run, ExceptT.mk, StateT.bind, StateT.run, h]
  rfl

theorem exec_bind_error {m : Program ε σ α} {s s' : σ} {e : ε} (h : m.exec s = (.error e, s'))
    (f : α → Program ε σ β) : (m >>= f).exec s = (.error e, s') := by
  simp only [exec, ExceptT.run, StateT.run] at h
  simp only [exec, bind, ExceptT.bind, ExceptT.run, ExceptT.mk, StateT.bind, StateT.run, h]
  rfl

theorem exec_ofExcept_bind {x : Except ε α} {a : α} (h : x = .ok a) (f : α → Program ε σ β)
    (s : σ) : (ofExcept x >>= f).exec s = (f a).exec s :=
  exec_bind_ok (by rw [exec_ofExcept, h]) f

/-- `ofExcept` keeps the order of computations. -/
theorem ofExcept_bind (x : Except ε α) (f : α → Except ε β) :
    (ofExcept (x >>= f) : Program ε σ β) = ofExcept x >>= fun a => ofExcept (f a) := by
  cases x with
  | error e => rfl
  | ok a => rfl

/-- What follows a computation that does not look at the state runs on that state. -/
theorem exec_ofExcept_bind_congr {x : Except ε α} {f g : α → Program ε σ β} {s : σ}
    (h : ∀ a, (f a).exec s = (g a).exec s) :
    (ofExcept x >>= f).exec s = (ofExcept x >>= g).exec s := by
  cases x with
  | error e => rfl
  | ok a => exact h a

theorem exec_reads_ok {f : σ → Except ε α} {s : σ} {a : α} (h : f s = .ok a) :
    (reads f).exec s = (.ok a, s) := by
  rw [reads, exec_step, h]

/-- A run that returns has gone through each of its parts. -/
theorem exec_bind_eq_ok {m : Program ε σ α} {f : α → Program ε σ β} {s s'' : σ} {b : β}
    (h : (m >>= f).exec s = (.ok b, s'')) :
    ∃ a s', m.exec s = (.ok a, s') ∧ (f a).exec s' = (.ok b, s'') := by
  cases hm : m.exec s with
  | mk r s' =>
    cases r with
    | error e =>
      rw [exec_bind_error hm] at h
      exact absurd (congrArg Prod.fst h) nofun
    | ok a =>
      rw [exec_bind_ok hm] at h
      exact ⟨a, s', rfl, h⟩

/-- A run that fails did so in its first part, or went through it. -/
theorem exec_bind_eq_error {m : Program ε σ α} {f : α → Program ε σ β} {s s'' : σ} {e : ε}
    (h : (m >>= f).exec s = (.error e, s'')) :
    m.exec s = (.error e, s'') ∨ ∃ a s', m.exec s = (.ok a, s') ∧ (f a).exec s' = (.error e, s'') := by
  cases hm : m.exec s with
  | mk r s' =>
    cases r with
    | error e' =>
      rw [exec_bind_error hm] at h
      obtain ⟨herror, rfl⟩ := Prod.mk.inj h
      exact Or.inl (by rw [Except.error.inj herror])
    | ok a =>
      rw [exec_bind_ok hm] at h
      exact Or.inr ⟨a, s', rfl, h⟩

theorem exec_mapErr_ok {f : ε → ε'} {m : Program ε σ α} {s s' : σ} {a : α}
    (h : m.exec s = (.ok a, s')) : (m.mapErr f).exec s = (.ok a, s') := by
  rw [mapErr, exec_step, h]
  rfl

theorem exec_mapErr_eq_ok {f : ε → ε'} {m : Program ε σ α} {s s' : σ} {a : α}
    (h : (m.mapErr f).exec s = (.ok a, s')) : m.exec s = (.ok a, s') := by
  obtain ⟨hvalue, hstate⟩ := Prod.mk.inj h
  exact Prod.ext (mapError_ok_iff.mp hvalue) hstate

theorem exec_mapErr_eq_error {f : ε → ε'} {m : Program ε σ α} {s s' : σ} {e : ε'}
    (h : (m.mapErr f).exec s = (.error e, s')) : ∃ e', m.exec s = (.error e', s') := by
  cases hm : m.exec s with
  | mk r s'' =>
    cases r with
    | error e' =>
      rw [mapErr, exec_step, hm] at h
      obtain rfl : s'' = s' := (Prod.mk.inj h).2
      exact ⟨e', rfl⟩
    | ok a =>
      rw [exec_mapErr_ok hm] at h
      exact absurd (congrArg Prod.fst h) nofun

theorem exec_mapErr_error {f : ε → ε'} {m : Program ε σ α} {s s' : σ} {e : ε}
    (h : m.exec s = (.error e, s')) : (m.mapErr f).exec s = (.error (f e), s') := by
  rw [mapErr, exec_step, h]
  rfl

/-- Programs are their runs. -/
theorem ext {m m' : Program ε σ α} (h : ∀ s, m.exec s = m'.exec s) : m = m' := funext h

theorem mapErr_bind (f : ε → ε') (m : Program ε σ α) (g : α → Program ε σ β) :
    mapErr f (m >>= g) = mapErr f m >>= fun a => mapErr f (g a) := by
  refine ext fun s => ?_
  cases h : m.exec s with
  | mk r s' =>
    cases r with
    | error e =>
      rw [exec_mapErr_error (exec_bind_error h g), exec_bind_error (exec_mapErr_error h)]
    | ok a =>
      rw [exec_bind_ok (exec_mapErr_ok h), mapErr, exec_step, exec_bind_ok h]
      rfl

theorem exec_ofExcept_eq_ok {x : Except ε α} {s s' : σ} {a : α}
    (h : (ofExcept x : Program ε σ α).exec s = (.ok a, s')) : x = .ok a ∧ s = s' :=
  Prod.mk.inj h

theorem exec_reads_eq_ok {f : σ → Except ε α} {s s' : σ} {a : α}
    (h : (reads f).exec s = (.ok a, s')) : f s = .ok a ∧ s = s' :=
  Prod.mk.inj h

theorem exec_pure_eq_ok {a b : α} {s s' : σ}
    (h : (Pure.pure a : Program ε σ α).exec s = (.ok b, s')) : a = b ∧ s = s' :=
  ⟨Except.ok.inj (Prod.mk.inj h).1, (Prod.mk.inj h).2⟩

end Program

/-! ## Invariants -/

/-- From a state with `I`, `m` ends in a state with `I`, and what it returns has `Q`. -/
def Keeps (I : σ → Prop) (m : Program ε σ α) (Q : α → Prop) : Prop :=
  ∀ s, I s → I (m.exec s).2 ∧ ∀ a, (m.exec s).1 = .ok a → Q a

namespace Keeps

variable {I : σ → Prop} {Q : α → Prop} {R : β → Prop} {m : Program ε σ α}

/-- What is kept holds where a run ended. -/
theorem after {s s' : σ} {r : Except ε α} (h : Keeps I m Q) (hs : I s)
    (hexec : m.exec s = (r, s')) : I s' := by
  have hkept := (h s hs).1
  rwa [hexec] at hkept

theorem pure {a : α} (h : Q a) : Keeps I (Pure.pure a : Program ε σ α) Q := by
  intro s hs
  refine ⟨hs, fun a' ha => ?_⟩
  obtain rfl : a = a' := Except.ok.inj ha
  exact h

theorem weaken {P : α → Prop} (h : Keeps I m P) (hPQ : ∀ a, P a → Q a) : Keeps I m Q :=
  fun s hs => ⟨(h s hs).1, fun a ha => hPQ a ((h s hs).2 a ha)⟩

theorem bind {f : α → Program ε σ β} (hm : Keeps I m Q) (hf : ∀ a, Q a → Keeps I (f a) R) :
    Keeps I (m >>= f) R := by
  intro s hs
  obtain ⟨hs', hQ⟩ := hm s hs
  cases h : m.exec s with
  | mk r s' =>
    rw [h] at hs' hQ
    cases r with
    | error e =>
      rw [Program.exec_bind_error h]
      exact ⟨hs', fun _ hb => absurd hb nofun⟩
    | ok a =>
      rw [Program.exec_bind_ok h]
      exact hf a (hQ a rfl) s' hs'

/-- What holds where `m` ended is kept by what follows. -/
theorem after_bind {f : α → Program ε σ β} {s : σ} (hs : I (m.exec s).2)
    (hf : ∀ a, Keeps I (f a) R) : I ((m >>= f).exec s).2 := by
  cases h : m.exec s with
  | mk r s' =>
    rw [h] at hs
    cases r with
    | error e =>
      rw [Program.exec_bind_error h]
      exact hs
    | ok a =>
      rw [Program.exec_bind_ok h]
      exact (hf a s' hs).1

/-- The same, when what follows keeps it for the values that `m` returns here. -/
theorem after_bind_ok {f : α → Program ε σ β} {s : σ} (hs : I (m.exec s).2)
    (hf : ∀ a s', m.exec s = (.ok a, s') → I ((f a).exec s').2) : I ((m >>= f).exec s).2 := by
  cases h : m.exec s with
  | mk r s' =>
    rw [h] at hs
    cases r with
    | error e =>
      rw [Program.exec_bind_error h]
      exact hs
    | ok a =>
      rw [Program.exec_bind_ok h]
      exact hf a s' h

theorem reads {f : σ → Except ε α} (h : ∀ s a, I s → f s = .ok a → Q a) :
    Keeps I (Program.reads f) Q :=
  fun s hs => ⟨hs, fun a ha => h s a hs ha⟩

theorem ofExcept (x : Except ε α) : Keeps I (Program.ofExcept x) fun a => x = .ok a :=
  reads fun _ _ _ h => h

theorem mapErr (f : ε → ε') (hm : Keeps I m Q) : Keeps I (m.mapErr f) Q := by
  intro s hs
  obtain ⟨hs', hQ⟩ := hm s hs
  refine ⟨hs', fun a ha => hQ a ?_⟩
  cases h : (m.exec s).1 with
  | error e => exact absurd ha (by simp [Program.mapErr, h, Except.mapError])
  | ok a' => simpa [Program.mapErr, h, Except.mapError] using ha

theorem ok (hm : Keeps I m Q) : Keeps I (m.ok : Program ε' σ (Option α)) fun _ => True :=
  fun s hs => ⟨(hm s hs).1, fun _ _ => trivial⟩

theorem forM {f : α → Program ε σ PUnit} (l : List α)
    (hf : ∀ a ∈ l, Keeps I (f a) fun _ => True) : Keeps I (forM l f) fun _ => True := by
  induction l with
  | nil => exact Keeps.pure trivial
  | cons a l ih =>
    rw [List.forM_cons]
    exact (hf a List.mem_cons_self).bind fun _ _ => ih fun b hb => hf b (List.mem_cons_of_mem _ hb)

end Keeps

/-! ## Programs that return -/

/-- From a state with `I`, `m` returns, in a state with `I`. -/
def Returns (I : σ → Prop) (m : Program ε σ α) : Prop :=
  ∀ s, I s → ∃ a s', m.exec s = (.ok a, s') ∧ I s'

namespace Returns

variable {I : σ → Prop} {m : Program ε σ α}

theorem bind {f : α → Program ε σ β} (hm : Returns I m) (hf : ∀ a, Returns I (f a)) :
    Returns I (m >>= f) := by
  intro s hs
  obtain ⟨a, s', hexec, hs'⟩ := hm s hs
  rw [Program.exec_bind_ok hexec]
  exact hf a s' hs'

theorem ofExcept {x : Except ε α} {a : α} (h : x = .ok a) : Returns I (Program.ofExcept x) :=
  fun s hs => ⟨a, s, by rw [Program.exec_ofExcept, h], hs⟩

theorem mapErr (f : ε → ε') (hm : Returns I m) : Returns I (m.mapErr f) := by
  intro s hs
  obtain ⟨a, s', hexec, hs'⟩ := hm s hs
  exact ⟨a, s', Program.exec_mapErr_ok hexec, hs'⟩

theorem ok (hm : Returns I m) : Returns I (m.ok : Program ε' σ (Option α)) := by
  intro s hs
  obtain ⟨a, s', hexec, hs'⟩ := hm s hs
  exact ⟨some a, s', by rw [Program.ok, Program.exec_step, hexec]; rfl, hs'⟩

theorem forM {f : α → Program ε σ PUnit} (l : List α) (hf : ∀ a ∈ l, Returns I (f a)) :
    Returns I (forM l f) := by
  induction l with
  | nil => exact fun s hs => ⟨_, s, rfl, hs⟩
  | cons a l ih =>
    rw [List.forM_cons]
    exact (hf a List.mem_cons_self).bind fun _ => ih fun b hb => hf b (List.mem_cons_of_mem _ hb)

end Returns

end Keepstone.Lib
