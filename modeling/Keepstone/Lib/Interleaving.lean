import Mathlib.Data.List.Basic

/-!
# Calls that run at the same time

Several calls work on one shared state. Each is a list of operations that are atomic; a schedule
says which call does its next operation, turn after turn. Every interleaving of the calls is a
schedule after which they are all done.

Results:
* `step_cases`: what one turn can do; `run_invariant`: what every turn keeps holds at the end;
* `shared_run`, `merge_performed`: a run does its operations one after the other, in an order that
  merges those of the calls;
* **`exists_serial_of_unbroken`**: if each call is let run from its first operation to its last,
  the calls have run one after the other.
-/

namespace Keepstone.Lib

/-- Calls under way on a shared state. -/
structure Calls (σ α : Type) where
  /-- What the operations read and write. -/
  shared : σ
  /-- The operations each call has still to do. -/
  pending : List (List α)

namespace Calls

variable {σ α : Type} (apply : σ → α → σ)

/-- The call at position `i` does its next operation, if it has one. -/
def step (calls : Calls σ α) (i : Nat) : Calls σ α :=
  match calls.pending[i]? with
  | some (op :: rest) => ⟨apply calls.shared op, calls.pending.set i rest⟩
  | some [] => calls
  | none => calls

/-- Turn after turn. -/
def run (calls : Calls σ α) (schedule : List Nat) : Calls σ α := schedule.foldl (step apply) calls

/-- Every call has ended. -/
def Done (calls : Calls σ α) : Prop := ∀ ops ∈ calls.pending, ops = []

instance [DecidableEq α] (calls : Calls σ α) : Decidable calls.Done :=
  inferInstanceAs (Decidable (∀ ops ∈ calls.pending, ops = []))

/-- The calls that have something to do. -/
def unfinished (pending : List (List α)) : List (List α) := pending.filter fun ops => !ops.isEmpty

variable {apply}

/-- A call with operations left stands somewhere among the others. -/
theorem exists_split {pending : List (List α)} {i : Nat} {ops : List α}
    (h : pending[i]? = some ops) (ops' : List α) :
    ∃ before after, pending = before ++ ops :: after ∧
      pending.set i ops' = before ++ ops' :: after := by
  obtain ⟨hi, hget⟩ := List.getElem?_eq_some_iff.mp h
  refine ⟨pending.take i, pending.drop (i + 1), ?_, ?_⟩
  · rw [← hget, ← List.drop_eq_getElem_cons hi, List.take_append_drop]
  · rw [List.set_eq_take_append_cons_drop, if_pos hi]

/-- A turn does nothing, or takes the first operation of one call. -/
theorem step_cases (calls : Calls σ α) (i : Nat) :
    step apply calls i = calls ∨
      ∃ before op rest after, calls.pending = before ++ (op :: rest) :: after ∧
        step apply calls i = ⟨apply calls.shared op, before ++ rest :: after⟩ := by
  unfold step
  cases h : calls.pending[i]? with
  | none => exact Or.inl rfl
  | some ops =>
    cases ops with
    | nil => exact Or.inl rfl
    | cons op rest =>
      obtain ⟨before, after, hpending, hset⟩ := exists_split h rest
      exact Or.inr ⟨before, op, rest, after, hpending, by simp only [hset]⟩

theorem run_invariant {I : Calls σ α → Prop} (hstep : ∀ calls i, I calls → I (step apply calls i))
    {calls : Calls σ α} (h : I calls) (schedule : List Nat) : I (run apply calls schedule) := by
  induction schedule generalizing calls with
  | nil => exact h
  | cons i schedule ih => exact ih (hstep calls i h)

/-! ## The operations in order -/

/-- The operations that a schedule does, in order. -/
def performed : List (List α) → List Nat → List α
  | _, [] => []
  | pending, i :: schedule =>
    match pending[i]? with
    | some (op :: rest) => op :: performed (pending.set i rest) schedule
    | some [] => performed pending schedule
    | none => performed pending schedule

/-- What is shared at the end is what the operations make of it in that order. -/
theorem shared_run (calls : Calls σ α) (schedule : List Nat) :
    (run apply calls schedule).shared =
      (performed calls.pending schedule).foldl apply calls.shared := by
  induction schedule generalizing calls with
  | nil => rfl
  | cons i schedule ih =>
    rw [run, List.foldl_cons]
    change (run apply (step apply calls i) schedule).shared = _
    rw [ih, performed, step]
    cases calls.pending[i]? with
    | none => rfl
    | some ops =>
      cases ops with
      | nil => rfl
      | cons op rest => rfl

/-- `zs` has the elements of `xs` and of `ys`, each in their order. -/
inductive Merge : List α → List α → List α → Prop
  | nil : Merge [] [] []
  | left {x : α} {xs ys zs : List α} : Merge xs ys zs → Merge (x :: xs) ys (x :: zs)
  | right {y : α} {xs ys zs : List α} : Merge xs ys zs → Merge xs (y :: ys) (y :: zs)

/-- **Two calls that have ended have been merged.** -/
theorem merge_performed {xs ys : List α} {shared : σ} {schedule : List Nat}
    (hdone : (run apply ⟨shared, [xs, ys]⟩ schedule).Done) :
    Merge xs ys (performed [xs, ys] schedule) := by
  induction schedule generalizing xs ys shared with
  | nil =>
    obtain rfl : xs = [] := hdone xs List.mem_cons_self
    obtain rfl : ys = [] := hdone ys (List.mem_cons_of_mem _ List.mem_cons_self)
    exact Merge.nil
  | cons i schedule ih =>
    match i, xs, ys with
    | 0, [], ys => exact ih hdone
    | 0, x :: xs, ys => exact Merge.left (ih hdone)
    | 1, xs, [] => exact ih hdone
    | 1, xs, y :: ys => exact Merge.right (ih hdone)
    | i + 2, xs, ys => exact ih hdone

/-! ## Calls that are not interrupted -/

/-- A call that is given as many turns as it has operations does them all. -/
theorem run_replicate {pending : List (List α)} {i : Nat} {ops : List α}
    (h : pending[i]? = some ops) : ∀ {n : Nat}, ops.length ≤ n → ∀ shared : σ,
    run apply ⟨shared, pending⟩ (List.replicate n i) =
      ⟨ops.foldl apply shared, pending.set i []⟩ := by
  induction ops generalizing pending with
  | nil =>
    intro n _ shared
    obtain ⟨hi, hget⟩ := List.getElem?_eq_some_iff.mp h
    have hset : pending.set i [] = pending := by rw [← hget, List.set_getElem_self hi]
    induction n with
    | zero => rw [hset]; rfl
    | succ n ih =>
      have hstep : step apply ⟨shared, pending⟩ i = ⟨shared, pending⟩ := by
        simp only [step, h]
      rw [List.replicate_succ, run, List.foldl_cons, hstep]
      exact ih (Nat.zero_le n)
  | cons op ops ih =>
    intro n hn shared
    obtain ⟨n, rfl⟩ : ∃ n', n = n' + 1 := ⟨n - 1, by rw [List.length_cons] at hn; omega⟩
    have hstep : step apply ⟨shared, pending⟩ i = ⟨apply shared op, pending.set i ops⟩ := by
      simp only [step, h]
    have hi := (List.getElem?_eq_some_iff.mp h).1
    have hnext : (pending.set i ops)[i]? = some ops := List.getElem?_set_self hi
    rw [List.replicate_succ, run, List.foldl_cons, hstep]
    rw [List.length_cons] at hn
    have hrest := ih hnext (Nat.le_of_succ_le_succ hn) (apply shared op)
    rw [List.set_set] at hrest
    exact hrest

theorem run_replicate_none {pending : List (List α)} {i : Nat} (h : pending[i]? = none)
    (n : Nat) (shared : σ) :
    run apply ⟨shared, pending⟩ (List.replicate n i) = ⟨shared, pending⟩ := by
  induction n with
  | zero => rfl
  | succ n ih =>
    have hstep : step apply ⟨shared, pending⟩ i = ⟨shared, pending⟩ := by
      simp only [step, h]
    rw [List.replicate_succ, run, List.foldl_cons, hstep]
    exact ih

theorem run_append (calls : Calls σ α) (first second : List Nat) :
    run apply calls (first ++ second) = run apply (run apply calls first) second :=
  List.foldl_append

/-- The turns of an unbroken schedule: `n` for each call, in the given order. -/
def turns (n : Nat) (order : List Nat) : List Nat := order.flatMap (List.replicate n)

variable (apply) in
/-- The calls that have ended, in the order they ran, and those that have not begun. -/
theorem exists_ended {n : Nat} (order : List Nat) :
    ∀ {pending : List (List α)} (shared : σ), (∀ ops ∈ pending, ops.length ≤ n) →
      ∃ ended, (run apply ⟨shared, pending⟩ (turns n order)).shared =
          ended.flatten.foldl apply shared ∧
        (ended ++ unfinished (run apply ⟨shared, pending⟩ (turns n order)).pending).Perm
          (unfinished pending) := by
  induction order with
  | nil => exact fun shared _ => ⟨[], rfl, List.Perm.refl _⟩
  | cons i order ih =>
    intro pending shared hn
    have hturns : turns n (i :: order) = List.replicate n i ++ turns n order :=
      List.flatMap_cons
    rw [hturns, run_append]
    cases h : pending[i]? with
    | none =>
      rw [run_replicate_none h]
      exact ih shared hn
    | some ops =>
      obtain ⟨before, after, hpending, hset⟩ := exists_split h []
      rw [run_replicate h (hn ops (List.mem_of_getElem? h))]
      have hn' : ∀ ops' ∈ pending.set i [], ops'.length ≤ n := by
        intro ops' hmem
        rcases List.mem_or_eq_of_mem_set hmem with hmem | rfl
        · exact hn ops' hmem
        · exact Nat.zero_le n
      obtain ⟨ended, hshared, hperm⟩ := ih (ops.foldl apply shared) hn'
      rw [hset] at hshared hperm ⊢
      rw [hpending]
      cases ops with
      | nil => exact ⟨ended, hshared, hperm⟩
      | cons op ops =>
        refine ⟨(op :: ops) :: ended, ?_, ?_⟩
        · rw [hshared, List.flatten_cons, List.foldl_append]
        · have hunfinished : unfinished (before ++ (op :: ops) :: after) =
              unfinished before ++ (op :: ops) :: unfinished after := by
            simp [unfinished]
          have hrest : unfinished (before ++ [] :: after) =
              unfinished before ++ unfinished after := by
            simp [unfinished]
          rw [hrest] at hperm
          rw [hunfinished]
          exact (hperm.cons _).trans List.perm_middle.symm

/-- **Calls that are not interrupted have run one after the other.** -/
theorem exists_serial_of_unbroken {n : Nat} {order : List Nat} {shared : σ}
    {pending : List (List α)} (hn : ∀ ops ∈ pending, ops.length ≤ n)
    (hdone : (run apply ⟨shared, pending⟩ (turns n order)).Done) :
    ∃ ended : List (List α), ended.Perm (unfinished pending) ∧
      (run apply ⟨shared, pending⟩ (turns n order)).shared =
        ended.flatten.foldl apply shared := by
  obtain ⟨ended, hshared, hperm⟩ := exists_ended apply order shared hn
  have hnone : unfinished (run apply ⟨shared, pending⟩ (turns n order)).pending = [] := by
    refine List.filter_eq_nil_iff.mpr fun ops hmem => ?_
    rw [hdone ops hmem, List.isEmpty_nil]
    exact Bool.false_ne_true
  rw [hnone, List.append_nil] at hperm
  exact ⟨ended, hperm, hshared⟩

end Calls

end Keepstone.Lib
