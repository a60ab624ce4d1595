import Keepstone.Lib.Reader

/-!
# Readings that may panic

A `Reader` over `Fault` writes out where the program would panic. `Agrees r r'` says that from every
valid cursor `r` does what `r'` does, without a panic, and that the cursor stays valid, whether the
reading succeeds or not.

Results:
* `Agrees.bind`: the rest of the reading has to agree only on what can have been read;
* `Agrees.ne_panic`, `Agrees.after`: no panic, and no position past the end, after any readings in a
  row.
-/

namespace Keepstone.Lib

variable {ε α β κ : Type}

/-- How a reading ends without a value. -/
inductive Fault (ε : Type) where
  /-- An error that is returned. -/
  | error (e : ε)
  | panic
  deriving DecidableEq, Repr

/-- Where the readings `r k` leave the cursor, tried one after the other whatever became of the
ones before. -/
def Reader.after (r : κ → Reader ε α) (ks : List κ) (c : Cursor) : Cursor :=
  ks.foldl (fun c k => (r k c).2) c

/-- `r` is `r'`, and does not panic. -/
def Agrees (r : Reader (Fault ε) α) (r' : Reader ε α) : Prop :=
  ∀ c : Cursor, c.Valid →
    r c = r'.mapErr .error c ∧ (r' c).2.Valid ∧ (r' c).2.input = c.input

namespace Agrees

variable {r : Reader (Fault ε) α} {r' : Reader ε α}

theorem pure (a : α) : Agrees (Pure.pure a : Reader (Fault ε) α) (Pure.pure a) :=
  fun _ hc => ⟨rfl, hc, rfl⟩

theorem fail (e : ε) : Agrees (Reader.fail (.error e) : Reader (Fault ε) α) (Reader.fail e) :=
  fun _ hc => ⟨rfl, hc, rfl⟩

theorem ite {p : Prop} [Decidable p] {s : Reader (Fault ε) α} {s' : Reader ε α}
    (hr : p → Agrees r r') (hs : ¬ p → Agrees s s') :
    Agrees (if p then r else s) (if p then r' else s') := by
  by_cases hp : p
  · rw [if_pos hp, if_pos hp]
    exact hr hp
  · rw [if_neg hp, if_neg hp]
    exact hs hp

theorem ensure (p : Prop) [Decidable p] (e : ε) :
    Agrees (Reader.ensure p (.error e)) (Reader.ensure p e) :=
  ite (fun _ => pure ()) fun _ => fail e

/-- **Readings that agree compose.** What the first one can have read is known from its format. -/
theorem bind {k : α → Reader (Fault ε) β} {k' : α → Reader ε β} {P : α → Prop}
    {enc : α → List UInt8} (hr : Agrees r r') (hexact : Exact r' P enc)
    (hk : ∀ a, P a → Agrees (k a) (k' a)) : Agrees (r >>= k) (r' >>= k') := by
  intro c hc
  obtain ⟨heq, hvalid, hinput⟩ := hr c hc
  have hread := hexact c hc
  cases hrun : r' c with
  | mk res c₁ =>
    simp only [Reader.mapErr, hrun] at heq hvalid hinput hread ⊢
    cases res with
    | error e =>
      rw [Reader.bind_of_error hrun, Reader.bind_of_error heq]
      exact ⟨rfl, hvalid, hinput⟩
    | ok a =>
      rw [Reader.bind_of_ok hrun, Reader.bind_of_ok heq]
      obtain ⟨heq', hvalid', hinput'⟩ := hk a ((hread a c₁).mp rfl).1 c₁ hvalid
      exact ⟨heq', hvalid', hinput'.trans hinput⟩

/-- A counted loop of readings that agree. -/
theorem replicate {P : α → Prop} {enc : α → List UInt8} (hr : Agrees r r') (hexact : Exact r' P enc)
    (n : Nat) : Agrees (r.replicate n) (r'.replicate n) := by
  induction n with
  | zero => exact pure []
  | succ n ih =>
    exact hr.bind hexact fun _ _ => ih.bind (hexact.replicate n) fun _ _ => pure _

/-- **No panic.** -/
theorem ne_panic (hr : Agrees r r') {c : Cursor} (hc : c.Valid) : (r c).1 ≠ .error .panic := by
  rw [(hr c hc).1, Reader.mapErr]
  cases (r' c).1 with
  | ok a => simp [Except.mapError]
  | error e => simp [Except.mapError]

/-- **The position stays inside the input** over any readings in a row. -/
theorem after {r : κ → Reader (Fault ε) α} {r' : κ → Reader ε α} (hr : ∀ k, Agrees (r k) (r' k))
    (ks : List κ) {c : Cursor} (hc : c.Valid) :
    (Reader.after r ks c).Valid ∧ (Reader.after r ks c).input = c.input := by
  induction ks generalizing c with
  | nil => exact ⟨hc, rfl⟩
  | cons k ks ih =>
    obtain ⟨heq, hvalid, hinput⟩ := hr k c hc
    have hstep : (r k c).2 = (r' k c).2 := by rw [heq]; rfl
    rw [← hstep] at hvalid hinput
    obtain ⟨hend, hsame⟩ := ih hvalid
    exact ⟨hend, hsame.trans hinput⟩

end Agrees

end Keepstone.Lib
