import Mathlib.Data.List.Basic

/-!
# Runs of a step function

A system that takes one step after the other, with the steps given as a list.
A property that may be lost, and that no step brings back, holds at the end of
a run exactly if no step of the run loses it (`run_iff`).
-/

namespace Shitos

namespace Runs

variable {σ τ : Type*} (step : σ → τ → σ)

/-- The state after the steps of a list. -/
def run (s : σ) (l : List τ) : σ := l.foldl step s

/-- Each step of the run is taken in a state where it may be. -/
def Always (may : σ → τ → Prop) (s : σ) (l : List τ) : Prop :=
  ∀ pre t post, l = pre ++ t :: post → may (run step s pre) t

variable {step} {may : σ → τ → Prop} {s : σ} {t : τ} {l : List τ}

theorem run_cons (s : σ) (t : τ) (l : List τ) : run step s (t :: l) = run step (step s t) l := rfl

@[simp] theorem run_append (s : σ) (l l' : List τ) :
    run step s (l ++ l') = run step (run step s l) l' :=
  List.foldl_append

theorem always_nil : Always step may s [] := by
  intro pre t post h
  simp at h

theorem always_cons : Always step may s (t :: l) ↔ may s t ∧ Always step may (step s t) l := by
  constructor
  · intro h
    exact ⟨h [] t l rfl, fun pre u post hl => h (t :: pre) u post (congrArg (t :: ·) hl)⟩
  · rintro ⟨ht, hl⟩ pre u post heq
    cases pre with
    | nil =>
        obtain ⟨rfl, -⟩ := List.cons.inj heq
        exact ht
    | cons v pre =>
        obtain ⟨rfl, rfl⟩ := List.cons.inj heq
        exact hl pre u post rfl

theorem always_left {l' : List τ} (h : Always step may s (l ++ l')) : Always step may s l := by
  intro pre t post hl
  exact h pre t (post ++ l') (by rw [hl, List.append_assoc, List.cons_append])

/-- A step keeps `good` exactly where it may be taken, and no step restores it. -/
theorem run_iff {inv good : σ → Prop} (hinv : ∀ s t, inv s → inv (step s t))
    (hstep : ∀ s t, inv s → (good (step s t) ↔ good s ∧ may s t)) (hs : inv s) :
    good (run step s l) ↔ good s ∧ Always step may s l := by
  induction l generalizing s with
  | nil => exact ⟨fun h => ⟨h, always_nil⟩, fun h => h.1⟩
  | cons t l ih => rw [run_cons, ih (hinv s t hs), hstep s t hs, always_cons, and_assoc]

end Runs

end Shitos
