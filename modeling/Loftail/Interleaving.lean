import Mathlib.Tactic.TypeStar

/-! # Runs of a labelled step function

A label says who does what next; a label that is not enabled has no step. Runs keep to a
condition on the labels taken, and what every such step keeps holds wherever they lead. -/
namespace Loftail.Interleaving

variable {σ α : Type*}

/-- Where the runs lead whose labels all meet `ok`. -/
inductive Reaches (step : σ→α→Option σ) (ok : σ→α→Prop) (start : σ) : σ→Prop
  | start : Reaches step ok start start
  | step {s s' : σ} {a : α} (h : Reaches step ok start s) (hok : ok s a) (hs : step s a=some s') :
      Reaches step ok start s'

variable {step : σ→α→Option σ} {ok : σ→α→Prop} {start : σ}

/-- An invariant is what the start has and every step keeps. -/
theorem Reaches.invariant {P : σ→Prop} (h₀ : P start) (hstep : ∀s a s',P s → ok s a→step s a=some s'→P s') {s : σ}
    (h : Reaches step ok start s) : P s := by
  induction h with
  | start => exact h₀
  | step _ hok hs ih => exact hstep _ _ _ ih hok hs

theorem Reaches.trans {mid s : σ} (h : Reaches step ok start mid) (h' : Reaches step ok mid s) :
    Reaches step ok start s := by
  induction h' with
  | start => exact h
  | step _ hok hs ih => exact ih.step hok hs

/-- One run, taken label by label; `none` where a label is not enabled or does not meet `ok`. -/
def run (step : σ→α→Option σ) (ok : σ→α→Prop) [∀s a,Decidable (ok s a)] : σ→List α→Option σ
  | s,[] => some s
  | s,a::as =>
    if ok s a then
      match step s a with
      | some s' => run step ok s' as
      | none => none
    else none

theorem reaches_of_run [∀s a,Decidable (ok s a)] {s : σ} {as : List α} (h : run step ok start as=some s) :
    Reaches step ok start s := by
  induction as generalizing start with
  | nil =>
    obtain rfl := Option.some_inj.mp h
    exact .start
  | cons a as ih =>
    rw [run] at h
    split at h
    · rename_i hok
      cases hs : step start a with
      | none => simp [hs] at h
      | some mid =>
        rw [hs] at h
        exact (Reaches.start.step hok hs).trans (ih h)
    · cases h

end Loftail.Interleaving
