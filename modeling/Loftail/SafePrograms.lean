import Loftail.Programs

/-! # Invariants of programs whose world others change

A program is safe in a state when every state it reaches from there keeps an invariant, and every state
it ends in fits its result, whatever the world answers. -/
namespace Loftail.Program
variable {Op : Type} {Answer : Op→Type} {α β σ : Type}

/-- A state the program passes through. -/
inductive Reaches (step : σ→(o : Op)→Answer o→σ→Prop) : Program Op Answer α→σ→σ→Prop
  | here {p : Program Op Answer α} {s : σ} : Reaches step p s s
  | next {o : Op} {k : Answer o→Program Op Answer α} {x : Answer o} {s m t : σ} (hs : step s o x m)
      (h : Reaches step (k x) m t) : Reaches step (.perform o k) s t

def Safe (step : σ→(o : Op)→Answer o→σ→Prop) (I : σ→Prop) : Program Op Answer α→(α→σ→Prop)→σ→Prop
  | .pure a,ends,s => I s ∧ ends a s
  | .perform o k,ends,s => I s ∧ ∀x t,step s o x t → (k x).Safe step I ends t

variable {step : σ→(o : Op)→Answer o→σ→Prop} {I : σ→Prop} {s t : σ}

theorem safe_ask {o : Op} {k : Answer o→Program Op Answer α} {ends : α→σ→Prop} :
    ((ask o).bind k).Safe step I ends s↔I s ∧ ∀x t,step s o x t → (k x).Safe step I ends t := Iff.rfl

theorem Safe.holds {p : Program Op Answer α} {ends : α→σ→Prop} (h : p.Safe step I ends s) : I s := by
  cases p with
  | pure a => exact h.1
  | perform o k => exact h.1

/-- The rule of sequence. -/
theorem safe_bind {p : Program Op Answer α} {f : α→Program Op Answer β} {ends : β→σ→Prop} :
    (p.bind f).Safe step I ends s↔p.Safe step I (fun a m => (f a).Safe step I ends m) s := by
  induction p generalizing s with
  | pure a => exact ⟨fun h => ⟨h.holds,h⟩,fun h => h.2⟩
  | perform o k ih =>
    constructor
    · intro h
      exact ⟨h.1,fun x t ht => (ih x).mp (h.2 x t ht)⟩
    · intro h
      exact ⟨h.1,fun x t ht => (ih x).mpr (h.2 x t ht)⟩

/-- The rule of consequence. -/
theorem Safe.mono {p : Program Op Answer α} {ends ends' : α→σ→Prop} (h : p.Safe step I ends s)
    (he : ∀a t,I t → ends a t → ends' a t) : p.Safe step I ends' s := by
  induction p generalizing s with
  | pure a => exact ⟨h.1,he a s h.1 h.2⟩
  | perform o k ih => exact ⟨h.1,fun x t ht => ih x (h.2 x t ht)⟩

/-- Every state passed through keeps the invariant. -/
theorem Safe.reaches {p : Program Op Answer α} {ends : α→σ→Prop} (h : p.Safe step I ends s)
    (hr : p.Reaches step s t) : I t := by
  induction hr with
  | here => exact h.holds
  | next hs _ ih => exact ih (h.2 _ _ hs)

/-- What is kept by every operation is kept by a program of any operations. -/
theorem Runs.keeps {p : Program Op Answer α} {a : α} (hstep : ∀s o x t,I s → step s o x t → I t) (hs : I s)
    (hr : p.Runs step s a t) : I t := by
  induction p generalizing s with
  | pure b =>
    obtain ⟨-,rfl⟩ := hr
    exact hs
  | perform o k ih =>
    obtain ⟨x,m,hm,hk⟩ := hr
    exact ih x (hstep _ _ _ _ hs hm) hk

end Loftail.Program
