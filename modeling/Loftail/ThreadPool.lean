import Loftail.Programs
import Mathlib.Logic.Function.Basic
import Mathlib.Logic.Relation

/-! # Threads that share a world

Each thread is a program, and the threads take turns one operation at a time, in any order. A thread is
followed through its own part of the world alone; a contract says that what one thread does to the world
leaves the parts of the others as they were. -/
namespace Loftail.Program
variable {Op : Type} {Answer : Op→Type} {α β ι σ ρ : Type}

/-- What each thread has left to do, and the world they share. -/
structure Pool (Op : Type) (Answer : Op→Type) (α ι σ : Type) where
  left : ι→Program Op Answer α
  world : σ

/-- A turn of one thread, or a drift of the world that no thread caused. -/
inductive Pool.Step [DecidableEq ι] (act : ι→σ→(o : Op)→Answer o→σ→Prop) (drift : σ→σ→Prop) :
    Pool Op Answer α ι σ→Pool Op Answer α ι σ→Prop
  | turn {P : Pool Op Answer α ι σ} {i : ι} {o : Op} {k : Answer o→Program Op Answer α} {x : Answer o} {t : σ}
      (hk : P.left i=.perform o k) (ha : act i P.world o x t) : Step act drift P ⟨Function.update P.left i (k x),t⟩
  | drift {P : Pool Op Answer α ι σ} {t : σ} (hd : drift P.world t) : Step act drift P ⟨P.left,t⟩

abbrev Pool.Run [DecidableEq ι] (act : ι→σ→(o : Op)→Answer o→σ→Prop) (drift : σ→σ→Prop) :
    Pool Op Answer α ι σ→Pool Op Answer α ι σ→Prop := Relation.ReflTransGen (Pool.Step act drift)

/-- Every operation is asked where its part allows it, when answers change that part as told. -/
def Follows (pre : Op→ρ→Prop) (post : (o : Op)→ρ→Answer o→ρ→Prop) : Program Op Answer α→(α→ρ→Prop)→ρ→Prop
  | .pure a,ends,m => ends a m
  | .perform o k,ends,m => pre o m ∧ ∀x n,post o m x n → (k x).Follows pre post ends n

section Follows
variable {pre : Op→ρ→Prop} {post : (o : Op)→ρ→Answer o→ρ→Prop} {m : ρ}

@[simp] theorem follows_pure {a : α} {ends : α→ρ→Prop} :
    (Program.pure a : Program Op Answer α).Follows pre post ends m↔ends a m := Iff.rfl

theorem follows_perform {o : Op} {k : Answer o→Program Op Answer α} {ends : α→ρ→Prop} :
    (Program.perform o k).Follows pre post ends m↔pre o m ∧ ∀x n,post o m x n →
    (k x).Follows pre post ends n := Iff.rfl

theorem follows_ask {o : Op} {k : Answer o→Program Op Answer α} {ends : α→ρ→Prop} :
    ((ask o).bind k).Follows pre post ends m↔pre o m ∧ ∀x n,post o m x n → (k x).Follows pre post ends n := Iff.rfl

/-- The rule of sequence. -/
theorem follows_bind {p : Program Op Answer α} {f : α→Program Op Answer β} {ends : β→ρ→Prop} :
    (p.bind f).Follows pre post ends m↔p.Follows pre post (fun a n => (f a).Follows pre post ends n) m := by
  induction p generalizing m with
  | pure a => exact Iff.rfl
  | perform o k ih =>
    constructor
    · intro h
      exact ⟨h.1,fun x n hn => (ih x).mp (h.2 x n hn)⟩
    · intro h
      exact ⟨h.1,fun x n hn => (ih x).mpr (h.2 x n hn)⟩

/-- The rule of consequence. -/
theorem Follows.mono {p : Program Op Answer α} {ends ends' : α→ρ→Prop} (h : p.Follows pre post ends m)
    (he : ∀a n,ends a n → ends' a n) : p.Follows pre post ends' m := by
  induction p generalizing m with
  | pure a => exact he a m h
  | perform o k ih => exact ⟨h.1,fun x n hn => ih x (h.2 x n hn)⟩

end Follows

/-- What a turn of a thread keeps of the world, gives to its own part, and leaves to the others. -/
structure Contract (act : ι→σ→(o : Op)→Answer o→σ→Prop) (drift : σ→σ→Prop) (part : ι→σ→ρ) (pre : ι→Op→ρ→Prop)
    (post : ι→(o : Op)→ρ→Answer o→ρ→Prop) (I : σ→Prop) : Prop where
  keeps : ∀i s o x t,I s → pre i o (part i s) → act i s o x t → I t
  gives : ∀i s o x t,I s → pre i o (part i s) → act i s o x t → post i o (part i s) x (part i t)
  leaves : ∀i s o x t,I s → pre i o (part i s) → act i s o x t → ∀j,j≠i → part j t=part j s
  drifts : ∀s t,I s → drift s t → I t ∧ ∀j,part j t=part j s

/-- The world keeps its invariant, and what is left of each thread follows its part of it. -/
structure Pool.Sound (part : ι→σ→ρ) (pre : ι→Op→ρ→Prop) (post : ι→(o : Op)→ρ→Answer o→ρ→Prop) (I : σ→Prop)
    (ends : ι→α→ρ→Prop) (P : Pool Op Answer α ι σ) : Prop where
  holds : I P.world
  follows : ∀i,(P.left i).Follows (pre i) (post i) (ends i) (part i P.world)

section Contract
variable [DecidableEq ι] {act : ι→σ→(o : Op)→Answer o→σ→Prop} {drift : σ→σ→Prop} {part : ι→σ→ρ} {pre : ι→Op→ρ→Prop}
  {post : ι→(o : Op)→ρ→Answer o→ρ→Prop} {I : σ→Prop} {ends : ι→α→ρ→Prop} {P Q : Pool Op Answer α ι σ}

theorem Contract.step (c : Contract act drift part pre post I) (hP : P.Sound part pre post I ends)
    (h : Pool.Step act drift P Q) : Q.Sound part pre post I ends := by
  cases h with
  | @turn i o k x t hk ha =>
    have hi := hP.follows i
    rw [hk,follows_perform] at hi
    constructor
    · exact c.keeps i _ o x t hP.holds hi.1 ha
    · intro j
      by_cases hj : j=i
      · subst hj
        simpa using hi.2 x _ (c.gives j _ o x t hP.holds hi.1 ha)
      · have hleft := c.leaves i _ o x t hP.holds hi.1 ha j hj
        simpa [hj,hleft] using hP.follows j
  | @drift t hd =>
    obtain ⟨hI,hpart⟩ := c.drifts _ t hP.holds hd
    exact ⟨hI,fun j => by simpa [hpart j] using hP.follows j⟩

theorem Contract.run (c : Contract act drift part pre post I) (hP : P.Sound part pre post I ends)
    (h : Pool.Run act drift P Q) : Q.Sound part pre post I ends := by
  induction h with
  | refl => exact hP
  | tail _ hs ih => exact c.step ih hs

end Contract

/-- An operation that a thread is about to ask is one that its part allows. -/
theorem Pool.Sound.asks {part : ι→σ→ρ} {pre : ι→Op→ρ→Prop} {post : ι→(o : Op)→ρ→Answer o→ρ→Prop} {I : σ→Prop}
    {ends : ι→α→ρ→Prop} {P : Pool Op Answer α ι σ} (h : P.Sound part pre post I ends) {i : ι} {o : Op}
    {k : Answer o→Program Op Answer α} (hk : P.left i=.perform o k) : pre i o (part i P.world) := by
  have hi := h.follows i
  rw [hk,follows_perform] at hi
  exact hi.1

end Loftail.Program
