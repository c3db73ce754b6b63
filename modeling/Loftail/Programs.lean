import Mathlib.Tactic.TypeStar

/-! # Programs over operations that a world answers

An operation is answered by a world that others may change in between. What a program asks, and what
it ends with, is told for all answers that the world can give. -/
namespace Loftail

inductive Program (Op : Type) (Answer : Op→Type) (α : Type)
  | pure (a : α)
  | perform (o : Op) (k : Answer o→Program Op Answer α)

namespace Program
variable {Op : Type} {Answer : Op→Type} {α β σ : Type}

def bind : Program Op Answer α→(α→Program Op Answer β)→Program Op Answer β
  | .pure a,f => f a
  | .perform o k,f => .perform o fun x => (k x).bind f

instance : Monad (Program Op Answer) where
  pure := .pure
  bind := bind

/-- One operation. -/
def ask (o : Op) : Program Op Answer (Answer o) := .perform o .pure

/-- Every operation is one of `asks`, and every result one of `ends`, when the answers are among `gives`. -/
def Keeps (gives : (o : Op)→Answer o→Prop) (asks : Op→Prop) (ends : α→Prop) : Program Op Answer α→Prop
  | .pure a => ends a
  | .perform o k => asks o ∧ ∀x,gives o x→(k x).Keeps gives asks ends

/-- A run in a world: each operation is answered by the world as it then is. -/
def Runs (step : σ→(o : Op)→Answer o→σ→Prop) : Program Op Answer α→σ→α→σ→Prop
  | .pure a,s,b,t => a=b ∧ s=t
  | .perform o k,s,b,t => ∃x s',step s o x s' ∧ (k x).Runs step s' b t

@[simp] theorem pure_eq (a : α) : (Pure.pure a : Program Op Answer α)=.pure a := rfl

section Keeps
variable {gives gives' : (o : Op)→Answer o→Prop} {asks asks' : Op→Prop} {ends ends' : α→Prop}
  {p : Program Op Answer α}

@[simp] theorem keeps_pure {a : α} : (Program.pure a).Keeps gives asks ends↔ends a := Iff.rfl

theorem keeps_return {a : α} : (Pure.pure a : Program Op Answer α).Keeps gives asks ends↔ends a := Iff.rfl

theorem keeps_ask {o : Op} {f : Answer o→Program Op Answer α} :
    ((ask o).bind f).Keeps gives asks ends↔asks o ∧ ∀x,gives o x→(f x).Keeps gives asks ends := Iff.rfl

theorem Keeps.mono (h : p.Keeps gives asks ends) (hgives : ∀o x,gives' o x → gives o x)
    (hasks : ∀o,asks o → asks' o) (hends : ∀a,ends a → ends' a) : p.Keeps gives' asks' ends' := by
  induction p with
  | pure a => exact hends a h
  | perform o k ih => exact ⟨hasks o h.1,fun x hx => ih x (h.2 x (hgives o x hx))⟩

/-- Nothing is asked of a program of which nothing is asked. -/
theorem keeps_trivial (hasks : ∀o,asks o) (hends : ∀a,ends a) (p : Program Op Answer α) :
    p.Keeps gives asks ends := by
  induction p with
  | pure a => exact hends a
  | perform o k ih => exact ⟨hasks o,fun x _ => ih x⟩

theorem Keeps.bind {f : α→Program Op Answer β} {ends' : β→Prop} (h : p.Keeps gives asks ends)
    (hf : ∀a,ends a → (f a).Keeps gives asks ends') : (p.bind f).Keeps gives asks ends' := by
  induction p with
  | pure a => exact hf a h
  | perform o k ih => exact ⟨h.1,fun x hx => ih x (h.2 x hx)⟩

theorem Keeps.and {p : Program Op Answer α} (h : p.Keeps gives asks ends) (h' : p.Keeps gives asks' ends') :
    p.Keeps gives (fun o => asks o ∧ asks' o) (fun a => ends a ∧ ends' a) := by
  induction p with
  | pure a => exact ⟨h,h'⟩
  | perform o k ih => exact ⟨⟨h.1,h'.1⟩,fun x hx => ih x (h.2 x hx) (h'.2 x hx)⟩

end Keeps

section Runs
variable {step : σ→(o : Op)→Answer o→σ→Prop} {s t : σ}

theorem runs_ask {o : Op} {f : Answer o→Program Op Answer β} {b : β} :
    ((ask o).bind f).Runs step s b t↔∃x s',step s o x s' ∧ (f x).Runs step s' b t := Iff.rfl

theorem runs_bind {p : Program Op Answer α} {f : α→Program Op Answer β} {b : β} :
    (p.bind f).Runs step s b t↔∃a m,p.Runs step s a m ∧ (f a).Runs step m b t := by
  induction p generalizing s with
  | pure a =>
    constructor
    · intro h
      exact ⟨a,s,⟨rfl,rfl⟩,h⟩
    · rintro ⟨_,_,⟨rfl,rfl⟩,h⟩
      exact h
  | perform o k ih =>
    constructor
    · rintro ⟨x,s',hs,h⟩
      obtain ⟨a,m,ha,hb⟩ := (ih x).mp h
      exact ⟨a,m,⟨x,s',hs,ha⟩,hb⟩
    · rintro ⟨a,m,⟨x,s',hs,ha⟩,hb⟩
      exact ⟨x,s',hs,(ih x).mpr ⟨a,m,ha,hb⟩⟩

/-- What a program ends with, wherever it runs. -/
theorem Keeps.runs {p : Program Op Answer α} {gives : (o : Op)→Answer o→Prop} {asks : Op→Prop}
    {ends : α→Prop} {a : α} (h : p.Keeps gives asks ends) (hgives : ∀s o x s',step s o x s' → gives o x)
    (hr : p.Runs step s a t) : ends a := by
  induction p generalizing s with
  | pure b =>
    obtain ⟨rfl,-⟩ := hr
    exact h
  | perform o k ih =>
    obtain ⟨x,s',hs,hk⟩ := hr
    exact ih x (h.2 x (hgives _ _ _ _ hs)) hk

end Runs

end Program

end Loftail
