import Mathlib.Data.List.Basic
import Mathlib.Data.Nat.Notation

/-! # Wildcards, and the texts they describe

Which characters a sign may stand for is given: `P` of a run and of a single one. -/
namespace Loftail.Wildcards

inductive Sign (α : Type*)
  /-- Any run of characters. -/
  | run
  /-- Exactly one character. -/
  | one
  | itself (a : α)
  deriving DecidableEq,Repr

section
variable {α : Type*} {P Q : α→Prop} {w w' : List (Sign α)} {t : List α} {a : α}

/-- A text read sign by sign. -/
def Reading (P : α→Prop) : List (Sign α)→List α→Prop
  | [],t => t=[]
  | .run::w,t => ∃u v,t=u++v ∧ (∀a∈u,P a) ∧ Reading P w v
  | .one::w,t => ∃a v,t=a::v ∧ P a ∧ Reading P w v
  | .itself a::w,t => ∃v,t=a::v ∧ Reading P w v

theorem Reading.mono (hPQ : ∀a,P a → Q a) (h : Reading P w t) : Reading Q w t := by
  induction w generalizing t with
  | nil => exact h
  | cons s w ih =>
    cases s with
    | run =>
      obtain ⟨u,v,ht,hu,hv⟩ := h
      exact ⟨u,v,ht,fun a ha => hPQ a (hu a ha),ih hv⟩
    | one =>
      obtain ⟨a,v,ht,ha,hv⟩ := h
      exact ⟨a,v,ht,hPQ a ha,ih hv⟩
    | itself =>
      obtain ⟨v,ht,hv⟩ := h
      exact ⟨v,ht,ih hv⟩

/-- A run stands for nothing, or takes one character more. -/
theorem reading_run_cons : Reading P (.run::w) (a::t)↔Reading P w (a::t) ∨ P a ∧ Reading P (.run::w) t := by
  constructor
  · rintro ⟨u,v,ht,hu,hv⟩
    cases u with
    | nil => exact .inl (ht▸hv)
    | cons b u =>
      obtain ⟨rfl,rfl⟩ := List.cons.inj ht
      exact .inr ⟨hu _ List.mem_cons_self,u,v,rfl,fun b hb => hu b (List.mem_cons_of_mem _ hb),hv⟩
  · rintro (h | ⟨ha,u,v,rfl,hu,hv⟩)
    · exact ⟨[],_,rfl,by simp,h⟩
    · refine ⟨a::u,v,rfl,?_,hv⟩
      intro b hb
      rcases List.mem_cons.mp hb with rfl | hb
      · exact ha
      · exact hu b hb

private theorem reading_run_nil : Reading P (.run::w) []↔Reading P w [] := by
  constructor
  · rintro ⟨u,v,ht,-,hv⟩
    obtain ⟨-,rfl⟩ := List.append_eq_nil_iff.mp ht.symm
    exact hv
  · intro h
    exact ⟨[],[],rfl,by simp,h⟩

end

section
variable {α : Type*} [DecidableEq α] {p : α→Bool} {w : List (Sign α)} {t : List α}

/-- A run of characters of `p`, and then what `k` takes. -/
def afterRun (p : α→Bool) (k : List α→Bool) : List α→Bool
  | [] => k []
  | a::t => k (a::t) || p a && afterRun p k t

/-- The reading, tried out. -/
def reads (p : α→Bool) : List (Sign α)→List α→Bool
  | [],t => t.isEmpty
  | .run::w,t => afterRun p (reads p w) t
  | .one::_,[] => false
  | .one::w,a::t => p a && reads p w t
  | .itself _::_,[] => false
  | .itself b::w,a::t => a=b && reads p w t

theorem reads_iff : reads p w t=true↔Reading (fun a => p a=true) w t := by
  induction w generalizing t with
  | nil => exact List.isEmpty_iff
  | cons s w ih =>
    cases s with
    | run =>
      induction t with
      | nil => rw [reading_run_nil,← ih]; rfl
      | cons a t iht =>
        rw [reading_run_cons,← iht,← ih]
        show (reads p w (a::t) || p a && afterRun p (reads p w) t)=true ↔ _
        rw [Bool.or_eq_true,Bool.and_eq_true]
        rfl
    | one =>
      cases t with
      | nil => simp [reads,Reading]
      | cons a t => simp [reads,Reading,ih]
    | itself b =>
      cases t with
      | nil => simp [reads,Reading]
      | cons a t => simp [reads,Reading,ih]

end
end Loftail.Wildcards
