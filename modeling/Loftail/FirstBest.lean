import Mathlib.Data.List.MinMax

/-! # The first best of a list

A loop that keeps what it has unless something better comes ends with the first element that none is
better than. -/
namespace Loftail.FirstBest

variable {α β : Type*}

/-- What is kept when another one comes. -/
def keep (better : α→α→Bool) (best : Option α) (a : α) : Option α :=
  match best with
  | none => some a
  | some b => if better a b then some a else some b

/-- What is left of a list. -/
def bestOf (better : α→α→Bool) (xs : List α) : Option α := xs.foldl (keep better) none

/-- Everything before it ranks lower and nothing after it ranks higher. -/
def IsFirst [LT β] [LE β] (rank : α→β) (xs : List α) (m : α) : Prop :=
  ∃before after,xs=before++m::after ∧ (∀a∈before,rank a<rank m) ∧ ∀a∈after,rank a≤rank m

variable [LinearOrder β] {rank : α→β} {better : α→α→Bool} {xs : List α} {m : α}

/-- Better by rank is the largest by rank. -/
theorem bestOf_argmax (h : ∀a b,better a b=true ↔ rank b<rank a) : bestOf better xs=xs.argmax rank := by
  have hkeep : keep better=List.argAux fun b c => rank c<rank b := by
    funext best a
    cases best with
    | none => rfl
    | some b =>
      show (if better a b then some a else some b)=if rank b<rank a then some a else some b
      simp only [h]
  rw [bestOf,hkeep]
  rfl

private theorem argmax_isFirst (h : xs.argmax rank=some m) : IsFirst rank xs m := by
  induction xs using List.reverseRecOn generalizing m with
  | nil => cases h
  | append_singleton xs a ih =>
    rw [List.argmax_concat] at h
    cases hbest : xs.argmax rank with
    | none =>
      rw [hbest] at h
      cases h
      rw [List.argmax_eq_none.mp hbest]
      exact ⟨[],[],rfl,by simp,by simp⟩
    | some c =>
      rw [hbest] at h
      change (if rank c<rank a then some a else some c)=some m at h
      obtain ⟨before,after,rfl,hbefore,hafter⟩ := ih hbest
      split at h
      · rename_i hlt
        cases h
        refine ⟨before++c::after,[],rfl,?_,by simp⟩
        intro x hx
        rcases List.mem_append.mp hx with hx | hx
        · exact (hbefore x hx).trans hlt
        rcases List.mem_cons.mp hx with rfl | hx
        · exact hlt
        · exact (hafter x hx).trans_lt hlt
      · rename_i hle
        cases h
        refine ⟨before,after++[a],by simp,hbefore,?_⟩
        intro x hx
        rcases List.mem_append.mp hx with hx | hx
        · exact hafter x hx
        · obtain rfl := List.mem_singleton.mp hx
          exact le_of_not_gt hle

theorem bestOf_isFirst (h : ∀a b,better a b=true ↔ rank b<rank a) (hm : bestOf better xs=some m) :
    IsFirst rank xs m := by
  rw [bestOf_argmax h] at hm
  exact argmax_isFirst hm

theorem IsFirst.mem (h : IsFirst rank xs m) : m∈xs := by
  obtain ⟨before,after,rfl,-⟩ := h
  simp

theorem IsFirst.le {a : α} (h : IsFirst rank xs m) (ha : a∈xs) : rank a≤rank m := by
  obtain ⟨before,after,rfl,hbefore,hafter⟩ := h
  rcases List.mem_append.mp ha with ha | ha
  · exact (hbefore a ha).le
  rcases List.mem_cons.mp ha with rfl | ha
  · exact le_rfl
  · exact hafter a ha

end Loftail.FirstBest
