import Mathlib.Data.List.Sort
import Mathlib.Order.Basic

/-! # A sort by key that keeps the order of equals -/
namespace KeyedSort

variable {α κ : Type*} [LinearOrder α] [LinearOrder κ] {key : α→κ}

/-- First by key, then by place. -/
def Before (key : α→κ) (a b : α) : Prop := key a < key b ∨ key a=key b ∧ a<b

/-- An element put in before those it was in front of. -/
theorem orderedInsert_before {a : α} {l : List α} (h : l.Pairwise (Before key)) (hfront : ∀b∈l,a<b) :
    (l.orderedInsert (fun x y => key x ≤ key y) a).Pairwise (Before key) := by
  induction l with
  | nil => exact List.pairwise_singleton _ _
  | cons b l ih =>
    obtain ⟨hb,hl⟩ := List.pairwise_cons.mp h
    have hab := hfront b List.mem_cons_self
    have hal := fun c hc => hfront c (List.mem_cons_of_mem b hc)
    by_cases hkey : key a ≤ key b
    · rw [List.orderedInsert_cons,if_pos hkey]
      apply List.pairwise_cons.mpr
      refine ⟨fun c hc => ?_,h⟩
      have hkeys : key a ≤ key c := by
        obtain rfl | hc := List.mem_cons.mp hc
        · exact hkey
        · obtain hlt | ⟨heq,-⟩ := hb c hc
          · exact hkey.trans hlt.le
          · exact hkey.trans heq.le
      obtain hlt | heq := hkeys.lt_or_eq
      · exact Or.inl hlt
      · exact Or.inr ⟨heq,hfront c hc⟩
    · rw [List.orderedInsert_cons,if_neg hkey]
      apply List.pairwise_cons.mpr
      refine ⟨fun c hc => ?_,ih hl hal⟩
      obtain rfl | hc := List.mem_cons.mp ((List.perm_orderedInsert _ _ _).mem_iff.mp hc)
      · exact Or.inl (lt_of_not_ge hkey)
      · exact hb c hc

/-- A list in the order of places is sorted by key and keeps that order among equals. -/
theorem insertionSort_before {l : List α} (h : l.Pairwise (·<·)) :
    (l.insertionSort (fun x y => key x ≤ key y)).Pairwise (Before key) := by
  induction l with
  | nil => exact List.Pairwise.nil
  | cons a l ih =>
    obtain ⟨hfront,hl⟩ := List.pairwise_cons.mp h
    rw [List.insertionSort_cons]
    exact orderedInsert_before (ih hl) fun b hb => hfront b ((List.mem_insertionSort _).mp hb)

/-- In a list in order, an element stands at the number of those below it. -/
theorem rank_getElem {l : List α} (h : l.Pairwise (·<·)) {a : α} (ha : a∈l) :
    l[(l.filter (·<a)).length]?=some a := by
  induction l with
  | nil => cases ha
  | cons b l ih =>
    obtain ⟨hb,hl⟩ := List.pairwise_cons.mp h
    obtain rfl | ha := List.mem_cons.mp ha
    · have hnone : (a::l).filter (·<a)=[] := by
        apply List.filter_eq_nil_iff.mpr
        intro c hc
        obtain rfl | hc := List.mem_cons.mp hc
        · simp
        · simpa using (hb c hc).le
      rw [hnone]
      rfl
    · rw [List.filter_cons_of_pos (by simpa using hb a ha),List.length_cons,List.getElem?_cons_succ]
      exact ih hl ha

end KeyedSort
