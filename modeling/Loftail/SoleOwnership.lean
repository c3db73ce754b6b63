import Mathlib.Data.List.Perm.Basic
import Mathlib.Logic.Function.Basic

/-! # Things with one owner

Each owner holds some things, a store holds others, and what is gone is held by nobody. Whatever an owner
exchanges with the store, makes new or puts an end to, nothing comes to have two owners. -/
namespace Loftail
variable {ι τ : Type} {known known' : τ→Prop} {own : ι→List τ} {store store' gone : List τ}

/-- Nothing is held twice, nor held and gone; all that is about is known. -/
structure Sole (known : τ→Prop) (own : ι→List τ) (store gone : List τ) : Prop where
  nodup : ∀i,(own i++store).Nodup
  apart : ∀i j,i≠j → (own i).Disjoint (own j)
  lost : ∀x∈gone,x∉store ∧ ∀i,x∉own i
  owned : ∀i,∀x∈own i,known x
  stored : ∀x∈store,known x
  past : ∀x∈gone,known x

namespace Sole

theorem empty : Sole known (fun _ : ι => []) [] [] where
  nodup _ := List.nodup_nil
  apart _ _ _ := List.disjoint_nil_left _
  lost _ hx := nomatch hx
  owned _ _ hx := nomatch hx
  stored _ hx := nomatch hx
  past _ hx := nomatch hx

theorem unstored (h : Sole known own store gone) {i : ι} {x : τ} (hx : x∈own i) : x∉store :=
  fun hs => (List.nodup_append.mp (h.nodup i)).2.2 x hx x hs rfl

theorem alive (h : Sole known own store gone) {i : ι} {x : τ} (hx : x∈own i) : x∉gone :=
  fun hg => (h.lost x hg).2 i hx

theorem unique (h : Sole known own store gone) {i j : ι} {x : τ} (hi : x∈own i) (hj : x∈own j) : i=j :=
  Classical.byContradiction fun hij => h.apart i j hij hi hj

/-- Owner `i` exchanges: what it then holds, what the store then holds and what has died is what the two held
before and what is new. -/
theorem exchange [DecidableEq ι] (h : Sole known own store gone) {i : ι} {mine fresh dead : List τ}
    (hp : (mine++store'++dead).Perm (fresh++(own i++store))) (hfresh : fresh.Nodup)
    (hnew : ∀x∈fresh,¬known x ∧ known' x) (hmono : ∀x,known x → known' x) :
    Sole known' (Function.update own i mine) store' (dead++gone) := by
  have hbefore : (fresh++(own i++store)).Nodup := by
    refine List.nodup_append.mpr ⟨hfresh,h.nodup i,?_⟩
    intro x hx y hy hxy
    subst hxy
    obtain hy | hy := List.mem_append.mp hy
    · exact (hnew x hx).1 (h.owned i x hy)
    · exact (hnew x hx).1 (h.stored x hy)
  have hafter : (mine++store'++dead).Nodup := hp.nodup_iff.mpr hbefore
  have hfrom : ∀x∈mine++store'++dead,x∈fresh ∨ x∈own i ∨ x∈store := by
    intro x hx
    simpa using hp.subset hx
  have hknown : ∀x∈mine++store'++dead,known' x := by
    intro x hx
    obtain hx | hx | hx := hfrom x hx
    · exact (hnew x hx).2
    · exact hmono x (h.owned i x hx)
    · exact hmono x (h.stored x hx)
  have others : ∀j,j≠i → ∀x∈mine++store'++dead,x∉own j := by
    intro j hj x hx hxj
    obtain hx | hx | hx := hfrom x hx
    · exact (hnew x hx).1 (h.owned j x hxj)
    · exact h.apart i j (Ne.symm hj) hx hxj
    · exact h.unstored hxj hx
  have still : ∀x∈gone,x∉mine++store'++dead := by
    intro x hx hm
    obtain hm | hm | hm := hfrom x hm
    · exact (hnew x hm).1 (h.past x hx)
    · exact (h.lost x hx).2 i hm
    · exact (h.lost x hx).1 hm
  have hlive := (List.nodup_append.mp hafter).1
  have hdead := (List.nodup_append.mp hafter).2.2
  constructor
  · intro j
    by_cases hj : j=i
    · subst hj
      simpa using hlive
    · rw [Function.update_of_ne hj]
      refine List.nodup_append.mpr ⟨(List.nodup_append.mp (h.nodup j)).1,(List.nodup_append.mp hlive).2.1,?_⟩
      intro x hx y hy hxy
      subst hxy
      exact others j hj x (by simp [hy]) hx
  · intro j k hjk
    by_cases hj : j=i
    · subst hj
      rw [Function.update_self,Function.update_of_ne (Ne.symm hjk)]
      exact fun x hx hk => others k (Ne.symm hjk) x (by simp [hx]) hk
    · rw [Function.update_of_ne hj]
      by_cases hk : k=i
      · subst hk
        rw [Function.update_self]
        exact fun x hx hm => others j hj x (by simp [hm]) hx
      · rw [Function.update_of_ne hk]
        exact h.apart j k hjk
  · intro x hx
    obtain hx | hx := List.mem_append.mp hx
    · refine ⟨fun hs => hdead x (by simp [hs]) x hx rfl,fun j hj => ?_⟩
      by_cases hji : j=i
      · subst hji
        rw [Function.update_self] at hj
        exact hdead x (by simp [hj]) x hx rfl
      · rw [Function.update_of_ne hji] at hj
        exact others j hji x (by simp [hx]) hj
    · refine ⟨fun hs => still x hx (by simp [hs]),fun j hj => ?_⟩
      by_cases hji : j=i
      · subst hji
        rw [Function.update_self] at hj
        exact still x hx (by simp [hj])
      · rw [Function.update_of_ne hji] at hj
        exact (h.lost x hx).2 j hj
  · intro j x hx
    by_cases hj : j=i
    · subst hj
      rw [Function.update_self] at hx
      exact hknown x (by simp [hx])
    · rw [Function.update_of_ne hj] at hx
      exact hmono x (h.owned j x hx)
  · exact fun x hx => hknown x (by simp [hx])
  · intro x hx
    obtain hx | hx := List.mem_append.mp hx
    · exact hknown x (by simp [hx])
    · exact hmono x (h.past x hx)

/-- An exchange in which nothing is made. -/
theorem transfer [DecidableEq ι] (h : Sole known own store gone) {i : ι} {mine : List τ} (dead : List τ)
    (hp : (mine++store'++dead).Perm (own i++store)) :
    Sole known (Function.update own i mine) store' (dead++gone) := by
  have hp' : (mine++store'++dead).Perm ([]++(own i++store)) := hp
  exact h.exchange hp' List.nodup_nil (fun _ hx => nomatch hx) (fun _ hx => hx)

end Sole

end Loftail
