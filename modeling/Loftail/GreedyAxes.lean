import Mathlib.Data.Finset.Card
import Mathlib.Data.Finset.Image
import Mathlib.Data.List.Dedup
import Mathlib.Data.Multiset.Dedup

/-! # Choosing what to tell things apart by, one axis at a time

An axis is kept where it raises the number of different labels. Where labels that read the
same are built from the same values, things that end up with one label differ on no axis. -/
namespace Loftail.GreedyAxes

section Counting
variable {α β : Type*} [DecidableEq β] {xs : List α} {f g : α→β}

/-- How many different ones there are. -/
def distinct (xs : List β) : ℕ := xs.dedup.length

private theorem distinct_perm {xs ys : List β} (h : xs.Perm ys) : distinct xs=distinct ys := h.dedup.length_eq

theorem distinct_card (xs : List β) : distinct xs=xs.toFinset.card := (List.card_toFinset xs).symm

/-- What `g` determines has no more values than `g`; where it has as many it determines `g`. -/
theorem determines_of_distinct (h : ∀a∈xs,∀b∈xs,g a=g b→f a=f b) (hle : distinct (xs.map g)≤distinct (xs.map f)) :
    ∀a∈xs,∀b∈xs,f a=f b → g a=g b := by
  let pairs := (xs.map fun a => (g a,f a)).toFinset
  have hmem {a : α} (ha : a∈xs) : (g a,f a)∈pairs := List.mem_toFinset.mpr (List.mem_map_of_mem ha)
  have hcases {p : β×β} (hp : p∈pairs) : ∃a∈xs,(g a,f a)=p := List.mem_map.mp (List.mem_toFinset.mp hp)
  have hfst : (xs.map g).toFinset=pairs.image Prod.fst := by
    ext b
    simp [pairs]
  have hsnd : (xs.map f).toFinset=pairs.image Prod.snd := by
    ext b
    simp [pairs]
  have hfine : Set.InjOn Prod.fst (pairs : Set (β×β)) := by
    intro p hp p' hp' heq
    obtain ⟨a,ha,rfl⟩ := hcases hp
    obtain ⟨b,hb,rfl⟩ := hcases hp'
    exact Prod.ext heq (h a ha b hb heq)
  have hcoarse : Set.InjOn Prod.snd (pairs : Set (β×β)) := by
    rw [distinct_card,distinct_card,hfst,hsnd,Finset.card_image_of_injOn hfine] at hle
    exact Finset.card_image_iff.mp (Nat.le_antisymm Finset.card_image_le hle)
  intro a ha b hb heq
  exact congrArg Prod.fst (hcoarse (hmem ha) (hmem hb) heq)

/-- As many values as there are elements: no two share one. -/
theorem nodup_of_distinct (h : xs.length≤distinct (xs.map f)) : (xs.map f).Nodup := by
  have hlen : (xs.map f).dedup.length=(xs.map f).length :=
    Nat.le_antisymm (List.dedup_sublist _).length_le (by rwa [List.length_map])
  exact List.dedup_eq_self.mp ((List.dedup_sublist _).eq_of_length hlen)

end Counting

section Choice
variable {ι α β V : Type*} [DecidableEq β] (label : List ι→α→β) (value : ι→α→V) (xs : List α)

/-- The axes that are kept: each of `axes` in turn, while some label is shared, where it raises the count. -/
def choose : List ι→List ι→List ι
  | [],use => use
  | i::axes,use =>
    if distinct (xs.map (label use))<xs.length then
      choose axes (if distinct (xs.map (label use))<distinct (xs.map (label (use++[i]))) then use++[i] else use)
    else use

variable {label value xs}

theorem choose_perm {ys : List α} (h : xs.Perm ys) (axes use : List ι) :
    choose label xs axes use=choose label ys axes use := by
  have hcount (use : List ι) : distinct (xs.map (label use))=distinct (ys.map (label use)) :=
    distinct_perm (h.map _)
  induction axes generalizing use with
  | nil => rfl
  | cons i axes ih => rw [choose,choose,hcount,hcount,h.length_eq,ih]

/-- Things with one label at the end are one, or agree on every axis that was offered. -/
theorem choose_agree {axes use : List ι} {a b : α} (ha : a∈xs) (hb : b∈xs)
    (htells : ∀more,∀a∈xs,∀b∈xs,label (use++more) a=label (use++more) b→∀i∈use++more,value i a=value i b)
    (hbuilt : ∀use,∀a∈xs,∀b∈xs,(∀i∈use,value i a=value i b)→label use a=label use b)
    (heq : label (choose label xs axes use) a=label (choose label xs axes use) b) :
    a=b ∨ ∀i∈use++axes,value i a=value i b := by
  induction axes generalizing use with
  | nil =>
    have hall := htells []
    rw [List.append_nil] at hall ⊢
    exact Or.inr (hall a ha b hb heq)
  | cons i axes ih =>
    rw [choose] at heq
    split at heq
    · split at heq
      · have hall := ih (fun more => by rw [List.append_assoc]; exact htells (i::more)) heq
        rwa [List.append_assoc] at hall
      · rename_i hcount
        refine (ih htells heq).imp_right fun hall => ?_
        -- The axis bought nothing, so that labels without it tell what labels with it tell.
        have hcoarse : ∀a∈xs,∀b∈xs,label (use++[i]) a=label (use++[i]) b→label use a=label use b := by
          intro a ha b hb h
          exact hbuilt use a ha b hb fun j hj => htells [i] a ha b hb h j (List.mem_append_left _ hj)
        have hsame : label use a=label use b := hbuilt use a ha b hb fun j hj => hall j (List.mem_append_left _ hj)
        have hwith := determines_of_distinct hcoarse (Nat.le_of_not_lt hcount) a ha b hb hsame
        intro j hj
        rcases List.mem_append.mp hj with hj | hj
        · exact hall j (List.mem_append_left _ hj)
        rcases List.mem_cons.mp hj with rfl | hj
        · exact htells [j] a ha b hb hwith j (List.mem_append_right _ (List.mem_singleton.mpr rfl))
        · exact hall j (List.mem_append_right _ hj)
    · rename_i hfull
      exact Or.inl (List.inj_on_of_nodup_map (nodup_of_distinct (Nat.le_of_not_lt hfull)) ha hb heq)

end Choice

end Loftail.GreedyAxes
