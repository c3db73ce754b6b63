import Mathlib.Data.List.TakeWhile
import Loftail.RegularLanguage

/-! # What a backtracking engine finds first

The engine tries the matches of an expression in an order: one expression after another is matched by the first
match of the one that lets the other match. Where each trial ends is what the language of the expression says. -/
namespace Loftail.RegularLanguage.Re

variable {κ α : Type*}

/-- No text of the class goes on to another. -/
def PrefixFree (l : Language α) : Prop := ∀u∈l,∀v∈l,u<+:v→u=v

private theorem prefixFree_units (p : α→Bool) : PrefixFree (units p) := by
  rintro _ ⟨x,rfl,-⟩ _ ⟨y,rfl,-⟩ h
  exact h.eq_of_length rfl

/-- The trials of an expression at the front of a text, in order: where each ends, and what its groups took. -/
structure Trials (has : κ→Language α) where
  run : Re κ→List α→List (ℕ×List (List α))
  run_empty (s : List α) : run .empty s=[(0,[])]
  run_seq (a b : Re κ) (s : List α) : run (.seq a b) s=
    (run a s).flatMap fun t => (run b (s.drop t.1)).map fun u => (t.1+u.1,t.2++u.2)
  run_alt (a b : Re κ) (s : List α) : run (.alt a b) s=
    (run a s).map (fun t => (t.1,t.2++List.replicate b.groupCount []))++
      (run b s).map fun t => (t.1,List.replicate a.groupCount []++t.2)
  run_group (r : Re κ) (s : List α) : run (.group r) s=(run r s).map fun t => (t.1,s.take t.1::t.2)
  run_plain (r : Re κ) (s : List α) : run (.plain r) s=run r s
  mem_run_cls (k : κ) (s : List α) (n : ℕ) : (∃caps,(n,caps)∈run (.cls k) s) ↔ n ≤ s.length ∧ s.take n∈has k
  mem_run_rep (r : Re κ) (q : Quantifier) (s : List α) (n : ℕ) :
    (∃caps,(n,caps)∈run (.rep r q) s) ↔ n ≤ s.length ∧ s.take n∈language has (.rep r q)
  caps_cls (k : κ) (s : List α) {t : ℕ×List (List α)} : t∈run (.cls k) s→t.2.length=0
  caps_rep (r : Re κ) (q : Quantifier) (s : List α) {t : ℕ×List (List α)} :
    t∈run (.rep r q) s→t.2.length=r.groupCount
  greedy (k : κ) (s : List α) : PrefixFree (has k)→(run (.rep (.cls k) .star) s).Pairwise fun t u => u.1≤t.1

namespace Trials

variable {has : κ→Language α} {T : Trials has} {a b r : Re κ} {rs rs' : List (Re κ)} {k : κ}
  {p : α→Bool} {s : List α}
  {n : ℕ} {t u : ℕ×List (List α)}

/-- The trials end where the language of the expression says that it matches. -/
theorem mem_run : (∃caps,(n,caps)∈T.run r s) ↔ n ≤ s.length ∧ s.take n∈language has r := by
  induction r generalizing s n with
  | empty =>
    rw [T.run_empty,mem_empty,List.take_eq_nil_iff]
    constructor
    · rintro ⟨caps,hcaps⟩
      obtain ⟨rfl,-⟩ := Prod.mk.inj (List.mem_singleton.mp hcaps)
      exact ⟨Nat.zero_le _,.inl rfl⟩
    · rintro ⟨hle,rfl | rfl⟩
      · exact ⟨[],List.mem_singleton_self _⟩
      · obtain rfl := Nat.le_zero.mp hle
        exact ⟨[],List.mem_singleton_self _⟩
  | cls k => exact T.mem_run_cls k s n
  | rep r q _ => exact T.mem_run_rep r q s n
  | plain r ih => exact (by rw [T.run_plain]; exact ih)
  | group r ih =>
    rw [T.run_group]
    constructor
    · rintro ⟨caps,hcaps⟩
      obtain ⟨t,ht,heq⟩ := List.mem_map.mp hcaps
      obtain ⟨rfl,-⟩ := Prod.mk.inj heq
      exact ih.mp ⟨t.2,ht⟩
    · intro h
      obtain ⟨caps,hcaps⟩ := ih.mpr h
      exact ⟨_,List.mem_map.mpr ⟨_,hcaps,rfl⟩⟩
  | alt a b iha ihb =>
    rw [T.run_alt]
    constructor
    · rintro ⟨caps,hcaps⟩
      rcases List.mem_append.mp hcaps with hcaps | hcaps
      · obtain ⟨t,ht,heq⟩ := List.mem_map.mp hcaps
        obtain ⟨rfl,-⟩ := Prod.mk.inj heq
        exact (iha.mp ⟨t.2,ht⟩).imp_right .inl
      · obtain ⟨t,ht,heq⟩ := List.mem_map.mp hcaps
        obtain ⟨rfl,-⟩ := Prod.mk.inj heq
        exact (ihb.mp ⟨t.2,ht⟩).imp_right .inr
    · rintro ⟨hle,h | h⟩
      · obtain ⟨caps,hcaps⟩ := iha.mpr ⟨hle,h⟩
        exact ⟨_,List.mem_append_left _ (List.mem_map.mpr ⟨_,hcaps,rfl⟩)⟩
      · obtain ⟨caps,hcaps⟩ := ihb.mpr ⟨hle,h⟩
        exact ⟨_,List.mem_append_right _ (List.mem_map.mpr ⟨_,hcaps,rfl⟩)⟩
  | seq a b iha ihb =>
    rw [T.run_seq]
    constructor
    · rintro ⟨caps,hcaps⟩
      obtain ⟨t,ht,hcaps⟩ := List.mem_flatMap.mp hcaps
      obtain ⟨u,hu,heq⟩ := List.mem_map.mp hcaps
      obtain ⟨rfl,-⟩ := Prod.mk.inj heq
      obtain ⟨hle,hta⟩ := iha.mp ⟨t.2,ht⟩
      obtain ⟨hle',hub⟩ := ihb.mp ⟨u.2,hu⟩
      rw [List.length_drop] at hle'
      refine ⟨by omega,?_⟩
      rw [List.take_add]
      exact append_mem_seq hta hub
    · rintro ⟨hle,h⟩
      obtain ⟨x,hx,y,hy,hxy⟩ := mem_seq.mp h
      have hlen := congrArg List.length hxy
      rw [List.length_append,List.length_take_of_le hle] at hlen
      have hsplit : s=x++(y++s.drop n) := by rw [← List.append_assoc,hxy,List.take_append_drop]
      obtain ⟨caps,hcaps⟩ := iha.mpr ⟨(by omega : x.length ≤ s.length),by rw [hsplit,List.take_left]; exact hx⟩
      have hdrop : s.drop x.length=y++s.drop n := by
        conv_lhs => rw [hsplit,List.drop_left]
      obtain ⟨caps',hcaps'⟩ := (ihb (s:=s.drop x.length) (n:=y.length)).mpr
        ⟨by rw [List.length_drop]; omega,by rw [hdrop,List.take_left]; exact hy⟩
      refine ⟨caps++caps',List.mem_flatMap.mpr ⟨_,hcaps,List.mem_map.mpr ⟨_,hcaps',?_⟩⟩⟩
      rw [hlen]

/-- Every trial has an answer for every group. -/
theorem caps_run (h : t∈T.run r s) : t.2.length=r.groupCount := by
  induction r generalizing s t with
  | empty =>
    rw [T.run_empty] at h
    obtain rfl := List.mem_singleton.mp h
    rfl
  | cls k => exact T.caps_cls k s h
  | rep r q _ => exact T.caps_rep r q s h
  | plain r ih =>
    rw [T.run_plain] at h
    exact ih h
  | group r ih =>
    rw [T.run_group] at h
    obtain ⟨u,hu,rfl⟩ := List.mem_map.mp h
    exact congrArg (·+1) (ih hu)
  | alt a b iha ihb =>
    rw [T.run_alt] at h
    rcases List.mem_append.mp h with h | h
    · obtain ⟨u,hu,rfl⟩ := List.mem_map.mp h
      simp [iha hu,groupCount]
    · obtain ⟨u,hu,rfl⟩ := List.mem_map.mp h
      simp [ihb hu,groupCount]
  | seq a b iha ihb =>
    rw [T.run_seq] at h
    obtain ⟨u,hu,h⟩ := List.mem_flatMap.mp h
    obtain ⟨v,hv,rfl⟩ := List.mem_map.mp h
    rw [List.length_append,iha hu,ihb hv,groupCount]

/-- One list of expressions after another. -/
theorem run_all_append : T.run (.all (rs++rs')) s=
    (T.run (.all rs) s).flatMap fun t => (T.run (.all rs') (s.drop t.1)).map fun u => (t.1+u.1,t.2++u.2) := by
  induction rs generalizing s with
  | nil =>
    have hnil : T.run (.all []) s=[(0,[])] := T.run_empty s
    simp [hnil]
  | cons r rs ih =>
    have hcons : ∀rs s,T.run (.all (r::rs)) s=
        (T.run r s).flatMap fun t => (T.run (.all rs) (s.drop t.1)).map fun u => (t.1+u.1,t.2++u.2) :=
      fun rs s => T.run_seq r (.all rs) s
    rw [List.cons_append,hcons,hcons,List.flatMap_assoc]
    congr 1
    funext t
    rw [ih,List.map_flatMap,List.flatMap_map]
    congr 1
    funext u
    rw [List.map_map,List.drop_drop]
    congr 1
    funext v
    simp [Nat.add_assoc]

theorem run_all_singleton : T.run (.all [r]) s=T.run r s := by
  show T.run (.seq r .empty) s=_
  rw [T.run_seq]
  simp [T.run_empty]

/-- The first trial. -/
def First (T : Trials has) (r : Re κ) (s : List α) (t : ℕ×List (List α)) : Prop := (T.run r s).head?=some t

theorem First.group (h : T.First r s t) : T.First (.group r) s (t.1,s.take t.1::t.2) := by
  rw [First] at h
  rw [First,T.run_group,List.head?_map,h]
  rfl

theorem First.append (h : T.First (.all rs) s t) (h' : T.First (.all rs') (s.drop t.1) u) :
    T.First (.all (rs++rs')) s (t.1+u.1,t.2++u.2) := by
  rw [First,List.head?_eq_some_iff] at h h'
  obtain ⟨ts,hts⟩ := h
  obtain ⟨us,hus⟩ := h'
  rw [First,run_all_append,hts,List.flatMap_cons,hus]
  rfl

theorem first_singleton : T.First (.all [r]) s t ↔ T.First r s t := by
  rw [First,First,run_all_singleton]

/-- Greedy repetition takes all it can first. -/
theorem first_star (hk : PrefixFree (has k)) (hn : n ≤ s.length ∧ s.take n∈language has (.rep (.cls k) .star))
    (hmax : ∀m,m ≤ s.length→s.take m∈language has (.rep (.cls k) .star)→m≤n) : T.First
    (.rep (.cls k) .star) s (n,[]) := by
  obtain ⟨caps,hcaps⟩ := (T.mem_run_rep (.cls k) .star s n).mpr hn
  have hgreedy := T.greedy k s hk
  rw [First]
  cases hrun : T.run (.rep (.cls k) .star) s with
  | nil =>
    rw [hrun] at hcaps
    cases hcaps
  | cons t ts =>
    have hle : n≤t.1 := by
      rw [hrun] at hcaps hgreedy
      rcases List.mem_cons.mp hcaps with rfl | hcaps
      · exact Nat.le_refl _
      · exact (List.pairwise_cons.mp hgreedy).1 _ hcaps
    have hin : t∈T.run (.rep (.cls k) .star) s := hrun ▸ List.mem_cons_self
    obtain ⟨hlen,ht⟩ := (T.mem_run_rep (.cls k) .star s t.1).mp ⟨t.2,hin⟩
    have hcount : t.2=[] := List.length_eq_zero_iff.mp (caps_run hin)
    rw [List.head?_cons]
    congr 1
    exact Prod.ext (Nat.le_antisymm (hmax _ hlen ht) hle) hcount

/-- Of single characters it takes a run. -/
theorem first_run (hk : has k=units p) : T.First (.rep (.cls k) .star) s ((s.takeWhile p).length,[]) := by
  have hmem : ∀n,s.take n∈language has (.rep (.cls k) .star) ↔ ∀x∈s.take n,p x=true := by
    intro n
    rw [mem_rep_units hk]
    exact and_iff_right trivial
  apply first_star (hk▸prefixFree_units p)
  · refine ⟨(List.takeWhile_prefix p).length_le,(hmem _).mpr fun x hx => ?_⟩
    rw [← List.prefix_iff_eq_take.mp (List.takeWhile_prefix p)] at hx
    exact List.mem_takeWhile_imp hx
  · intro m hle ht
    have hpos : (s.take m++s.drop m).takeWhile p=s.take m++(s.drop m).takeWhile p :=
      List.takeWhile_append_of_pos ((hmem m).mp ht)
    rw [List.take_append_drop] at hpos
    rw [hpos,List.length_append,List.length_take_of_le hle]
    omega

/-- Or it takes everything. -/
theorem first_all (hk : PrefixFree (has k)) (h : s∈language has (.rep (.cls k) .star)) :
    T.First (.rep (.cls k) .star) s (s.length,[]) :=
  first_star hk ⟨Nat.le_refl _,by rwa [List.take_length]⟩ fun _ hle _ => hle

open Classical in
/-- The ends that a language allows, longest or shortest first. -/
noncomputable def ends (l : Language α) (lazy : Bool) (s : List α) : List ℕ :=
  let ns := (List.range (s.length+1)).filter fun n => decide (s.take n∈l)
  if lazy then ns else ns.reverse

open Classical in
theorem mem_ends {l : Language α} {lazy : Bool} : n∈ends l lazy s ↔ n ≤ s.length ∧ s.take n∈l := by
  have hns : ∀m,m∈ends l lazy s ↔ m∈(List.range (s.length+1)).filter fun n => decide (s.take n∈l) := by
    intro m
    unfold ends
    cases lazy
    · exact List.mem_reverse
    · exact Iff.rfl
  rw [hns,List.mem_filter,List.mem_range,decide_eq_true_iff,Nat.lt_succ_iff]

/-- Trials that look at every end. -/
noncomputable def tryAll (has : κ→Language α) : Re κ→List α→List (ℕ×List (List α))
  | .empty,_ => [(0,[])]
  | .cls k,s => (ends (has k) false s).map fun n => (n,[])
  | .seq a b,s => (tryAll has a s).flatMap fun t => (tryAll has b (s.drop t.1)).map fun u => (t.1+u.1,t.2++u.2)
  | .alt a b,s => (tryAll has a s).map (fun t => (t.1,t.2++List.replicate b.groupCount []))++
      (tryAll has b s).map fun t => (t.1,List.replicate a.groupCount []++t.2)
  | .rep r q,s => (ends (language has (.rep r q)) (q=.lazyStar) s).map fun n => (n,List.replicate r.groupCount [])
  | .group r,s => (tryAll has r s).map fun t => (t.1,s.take t.1::t.2)
  | .plain r,s => tryAll has r s

noncomputable def exhaustive (has : κ→Language α) : Trials has where
  run := tryAll has
  run_empty _ := rfl
  run_seq _ _ _ := rfl
  run_alt _ _ _ := rfl
  run_group _ _ := rfl
  run_plain _ _ := rfl
  mem_run_cls k s n := by
    simp [tryAll,mem_ends]
  mem_run_rep r q s n := by
    simp [tryAll,mem_ends]
  caps_cls k s t h := by
    obtain ⟨n,-,rfl⟩ := List.mem_map.mp h
    rfl
  caps_rep r q s t h := by
    obtain ⟨n,-,rfl⟩ := List.mem_map.mp h
    exact List.length_replicate
  greedy k s _ := by
    rw [tryAll,List.pairwise_map]
    have hrange : ((List.range (s.length+1)).reverse).Pairwise fun n m => m≤n := by
      rw [List.pairwise_reverse]
      exact List.pairwise_le_range
    unfold ends
    simp only [reduceCtorEq,decide_false,Bool.false_eq_true,if_false,← List.filter_reverse]
    exact hrange.filter _

end Trials

end Loftail.RegularLanguage.Re
