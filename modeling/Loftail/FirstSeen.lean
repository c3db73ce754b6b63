import Mathlib.Data.List.Basic

/-! # A list of what has been seen, in the order it was first seen -/
namespace Loftail.FirstSeen

variable {α : Type*} [DecidableEq α]

/-- What has not been seen joins the end. -/
def see (seen : List α) (a : α) : List α := if a∈seen then seen else seen++[a]

def seeAll (seen names : List α) : List α := names.foldl see seen

variable {seen names : List α} {a b : α}

theorem see_old (h : a∈seen) : see seen a=seen := if_pos h

theorem see_new (h : a∉seen) : see seen a=seen++[a] := if_neg h

@[simp] theorem seeAll_nil (seen : List α) : seeAll seen []=seen := rfl

@[simp] theorem seeAll_cons (seen : List α) (a : α) (names : List α) :
    seeAll seen (a::names)=seeAll (see seen a) names := rfl

theorem seeAll_append (seen names more : List α) : seeAll seen (names++more)=seeAll (seeAll seen names) more :=
  List.foldl_append

theorem starts_see (seen : List α) (a : α) : seen<+:see seen a := by
  by_cases h : a∈seen
  · exact (see_old h).symm ▸ List.prefix_rfl
  · rw [see_new h]
    exact List.prefix_append _ _

theorem starts_seeAll (seen names : List α) : seen<+:seeAll seen names := by
  induction names generalizing seen with
  | nil => exact List.prefix_rfl
  | cons a names ih => exact (starts_see seen a).trans (ih _)

private theorem mem_see : b∈see seen a ↔ b∈seen ∨ b=a := by
  by_cases h : a∈seen
  · rw [see_old h]
    constructor
    · exact Or.inl
    · rintro (hb | rfl)
      · exact hb
      · exact h
  · rw [see_new h,List.mem_append,List.mem_singleton]

theorem mem_seeAll : b∈seeAll seen names ↔ b∈seen ∨ b∈names := by
  induction names generalizing seen with
  | nil => simp
  | cons a names ih => rw [seeAll_cons,ih,mem_see,List.mem_cons,or_assoc]

/-- Seeing one thing early changes nothing just where it had been seen or is the first that had not. -/
theorem seeAll_early : seeAll (see seen b) names=seeAll seen names ↔
    b∈seen ∨ names.find? (fun a => a∉seen)=some b := by
  by_cases hb : b∈seen
  · rw [see_old hb]
    exact iff_of_true rfl (Or.inl hb)
  rw [see_new hb,or_iff_right hb]
  induction names with
  | nil => simp
  | cons a names ih =>
    by_cases ha : a∈seen
    · have hskip : see (seen++[b]) a=seen++[b] := see_old (List.mem_append_left _ ha)
      rw [seeAll_cons,seeAll_cons,hskip,see_old ha,ih,List.find?_cons_of_neg (by simpa using ha)]
    · rw [seeAll_cons,seeAll_cons,see_new ha,List.find?_cons_of_pos (by simpa using ha),Option.some_inj]
      constructor
      · intro heq
        -- Both lists go on from `seen`, the one with `b` and the other with `a`.
        have hleft := (starts_see (seen++[b]) a).trans (starts_seeAll _ names)
        have hright := starts_seeAll (seen++[a]) names
        rw [heq] at hleft
        have hsame := (List.prefix_of_prefix_length_le hright hleft (by simp)).eq_of_length (by simp)
        exact List.singleton_inj.mp (List.append_cancel_left hsame)
      · rintro rfl
        rw [see_old (List.mem_append_right _ (List.mem_singleton.mpr rfl))]

private theorem nodup_see (h : seen.Nodup) : (see seen a).Nodup := by
  by_cases ha : a∈seen
  · rwa [see_old ha]
  · rw [see_new ha]
    refine List.nodup_append.mpr ⟨h,List.pairwise_singleton ..,?_⟩
    rintro b hb c hc rfl
    exact ha (List.mem_singleton.mp hc ▸ hb)

theorem nodup_seeAll (h : seen.Nodup) : (seeAll seen names).Nodup := by
  induction names generalizing seen with
  | nil => exact h
  | cons a names ih => exact ih (nodup_see h)

end Loftail.FirstSeen
