import Loftail.Record
import Mathlib.Data.List.Basic

/-! # Surrogates, and the texts in which each is half of a pair -/
namespace Loftail

namespace QString

def isHighSurrogate (u : UInt16) : Bool := 0xD800≤u && u≤0xDBFF
def isLowSurrogate (u : UInt16) : Bool := 0xDC00≤u && u≤0xDFFF

end QString

open QString

def isSurrogate (u : UInt16) : Bool := isHighSurrogate u || isLowSurrogate u

/-- A surrogate that is not half of a pair. -/
def holdsUnpaired : Text→Bool
  | [] => false
  | [u] => isSurrogate u
  | u::v::t => if isHighSurrogate u && isLowSurrogate v then holdsUnpaired t else isSurrogate u ||
    holdsUnpaired (v::t)

/-- No unpaired surrogate. -/
def Paired (s : Text) : Prop := holdsUnpaired s=false

instance : DecidablePred Paired := fun s => inferInstanceAs (Decidable (holdsUnpaired s=false))

/-- Does not begin with the second half of a pair. -/
def Whole (s : Text) : Prop := ∀u,s.head?=some u → isLowSurrogate u=false

/-- One unit that is no surrogate, or a pair. -/
def IsCharacter (s : Text) : Prop :=
  (∃c,s=[c] ∧ isSurrogate c=false) ∨ ∃h l,s=[h,l] ∧ isHighSurrogate h=true ∧ isLowSurrogate l=true

section
variable {u v : UInt16} {a b s : Text}

private theorem low_of_high (h : isHighSurrogate u=true) : isLowSurrogate u=false := by
  simp only [isHighSurrogate,Bool.and_eq_true,decide_eq_true_eq,UInt16.le_iff_toNat_le,UInt16.reduceToNat] at h
  simp only [isLowSurrogate,Bool.and_eq_false_iff,decide_eq_false_iff_not,UInt16.le_iff_toNat_le,UInt16.reduceToNat]
  omega

theorem surrogate_false : isSurrogate u=false ↔ isHighSurrogate u=false ∧ isLowSurrogate u=false :=
    Bool.or_eq_false_iff

theorem surrogate_of_lt (h : u.toNat < 0xD800) : isSurrogate u=false := by
  simp only [isSurrogate,isHighSurrogate,isLowSurrogate,Bool.or_eq_false_iff,Bool.and_eq_false_iff,
    decide_eq_false_iff_not,UInt16.le_iff_toNat_le,UInt16.reduceToNat]
  omega

theorem unpaired_append (hb : Whole b) : ∀a,holdsUnpaired (a++b)=(holdsUnpaired a || holdsUnpaired b)
  | [] => rfl
  | [u] => by
    cases b with
    | nil => simp [holdsUnpaired]
    | cons v b =>
      have hv := hb v rfl
      simp [holdsUnpaired,hv]
  | u::v::a => by
    rw [List.cons_append,List.cons_append,holdsUnpaired,holdsUnpaired]
    split
    · exact unpaired_append hb a
    · have hrest := unpaired_append hb (v::a)
      rw [List.cons_append] at hrest
      rw [hrest,Bool.or_assoc]

theorem paired_append (hb : Whole b) : Paired (a++b)↔Paired a ∧ Paired b := by
  rw [Paired,unpaired_append hb,Bool.or_eq_false_iff]
  rfl

theorem whole_append (ha : Whole a) (hb : Whole b) : Whole (a++b) := by
  cases a with
  | nil => exact hb
  | cons u a => exact fun v hv => ha v hv

theorem whole_cons (h : isLowSurrogate u=false) : Whole (u::s) := by
  rintro v ⟨⟩
  exact h

theorem paired_nil : Paired [] := rfl

theorem paired_cons (h : isSurrogate u=false) : Paired (u::s) ↔ Paired s := by
  cases s with
  | nil => exact iff_of_true h rfl
  | cons v s => rw [Paired,holdsUnpaired,(surrogate_false.mp h).1,Bool.false_and,if_neg Bool.false_ne_true,h,
    Bool.false_or,Paired]

theorem paired_pair_cons (hu : isHighSurrogate u=true) (hv : isLowSurrogate v=true) : Paired
    (u::v::s) ↔ Paired s := by
  rw [Paired,holdsUnpaired,hu,hv,Bool.and_true,if_pos rfl,Paired]

theorem Paired.whole (h : Paired s) : Whole s := by
  intro u hu
  match s,hu,h with
  | [_],rfl,h => exact (surrogate_false.mp h).2
  | _::v::s,rfl,h =>
    rw [Paired,holdsUnpaired] at h
    split at h
    · rename_i hpair
      exact low_of_high (Bool.and_eq_true_iff.mp hpair).1
    · exact (surrogate_false.mp (Bool.or_eq_false_iff.mp h).1).2

theorem Paired.append (ha : Paired a) (hb : Paired b) : Paired (a++b) := (paired_append hb.whole).mpr ⟨ha,hb⟩

theorem IsCharacter.paired_append (h : IsCharacter a) : Paired (a++b) ↔ Paired b := by
  rcases h with ⟨c,rfl,hc⟩ | ⟨hi,lo,rfl,hhi,hlo⟩
  · exact paired_cons hc
  · exact paired_pair_cons hhi hlo

theorem IsCharacter.paired (h : IsCharacter s) : Paired s := by
  have happend := h.paired_append (b:=[])
  rw [List.append_nil] at happend
  exact happend.mpr paired_nil

/-- A text without an unpaired surrogate is one character after another. -/
theorem paired_iff : Paired s ↔ ∃pieces : List Text,(∀u∈pieces,IsCharacter u) ∧ s=pieces.flatten := by
  constructor
  · intro h
    fun_induction holdsUnpaired s with
    | case1 => exact ⟨[],by simp,rfl⟩
    | case2 u => exact ⟨[[u]],List.forall_mem_singleton.mpr (.inl ⟨u,rfl,h⟩),rfl⟩
    | case3 u v t hpair ih =>
      obtain ⟨hu,hv⟩ := Bool.and_eq_true_iff.mp hpair
      obtain ⟨pieces,hall,rfl⟩ := ih ((paired_pair_cons hu hv).mp h)
      exact ⟨[u,v]::pieces,List.forall_mem_cons.mpr ⟨.inr ⟨u,v,rfl,hu,hv⟩,hall⟩,rfl⟩
    | case4 u v t hpair ih =>
      rw [Paired,holdsUnpaired,if_neg hpair,Bool.or_eq_false_iff] at h
      obtain ⟨pieces,hall,hrest⟩ := ih h.2
      exact ⟨[u]::pieces,List.forall_mem_cons.mpr ⟨.inl ⟨u,rfl,h.1⟩,hall⟩,by rw [hrest]; rfl⟩
  · rintro ⟨pieces,hall,rfl⟩
    induction pieces with
    | nil => rfl
    | cons u pieces ih =>
      rw [List.flatten_cons]
      exact (hall u List.mem_cons_self).paired_append.mpr (ih fun v hv => hall v (List.mem_cons_of_mem _ hv))

/-- What follows a text of whole characters. -/
theorem Paired.of_append (ha : Paired a) (h : Paired (a++b)) : Paired b := by
  obtain ⟨pieces,hall,rfl⟩ := paired_iff.mp ha
  clear ha
  induction pieces with
  | nil => exact h
  | cons u pieces ih =>
    rw [List.flatten_cons,List.append_assoc] at h
    exact ih (fun v hv => hall v (List.mem_cons_of_mem _ hv)) ((hall u List.mem_cons_self).paired_append.mp h)

theorem paired_of_plain (h : ∀u∈s,isSurrogate u=false) : Paired s := by
  induction s with
  | nil => rfl
  | cons u s ih =>
    obtain ⟨hu,hs⟩ := List.forall_mem_cons.mp h
    exact (paired_cons hu).mpr (ih hs)

/-- What stands on each side of a unit that is no surrogate. -/
theorem Paired.split (h : Paired (a++u::b)) (hu : isSurrogate u=false) : Paired a ∧ Paired b := by
  obtain ⟨ha,hb⟩ := (Loftail.paired_append (whole_cons (surrogate_false.mp hu).2)).mp h
  exact ⟨ha,(paired_cons hu).mp hb⟩

end

end Loftail
