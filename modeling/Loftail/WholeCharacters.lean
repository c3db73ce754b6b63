import Loftail.PatternLanguage
import Loftail.RegexGroups

/-! # Texts of whole characters

The engine refuses a pattern with an unpaired surrogate in it, and what the others match has none. -/
namespace Loftail
open RegularLanguage RegularLanguage.Re QString

namespace Pattern

/-- Every text in the expression is of whole characters. -/
def Tidy : Pattern→Prop
  | .cls (.escaped s) | .cls (.verbatim s) => Paired s
  | .empty | .cls _ => True
  | .seq a b | .alt a b => Tidy a ∧ Tidy b
  | .rep r _ | .plain r | .group r => Tidy r

section
variable {p : Platform} {pair : UInt16→UInt16→Bool} {r : Pattern} {rs : List Pattern} {s t : Text}

theorem plain_not_surrogate {c : UInt16} (h : isPlain c=true) : isSurrogate c=false := by
  apply surrogate_of_lt
  simp only [isPlain,Bool.or_eq_true,Bool.and_eq_true,decide_eq_true_eq,UInt16.le_iff_toNat_le,
    UInt16.reduceToNat] at h
  rcases h with ((h | h) | h) | rfl
  · omega
  · omega
  · omega
  · decide

/-- Escaping keeps pairs together, and nothing else makes one. -/
theorem paired_of_escape : ∀s,Paired (escape s)→Paired s
  | [],_ => rfl
  | u::s,h => by
    by_cases hnul : u=0
    · subst hnul
      rw [escape_nul] at h
      have hs : Paired (escape s) :=
        (paired_cons (u:=0x30) (by decide)).mp ((paired_cons (u:=0x5C) (by decide)).mp h)
      exact (paired_cons (u:=0) (by decide)).mpr (paired_of_escape s hs)
    cases hhigh : isHighSurrogate u with
    | false =>
      rw [escape_cons hnul hhigh] at h
      have hunit : isSurrogate u=false ∧ Paired (escape s) := by
        split at h
        case isTrue hplain => exact ⟨plain_not_surrogate hplain,(paired_cons (plain_not_surrogate hplain)).mp h⟩
        case isFalse =>
          have hboth := (paired_append (whole_escape s)).mp h
          exact ⟨(paired_cons (u:=0x5C) (by decide)).mp hboth.1,hboth.2⟩
      exact (paired_cons hunit.1).mpr (paired_of_escape s hunit.2)
    | true =>
      cases s with
      | nil =>
        have hplain : isPlain u=false := by
          rw [← Bool.not_eq_true]
          intro hplain
          rw [(surrogate_false.mp (plain_not_surrogate hplain)).1] at hhigh
          cases hhigh
        rw [escape,if_neg hnul,hplain,if_neg Bool.false_ne_true] at h
        exact (paired_cons (u:=0x5C) (by decide)).mp h
      | cons v s =>
        have hplain : isPlain u=false := by
          rw [← Bool.not_eq_true]
          intro hplain
          rw [(surrogate_false.mp (plain_not_surrogate hplain)).1] at hhigh
          cases hhigh
        rw [escape,if_neg hnul,hplain,if_neg Bool.false_ne_true,if_pos (by rwa [isHighSurrogate] at hhigh)] at h
        obtain ⟨hlow,hs⟩ := paired_pair hhigh h
        exact (paired_pair_cons hhigh hlow).mpr (paired_of_escape s hs)

/-- The texts of an expression are of whole characters where the text of the expression is. -/
theorem tidy_text (h : Shaped r) (hp : Paired r.text) : Tidy r := by
  have hclose : Whole (latin1 ")") := whole_cons (by decide)
  induction r with
  | empty => trivial
  | cls k =>
    cases k with
    | escaped s => exact paired_of_escape s hp
    | verbatim s => exact hp
    | _ => trivial
  | seq a b iha ihb =>
    obtain ⟨hpa,hpb⟩ := (paired_append (whole_text h.2)).mp hp
    exact ⟨iha h.1 hpa,ihb h.2 hpb⟩
  | alt a b iha ihb =>
    have hbar : Whole (latin1 "|") := whole_cons (by decide)
    obtain ⟨hleft,hpb⟩ := (paired_append (whole_text h.2)).mp hp
    exact ⟨iha h.1 ((paired_append hbar).mp hleft).1,ihb h.2 hpb⟩
  | rep r q ih => exact ih h ((paired_append (whole_quantifier q)).mp hp).1
  | group r ih =>
    obtain ⟨hleft,-⟩ := (paired_append hclose).mp hp
    exact ih h.1 ((paired_append (whole_text h.1)).mp hleft).2
  | plain r ih =>
    obtain ⟨hleft,-⟩ := (paired_append hclose).mp hp
    exact ih h ((paired_append (whole_text (r:=r) h)).mp hleft).2

theorem units_paired {q : UInt16→Bool} (hq : ∀u : UInt16,q u=true→u.toNat<0x80) {u : Text}
    (hu : u∈units q) : Paired u := by
  obtain ⟨x,rfl,hx⟩ := hu
  exact surrogate_of_lt (by have hlt := hq x hx; omega)

private theorem class_paired {k : CharClass} (h : Tidy (.cls k))
    (hs : s∈CharClass.language p pair k) : Paired s := by
  have hdigit : ∀u : UInt16,isAsciiDigit u=true→u.toNat<0x80 := by
    intro u hu
    simp only [isAsciiDigit,Bool.and_eq_true,decide_eq_true_eq,UInt16.le_iff_toNat_le,UInt16.reduceToNat] at hu
    omega
  have hletter : ∀u : UInt16,isZoneStart u=true→u.toNat<0x80 := by
    intro u hu
    simp only [isZoneStart,Bool.or_eq_true,Bool.and_eq_true,decide_eq_true_eq,UInt16.le_iff_toNat_le,
      UInt16.reduceToNat] at hu
    omega
  have heither : ∀{x y : UInt16},x.toNat<0x80→y.toNat<0x80→∀u : UInt16,(u=x || u=y)=true→u.toNat<0x80 := by
    intro x y hx hy u hu
    rcases (Bool.or_eq_true _ _).mp hu with hu | hu
    · exact of_decide_eq_true hu ▸ hx
    · exact of_decide_eq_true hu ▸ hy
  cases k with
  | escaped t => exact Set.eq_of_mem_singleton hs ▸ h
  | verbatim t => exact Set.eq_of_mem_singleton hs ▸ h
  | tab => exact Set.eq_of_mem_singleton hs ▸ rfl
  | notSpace => exact (characters_isCharacter hs).paired
  | any => exact (characters_isCharacter hs).paired
  | letter => exact (characters_isCharacter hs).paired
  | digit => exact units_paired hdigit hs
  | zoneStart => exact units_paired hletter hs
  | upperMeridiem => exact units_paired (heither (by decide) (by decide)) hs
  | lowerMeridiem => exact units_paired (heither (by decide) (by decide)) hs
  | sign => exact units_paired (heither (by decide) (by decide)) hs
  | space =>
    refine units_paired (fun u hu => ?_) hs
    simp only [isAsciiSpace,Bool.or_eq_true,Bool.and_eq_true,decide_eq_true_eq,UInt16.le_iff_toNat_le,
      UInt16.reduceToNat] at hu
    rcases hu with rfl | hu
    · decide
    · omega
  | spaceOrDigit =>
    refine units_paired (fun u hu => ?_) hs
    rcases (Bool.or_eq_true _ _).mp hu with hu | hu
    · exact of_decide_eq_true hu ▸ by decide
    · exact hdigit u hu
  | zoneRest =>
    refine units_paired (fun u hu => ?_) hs
    simp only [isZoneRest,Bool.or_eq_true,decide_eq_true_eq] at hu
    rcases hu with ((((hu | hu) | rfl) | rfl) | rfl) | rfl
    · exact hletter u hu
    · exact hdigit u hu
    all_goals decide

/-- So are the texts it matches. -/
theorem Tidy.paired (h : Tidy r) (hs : s∈language p pair r) : Paired s := by
  induction r generalizing s with
  | empty =>
    obtain rfl := mem_empty.mp hs
    rfl
  | cls k => exact class_paired h hs
  | seq a b iha ihb =>
    obtain ⟨u,hu,v,hv,rfl⟩ := mem_seq.mp hs
    exact (iha h.1 hu).append (ihb h.2 hv)
  | alt a b iha ihb => exact hs.elim (iha h.1) (ihb h.2)
  | rep r q ih =>
    obtain ⟨pieces,-,hall,rfl⟩ := mem_rep.mp hs
    clear hs
    induction pieces with
    | nil => rfl
    | cons u pieces ihp =>
      exact (ih h (hall u List.mem_cons_self)).append (ihp fun v hv => hall v (List.mem_cons_of_mem _ hv))
  | group r ih => exact ih h hs
  | plain r ih => exact ih h hs

theorem tidy_all : Tidy (.all rs) ↔ ∀r∈rs,Tidy r := by
  induction rs with
  | nil => exact iff_of_true trivial (by simp)
  | cons r rs ih =>
    rw [List.forall_mem_cons,← ih]
    rfl

theorem readEscaped_cons {c : UInt16} (hc : c≠0) : readEscaped (c::s)=c::readEscaped s := by
  rw [readEscaped]
  · rintro a b s' rfl
    exact absurd rfl hc
  · rintro a rfl
    exact absurd rfl hc

theorem octal_lt {a b : UInt16} (ha : isOctal a=true) (hb : isOctal b=true) :
    (a-0x30).toNat<8 ∧ (8*(a-0x30)+(b-0x30)).toNat<64 := by
  have hdigit : ∀{c : UInt16},isOctal c=true→(c-0x30).toNat<8 := by
    intro c hc
    simp only [isOctal,Bool.and_eq_true,decide_eq_true_eq] at hc
    have hsub := UInt16.toNat_sub_of_le c 0x30 hc.1
    rw [UInt16.le_iff_toNat_le,UInt16.le_iff_toNat_le] at hc
    simp only [UInt16.reduceToNat] at hc hsub
    omega
  refine ⟨hdigit ha,?_⟩
  have hda := hdigit ha
  have hdb := hdigit hb
  rw [UInt16.toNat_add,UInt16.toNat_mul]
  simp only [UInt16.reduceToNat]
  omega

theorem octal_not_surrogate {a : UInt16} (ha : isOctal a=true) : isSurrogate a=false := by
  apply surrogate_of_lt
  simp only [isOctal,Bool.and_eq_true,decide_eq_true_eq,UInt16.le_iff_toNat_le,UInt16.reduceToNat] at ha
  omega

private theorem paired_readEscaped (h : Paired s) : Paired (readEscaped s) := by
  induction hlen : s.length using Nat.strong_induction_on generalizing s with
  | _ n ih =>
  have hrest : ∀t,t.length<s.length→Paired t→Paired (readEscaped t) := fun t hlt ht => ih _ (hlen ▸ hlt) ht rfl
  obtain ⟨pieces,hall,rfl⟩ := paired_iff.mp h
  cases pieces with
  | nil => rfl
  | cons u pieces =>
    obtain ⟨hu,hpieces⟩ := List.forall_mem_cons.mp hall
    have htail : Paired pieces.flatten := paired_iff.mpr ⟨pieces,hpieces,rfl⟩
    rw [List.flatten_cons] at hrest ⊢
    generalize pieces.flatten=t at htail hrest
    rcases hu with ⟨c,rfl,hc⟩ | ⟨hi,lo,rfl,hhi,hlo⟩
    · rw [List.singleton_append] at hrest ⊢
      by_cases hzero : c=0
      · subst hzero
        match t with
        | [] => exact hc
        | [a] =>
          rw [readEscaped]
          split
          · rename_i ha
            exact surrogate_of_lt (by have hlt := (octal_lt ha ha).1; omega)
          · exact (paired_cons hc).mpr htail
        | a::b::t =>
          rw [readEscaped]
          split
          · exact (paired_cons hc).mpr (hrest (a::b::t) (Nat.lt_succ_self _) htail)
          · rename_i ha
            rw [Bool.not_eq_true,Bool.not_eq_false'] at ha
            have hb : Paired (b::t) := (paired_cons (octal_not_surrogate ha)).mp htail
            split
            · exact (paired_cons (surrogate_of_lt (by have hlt := (octal_lt ha ha).1; omega))).mpr
                (hrest (b::t) (by simp) hb)
            · rename_i hoctal
              rw [Bool.not_eq_true,Bool.not_eq_false'] at hoctal
              exact (paired_cons (surrogate_of_lt (by have hlt := (octal_lt ha hoctal).2; omega))).mpr
                (hrest t (by simp only [List.length_cons]; omega)
                  ((paired_cons (octal_not_surrogate hoctal)).mp hb))
      · rw [readEscaped_cons hzero]
        exact (paired_cons hc).mpr (hrest t (Nat.lt_succ_self _) htail)
    · rw [List.cons_append,List.cons_append,List.nil_append,readEscaped_cons,readEscaped_cons,
        paired_pair_cons hhi hlo]
      · exact hrest t (by rw [List.length_append]; exact Nat.lt_add_of_pos_left Nat.two_pos) htail
      · rintro rfl
        cases hlo
      · rintro rfl
        cases hhi

theorem tidy_readRow (h : ∀r∈rs,Tidy r) : ∀r∈readRow rs,Tidy r := by
  have hjoined : ∀r∈joined rs,Tidy r := by
    induction rs with
    | nil => exact h
    | cons r rs ih =>
      obtain ⟨hr,hrs⟩ := List.forall_mem_cons.mp h
      rcases mark_or r with hmark | ⟨s,rfl⟩
      · rw [joined_mark hmark]
        exact List.forall_mem_cons.mpr ⟨hr,ih hrs⟩
      rcases joined_head rs with ⟨t,rs',hjoined⟩ | hjoined
      · have hall := ih hrs
        rw [hjoined] at hall
        obtain ⟨ht,hall⟩ := List.forall_mem_cons.mp hall
        rw [joined_escaped_cons hjoined]
        exact List.forall_mem_cons.mpr ⟨Paired.append hr ht,hall⟩
      · rw [joined_escaped_mark hjoined]
        exact List.forall_mem_cons.mpr ⟨hr,ih hrs⟩
  intro r hr
  obtain ⟨r',hr',rfl⟩ := List.mem_map.mp hr
  rcases mark_or r' with hmark | ⟨s,rfl⟩
  · rw [resolved_mark hmark]
    exact hjoined r' hr'
  · exact paired_readEscaped (s:=s) (hjoined _ hr')

theorem tidy_row (h : Tidy r) : ∀x∈row r,Tidy x := by
  induction r with
  | empty => exact fun x hx => nomatch hx
  | seq a b iha ihb => exact fun x hx => (List.mem_append.mp hx).elim (iha h.1 x) (ihb h.2 x)
  | group r ih => exact List.forall_mem_singleton.mpr (tidy_all.mpr (tidy_readRow (ih h)))
  | _ => exact List.forall_mem_singleton.mpr h

end
end Pattern

end Loftail
