import Loftail.DateTranslation
import Loftail.LogSettings
import Mathlib.Tactic.IntervalCases

/-! # The capturing groups of an expression, counted in its text -/
namespace Loftail
open RegularLanguage QString

/-- Where a reader of a pattern stands: outside of any class, behind a backslash, behind a parenthesis that
opens, behind its question mark, at the start of a class, inside one, and behind a backslash in one. -/
inductive GroupState | outside | escaped | opened | asked | entered | inside | escapedInside
  deriving DecidableEq,Repr

def outsideStep (u : UInt16) (n : ℕ) : GroupState×ℕ :=
  if u=0x5C then (.escaped,n) else if u=0x5B then (.entered,n) else if u=0x28 then (.opened,n) else (.outside,n)

def insideStep (u : UInt16) (n : ℕ) : Option (GroupState×ℕ) :=
  if u=0x5D then some (.outside,n) else if u=0x5B then none else if u=0x5C then some
    (.escapedInside,n) else some (.inside,n)

/-- One unit, and the groups opened so far; nothing of a pattern whose parentheses may mean something else. -/
def groupStep : GroupState×ℕ→UInt16→Option (GroupState×ℕ)
  | (.outside,n),u => some (outsideStep u n)
  | (.escaped,n),u => if u=0x51 ∨ u=0x45 then none else some (.outside,n)
  | (.opened,n),u => if u=0x3F then some (.asked,n) else if u=0x2A then none else some (outsideStep u (n+1))
  | (.asked,n),u => if u=0x3A then some (.outside,n) else none
  | (.entered,n),u => if u=0x5D ∨ u=0x5E then none else insideStep u n
  | (.inside,n),u => insideStep u n
  | (.escapedInside,n),_ => some (.inside,n)

def groupRun (s : GroupState×ℕ) (t : Text) : Option (GroupState×ℕ) := t.foldlM groupStep s

/-- How many capturing groups a pattern opens. -/
def capturingGroups (pattern : Text) : Option ℕ :=
  match groupRun (.outside,0) pattern with
  | some (.outside,n) => some n
  | _ => none

example : capturingGroups (latin1 "^(\\S+)(?:a|[(])\\(\\s*(.*)$")=some 2 := by decide

/-- A text that opens so many groups, wherever it stands outside of a class. -/
def Opens (n : ℕ) (a : Text) : Prop := ∀m,groupRun (.outside,m) a=some (.outside,m+n)

section
variable {u c : UInt16} {a b s t : Text} {n m : ℕ}

theorem groupRun_append (s : GroupState×ℕ) (a b : Text) : groupRun s (a++b)=(groupRun s a).bind fun s =>
    groupRun s b :=
  List.foldlM_append ..

theorem Opens.append (ha : Opens n a) (hb : Opens m b) : Opens (n+m) (a++b) := by
  intro k
  rw [groupRun_append,ha k,Option.bind_some,hb (k+n),Nat.add_assoc]

theorem Opens.capturing (h : Opens n a) : capturingGroups a=some n := by
  rw [capturingGroups,h 0,Nat.zero_add]

/-- A unit that means only itself to the count. -/
def meansItself (u : UInt16) : Bool := u≠0x5C && u≠0x5B && u≠0x28

theorem opens_unit (h : meansItself u=true) : Opens 0 [u] := by
  simp only [meansItself,Bool.and_eq_true,decide_eq_true_eq] at h
  intro m
  simp [groupRun,groupStep,outsideStep,h]

theorem opens_units (h : ∀u∈a,meansItself u=true) : Opens 0 a := by
  induction a with
  | nil => exact fun m => rfl
  | cons u a ih =>
    exact (opens_unit (h u List.mem_cons_self)).append (ih fun v hv => h v (List.mem_cons_of_mem _ hv))

private theorem opens_quoted (hQ : u≠0x51) (hE : u≠0x45) : Opens 0 [0x5C,u] := by
  intro m
  simp [groupRun,groupStep,outsideStep,hQ,hE]

private theorem opens_plain (h : Opens n a) : Opens n (latin1 "(?:"++a++latin1 ")") := by
  have hopen : Opens 0 (latin1 "(?:") := fun m => rfl
  have hclose : Opens 0 (latin1 ")") := opens_unit (u:=0x29) (by decide)
  have hall := (hopen.append h).append hclose
  rwa [Nat.zero_add,Nat.add_zero] at hall

/-- A group, unless what is in it makes its parenthesis mean something else. -/
theorem opens_group (hask : a.head?≠some 0x3F) (hstar : a.head?≠some 0x2A) (h : Opens n a) :
    Opens (n+1) (latin1 "("++a++latin1 ")") := by
  have hopen : ∀m,groupRun (.outside,m) (latin1 "(")=some (.opened,m) := fun m => rfl
  have hclose : Opens 0 (latin1 ")") := opens_unit (u:=0x29) (by decide)
  have hinside : ∀m,groupRun (.opened,m) (a++latin1 ")")=groupRun (.outside,m+1) (a++latin1 ")") := by
    intro m
    cases a with
    | nil => rfl
    | cons u a =>
      have hu : u≠0x3F ∧ u≠0x2A := by simpa using And.intro hask hstar
      rw [List.cons_append,groupRun,groupRun,List.foldlM_cons,List.foldlM_cons,groupStep,groupStep]
      simp only [hu.1,hu.2,if_false]
  intro m
  rw [List.append_assoc,groupRun_append,hopen,Option.bind_some,hinside,h.append hclose (m+1)]
  congr 2
  omega

/-! ### Escaped texts -/

theorem meansItself_of {p : UInt16→Bool} (hsigns : (p 0x5C || p 0x5B || p 0x28)=false) (h : p u=true) :
    meansItself u=true := by
  simp only [Bool.or_eq_false_iff] at hsigns
  have hne : ∀v,p v=false → u≠v := by
    rintro v hv rfl
    exact Bool.false_ne_true (hv.symm.trans h)
  simp only [meansItself,Bool.and_eq_true,decide_eq_true_eq]
  exact ⟨⟨hne _ hsigns.1.1,hne _ hsigns.1.2⟩,hne _ hsigns.2⟩

theorem plain_meansItself (h : isPlain u=true) : meansItself u=true := meansItself_of (by decide) h

private theorem low_meansItself (h : isLowSurrogate u=true) : meansItself u=true := meansItself_of (by decide) h

theorem opens_sign (h : isPlain u=false) : Opens 0 [0x5C,u] := by
  have hletters : isPlain 0x51=true ∧ isPlain 0x45=true := by decide
  apply opens_quoted
  · rintro rfl
    exact Bool.false_ne_true (h.symm.trans hletters.1)
  · rintro rfl
    exact Bool.false_ne_true (h.symm.trans hletters.2)

theorem opens_nul : Opens 0 (latin1 "\\0") := fun _ => rfl

theorem plain_low (h : isPlain u=true) : isLowSurrogate u=false := by
  simp only [isPlain,Bool.or_eq_true,Bool.and_eq_true,decide_eq_true_eq,UInt16.le_iff_toNat_le,
    UInt16.reduceToNat] at h
  have hu : u.toNat < 0xDC00 := by
    rcases h with ((h | h) | h) | rfl
    · omega
    · omega
    · omega
    · decide
  simp only [isLowSurrogate,Bool.and_eq_false_iff,decide_eq_false_iff_not,UInt16.le_iff_toNat_le,UInt16.reduceToNat]
  omega

/-- One unit, and the rest of the text. -/
theorem escape_cons (hnul : u≠0) (hhigh : isHighSurrogate u=false) :
    escape (u::s)=(if isPlain u then [u] else [0x5C,u])++escape s := by
  have hpair : ¬(0xD800≤u && u≤0xDBFF)=true := by
    rw [← isHighSurrogate,hhigh]
    exact Bool.false_ne_true
  cases s with
  | nil => simp [escape,hnul]
  | cons l s =>
    rw [escape,if_neg hnul,if_neg hpair]
    split <;> rfl

theorem escape_nul : escape (0::s)=latin1 "\\0"++escape s := by
  cases s with
  | nil => rfl
  | cons l s => rw [escape,if_pos rfl]

theorem escape_head (u : UInt16) (s : Text) : ∃t,escape (u::s)=0x5C::t ∨ isPlain u=true ∧ escape (u::s)=u::t := by
  by_cases hnul : u=0
  · rw [hnul,escape_nul]
    exact ⟨_,.inl rfl⟩
  · cases s with
    | nil =>
      rw [escape,if_neg hnul]
      split
      case isTrue h => exact ⟨_,.inr ⟨h,rfl⟩⟩
      case isFalse => exact ⟨_,.inl rfl⟩
    | cons l s =>
      rw [escape,if_neg hnul]
      split
      case isTrue h => exact ⟨_,.inr ⟨h,rfl⟩⟩
      case isFalse =>
        split
        case isTrue => exact ⟨_,.inl rfl⟩
        case isFalse => exact ⟨_,.inl rfl⟩

theorem whole_escape (s : Text) : Whole (escape s) := by
  cases s with
  | nil => exact fun u hu => nomatch hu
  | cons u s =>
    obtain ⟨t,ht | ⟨hplain,ht⟩⟩ := escape_head u s
    · rw [ht]
      rintro v ⟨⟩
      decide
    · rw [ht]
      rintro v ⟨⟩
      exact plain_low hplain

theorem paired_pair {v : UInt16} (hu : isHighSurrogate u=true) (h : Paired (0x5C::u::v::t)) :
    isLowSurrogate v=true ∧ Paired t := by
  have hback : isHighSurrogate 0x5C=false ∧ isSurrogate 0x5C=false := by decide
  rw [Paired,holdsUnpaired,hback.1,hback.2,Bool.false_and,if_neg Bool.false_ne_true,Bool.false_or,holdsUnpaired,hu,
    Bool.true_and] at h
  split at h
  case isTrue hv => exact ⟨hv,h⟩
  case isFalse =>
    rw [isSurrogate,hu] at h
    cases h

/-- An escaped text is read as itself and opens nothing, as long as no surrogate in it is unpaired. -/
theorem opens_escape : ∀s,Paired (escape s) → Opens 0 (escape s)
  | [],_ => fun _ => rfl
  | [u],_ => by
    rw [escape]
    split
    case isTrue => exact opens_nul
    case isFalse =>
      split
      case isTrue hu => exact opens_unit (plain_meansItself hu)
      case isFalse hu => exact opens_sign (by simpa using hu)
  | u::v::s,hp => by
    by_cases hnul : u=0
    · rw [hnul,escape_nul] at hp ⊢
      exact opens_nul.append (opens_escape (v::s) ((paired_append (whole_escape _)).mp hp).2)
    · cases hhigh : isHighSurrogate u with
      | false =>
        rw [escape_cons hnul hhigh] at hp ⊢
        have hrest := opens_escape (v::s) ((paired_append (whole_escape _)).mp hp).2
        split
        case isTrue hu => exact (opens_unit (plain_meansItself hu)).append hrest
        case isFalse hu => exact (opens_sign (by simpa using hu)).append hrest
      | true =>
        have hpair : (0xD800≤u && u≤0xDBFF)=true := hhigh
        have hplain : isPlain u=false := by
          have hletters : ∀w : UInt16,isPlain w=true → isHighSurrogate w=false := by
            intro w hw
            simp only [isPlain,Bool.or_eq_true,Bool.and_eq_true,decide_eq_true_eq,UInt16.le_iff_toNat_le,
              UInt16.reduceToNat] at hw
            have hlt : w.toNat < 0xD800 := by
              rcases hw with ((hw | hw) | hw) | rfl
              · omega
              · omega
              · omega
              · decide
            simp only [isHighSurrogate,Bool.and_eq_false_iff,decide_eq_false_iff_not,UInt16.le_iff_toNat_le,
              UInt16.reduceToNat]
            omega
          by_contra h
          rw [hletters u (by simpa using h)] at hhigh
          cases hhigh
        have hshape : escape (u::v::s)=[0x5C,u]++([v]++escape s) := by
          rw [escape,if_neg hnul,if_neg (by simp [hplain]),if_pos hpair]
          rfl
        rw [hshape] at hp ⊢
        obtain ⟨hlow,hrest⟩ := paired_pair hhigh hp
        exact (opens_sign hplain).append ((opens_unit (low_meansItself hlow)).append (opens_escape s hrest))

end

/-! ### Expressions -/

namespace Pattern

/-- The capturing groups of an expression. -/
def groups : Pattern→ℕ
  | .empty | .cls _ => 0
  | .seq a b | .alt a b => groups a+groups b
  | .rep r _ | .plain r => groups r
  | .group r => groups r+1

/-- What the count of its text relies on: verbatim text is letters and colons, and no group begins as an option
would. -/
def Shaped : Pattern→Prop
  | .cls (.verbatim s) => ∀c∈s,isPlain c=true ∨ c=0x3A
  | .empty | .cls _ => True
  | .seq a b | .alt a b => Shaped a ∧ Shaped b
  | .rep r _ | .plain r => Shaped r
  | .group r => Shaped r ∧ (text r).head?≠some 0x3F ∧ (text r).head?≠some 0x2A

section
variable {r : Pattern} {u : UInt16} {n : ℕ}

theorem number_plain (n : ℕ) : ∀c∈number n,isPlain c=true := by
  intro c hc
  obtain ⟨d,hd,rfl⟩ := List.mem_map.mp hc
  have hdigit := Nat.isDigit_of_mem_toDigits (by decide) (by decide) hd
  obtain ⟨hlow,hhigh⟩ : 0x30≤d.toNat ∧ d.toNat≤0x39 := by
    simpa [Char.isDigit,UInt32.le_iff_toNat_le] using hdigit
  generalize d.toNat=m at hlow hhigh
  interval_cases m <;> decide

theorem units_all {s : Text} (h : (s.all fun u => meansItself u && !isLowSurrogate u)=true) :
    ∀u∈s,meansItself u=true ∧ isLowSurrogate u=false := by
  intro u hu
  simpa using List.all_eq_true.mp h u hu

/-- A quantifier is spelled with digits, braces and signs that count for nothing. -/
theorem quantifier_units (q : Quantifier) : ∀u∈quantifierText q,meansItself u=true ∧ isLowSurrogate u=false := by
  have hdigits : ∀n,∀u∈number n,meansItself u=true ∧ isLowSurrogate u=false :=
    fun n u hu => ⟨plain_meansItself (number_plain n u hu),plain_low (number_plain n u hu)⟩
  have hopen : meansItself 0x7B=true ∧ isLowSurrogate 0x7B=false := by decide
  have hclose : meansItself 0x7D=true ∧ isLowSurrogate 0x7D=false := by decide
  have hcomma : meansItself 0x2C=true ∧ isLowSurrogate 0x2C=false := by decide
  cases q with
  | exactly n =>
    intro u hu
    simp only [quantifierText,List.cons_append,List.mem_cons,List.mem_append,List.not_mem_nil,or_false] at hu
    rcases hu with rfl | hu | rfl
    · exact hopen
    · exact hdigits n u hu
    · exact hclose
  | between least most =>
    intro u hu
    simp only [quantifierText,List.cons_append,List.append_assoc,List.mem_cons,List.mem_append,
      List.not_mem_nil,or_false] at hu
    rcases hu with rfl | hu | rfl | hu | rfl
    · exact hopen
    · exact hdigits least u hu
    · exact hcomma
    · exact hdigits most u hu
    · exact hclose
  | star => exact units_all rfl
  | lazyStar => exact units_all rfl
  | plus => exact units_all rfl
  | optional => exact units_all rfl

private theorem opens_quantifier (q : Quantifier) : Opens 0 (quantifierText q) := opens_units fun u hu =>
    (quantifier_units q u hu).1

theorem whole_quantifier (q : Quantifier) : Whole (quantifierText q) :=
  fun u hu => (quantifier_units q u (List.mem_of_mem_head? hu)).2

theorem verbatim_unit (h : isPlain u=true ∨ u=0x3A) : meansItself u=true ∧ isLowSurrogate u=false := by
  rcases h with h | rfl
  · exact ⟨plain_meansItself h,plain_low h⟩
  · decide

theorem whole_text (h : Shaped r) : Whole r.text := by
  induction r with
  | empty => exact fun u hu => nomatch hu
  | cls k =>
    cases k with
    | escaped s => exact whole_escape s
    | verbatim s => exact fun u hu => (verbatim_unit (h u (List.mem_of_mem_head? hu))).2
    | _ =>
      rintro u ⟨⟩
      decide
  | seq a b iha ihb => exact whole_append (iha h.1) (ihb h.2)
  | alt a b iha ihb =>
    have hbar : Whole (latin1 "|") := by
      rintro u ⟨⟩
      decide
    exact whole_append (whole_append (iha h.1) hbar) (ihb h.2)
  | rep r q ih => exact whole_append (ih h) (whole_quantifier q)
  | group r ih =>
    rintro u ⟨⟩
    decide
  | plain r ih =>
    rintro u ⟨⟩
    decide

/-- The text of an expression opens the groups of the expression. -/
theorem opens_text (h : Shaped r) (hp : Paired r.text) : Opens (groups r) r.text := by
  have hclose : Whole (latin1 ")") := by
    rintro u ⟨⟩
    decide
  induction r with
  | empty => exact fun _ => rfl
  | cls k =>
    cases k with
    | escaped s => exact opens_escape s hp
    | verbatim s => exact opens_units fun u hu => (verbatim_unit (h u hu)).1
    | _ => exact fun _ => rfl
  | seq a b iha ihb =>
    obtain ⟨hpa,hpb⟩ := (paired_append (whole_text h.2)).mp hp
    exact (iha h.1 hpa).append (ihb h.2 hpb)
  | alt a b iha ihb =>
    have hbar : Whole (latin1 "|") := by
      rintro u ⟨⟩
      decide
    have hopen : Opens 0 (latin1 "|") := opens_unit (u:=0x7C) (by decide)
    obtain ⟨hleft,hpb⟩ := (paired_append (whole_text h.2)).mp hp
    obtain ⟨hpa,-⟩ := (paired_append hbar).mp hleft
    exact ((iha h.1 hpa).append hopen).append (ihb h.2 hpb)
  | rep r q ih =>
    obtain ⟨hpr,-⟩ := (paired_append (whole_quantifier q)).mp hp
    exact (ih h hpr).append (opens_quantifier q)
  | group r ih =>
    obtain ⟨hleft,-⟩ := (paired_append hclose).mp hp
    obtain ⟨-,hpr⟩ := (paired_append (whole_text h.1)).mp hleft
    exact opens_group h.2.1 h.2.2 (ih h.1 hpr)
  | plain r ih =>
    obtain ⟨hleft,-⟩ := (paired_append hclose).mp hp
    obtain ⟨-,hpr⟩ := (paired_append (whole_text (r:=r) h)).mp hleft
    exact opens_plain (ih h hpr)

end
end Pattern
end Loftail
