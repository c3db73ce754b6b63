import Loftail.DateTranslation
import Loftail.Platform
import Loftail.SurrogatePairs
import Mathlib.Data.List.Chain

/-! # What compiled expressions match

The engine matches whole characters: one unit, or a pair of surrogates. -/
namespace Loftail
open RegularLanguage RegularLanguage.Re QString

def isAsciiDigit (c : UInt16) : Bool := 0x30≤c && c≤0x39

/-- `\s` without Unicode properties. -/
def isAsciiSpace (c : UInt16) : Bool := c=0x20 || (0x09≤c && c≤0x0D)

def isZoneStart (c : UInt16) : Bool := (0x41≤c && c≤0x5A) || (0x61≤c && c≤0x7A)

def isZoneRest (c : UInt16) : Bool := isZoneStart c || isAsciiDigit c || c=0x5F || c=0x2F || c=0x2B || c=0x2D

/-- The characters of a class. -/
def characters (single : UInt16→Bool) (pair : UInt16→UInt16→Bool) : Language UInt16 :=
  {s | (∃c,s=[c] ∧ isSurrogate c=false ∧ single c=true) ∨
    ∃h l,s=[h,l] ∧ isHighSurrogate h=true ∧ isLowSurrogate l=true ∧ pair h l=true}

/-- A digit of an octal escape. -/
def isOctal (c : UInt16) : Bool := 0x30≤c && c≤0x37

/-- What the engine reads in an escaped text: a NUL is written `\0`, which takes up to two octal digits that
follow it. -/
def readEscaped : Text→Text
  | 0::a::b::s =>
    if !isOctal a then 0::readEscaped (a::b::s)
    else if !isOctal b then (a-0x30)::readEscaped (b::s)
    else (8*(a-0x30)+(b-0x30))::readEscaped s
  | [0,a] => if isOctal a then [a-0x30] else [0,a]
  | c::s => c::readEscaped s
  | [] => []

example : readEscaped [0x41,0,0x31,0x38]=[0x41,1,0x38] := by decide

/-- No NUL stands directly before a digit that its escape would take. -/
def Apart (s : Text) : Prop := s.IsChain fun a b => ¬(a=0 ∧ isOctal b=true)

/-- A letter is one code unit, or two that `pair` says are one. The other named classes are ASCII's. -/
def CharClass.language (p : Platform) (pair : UInt16→UInt16→Bool) : CharClass→Language UInt16
  | .escaped s => {s}
  | .verbatim s => {s}
  | .tab => {[0x09]}
  | .digit => units isAsciiDigit
  | .spaceOrDigit => units fun c => c=0x20 || isAsciiDigit c
  | .space => units isAsciiSpace
  | .notSpace => characters (fun c => !isAsciiSpace c) fun _ _ => true
  | .any => characters (fun c => c≠0x0A) fun _ _ => true
  | .letter => characters p.isLetter pair
  | .upperMeridiem => units fun c => c=0x41 || c=0x50
  | .lowerMeridiem => units fun c => c=0x61 || c=0x70
  | .sign => units fun c => c=0x2B || c=0x2D
  | .zoneStart => units isZoneStart
  | .zoneRest => units isZoneRest

/-- What the platform says of ASCII characters. -/
structure Platform.Ascii (p : Platform) : Prop where
  digit : ∀c : UInt16,c<0x80→p.isDigit c=isAsciiDigit c
  letter : ∀c : UInt16,c<0x80→p.isLetter c=isZoneStart c
  upper : ∀c : UInt16,c<0x80→p.toUpper c=if 0x61≤c && c≤0x7A then c-0x20 else c

theorem Platform.ascii_ascii : Platform.ascii.Ascii where
  digit := by
    intro c _
    rfl
  letter := by
    intro c _
    rfl
  upper := by
    intro c _
    rfl

namespace Pattern

def language (p : Platform) (pair : UInt16→UInt16→Bool) (r : Pattern) : Language UInt16 :=
  Re.language (CharClass.language p pair) r

/-- Escaped texts that stand side by side are one text to the engine. -/
def joined : List Pattern→List Pattern
  | .cls (.escaped s)::rs =>
    match joined rs with
    | .cls (.escaped t)::rs => .cls (.escaped (s++t))::rs
    | rs => .cls (.escaped s)::rs
  | r::rs => r::joined rs
  | [] => []

/-- An escaped text as the engine reads it. -/
def resolved : Pattern→Pattern
  | .cls (.escaped s) => .cls (.escaped (readEscaped s))
  | r => r

def readRow (rs : List Pattern) : List Pattern := (joined rs).map resolved

/-- What stands side by side in an expression, groups as they are read; what is repeated or an alternative
has no NUL. -/
def row : Pattern→List Pattern
  | .empty => []
  | .seq a b => row a++row b
  | .group r => [.group (.all (readRow (row r)))]
  | r => [r]

/-- An expression as the engine reads its text. -/
def asRead (r : Pattern) : Pattern := .all (readRow (row r))

/-- The characters an expression writes escaped, and what stands between them. -/
def signs : Pattern→List (Option UInt16)
  | .empty => []
  | .seq a b => signs a++signs b
  | .group r => none::signs r++[none]
  | .cls (.escaped s) => s.map some
  | _ => [none]

def Takes (a b : Option UInt16) : Prop := a=some 0 ∧ b.any isOctal=true

instance : DecidableRel Takes := fun a b => inferInstanceAs (Decidable (a=some 0 ∧ b.any isOctal=true))

/-- No escape takes a digit that follows it. -/
def Clear (signs : List (Option UInt16)) : Prop := signs.IsChain fun a b => ¬Takes a b

instance : DecidablePred Clear := fun signs => inferInstanceAs (Decidable (signs.IsChain fun a b => ¬Takes a b))

def Legible (r : Pattern) : Prop := Clear r.signs

instance : DecidablePred Legible := fun r => inferInstanceAs (Decidable (Clear r.signs))

/-- Neither a NUL nor an octal digit. -/
def Still (x : Option UInt16) : Prop := x≠some 0 ∧ x.any isOctal=false

variable {p : Platform} {pair : UInt16→UInt16→Bool} {s : Text} {n least most : ℕ}

theorem mem_escaped {t : Text} : s∈language p pair (.cls (.escaped t)) ↔ s=t := Iff.rfl

theorem mem_digits : s∈language p pair (.digits n) ↔ s.length=n ∧ ∀c∈s,isAsciiDigit c=true :=
  mem_rep_units (q:=.exactly n) rfl

theorem mem_digitsBetween : s∈language p pair (.digitsBetween least most) ↔
    (least ≤ s.length ∧ s.length ≤ most) ∧ ∀c∈s,isAsciiDigit c=true :=
  mem_rep_units (q:=.between least most) rfl

end Pattern

/-! ## Characters -/

section
variable {κ : Type*} {has : κ→Language UInt16} {k : κ} {single : UInt16→Bool} {pair : UInt16→UInt16→Bool}
  {s : Text} {q : Quantifier}

theorem characters_isCharacter (h : s∈characters single pair) : IsCharacter s := by
  rcases h with ⟨c,rfl,hc,-⟩ | ⟨hi,lo,rfl,hhi,hlo,-⟩
  · exact .inl ⟨c,rfl,hc⟩
  · exact .inr ⟨hi,lo,rfl,hhi,hlo⟩

/-- Characters of a class that has every pair: what they are cut from is paired, and its units are of the class. -/
theorem exists_characters (hsingle : ∀u,isSurrogate u=true→single u=true) :
    (∃pieces : List Text,(∀u∈pieces,u∈characters single fun _ _ => true) ∧ s=pieces.flatten) ↔ Paired s ∧
    ∀x∈s,single x=true := by
  constructor
  · rintro ⟨pieces,hall,rfl⟩
    refine ⟨paired_iff.mpr ⟨pieces,fun u hu => characters_isCharacter (hall u hu),rfl⟩,?_⟩
    intro x hx
    obtain ⟨u,hu,hxu⟩ := List.mem_flatten.mp hx
    rcases hall u hu with ⟨c,rfl,-,hc⟩ | ⟨hi,lo,rfl,hhi,hlo,-⟩
    · rwa [List.mem_singleton.mp hxu]
    · apply hsingle
      rcases List.mem_pair.mp hxu with rfl | rfl
      · rw [isSurrogate,hhi,Bool.true_or]
      · rw [isSurrogate,hlo,Bool.or_true]
  · rintro ⟨hs,hall⟩
    obtain ⟨pieces,hpieces,rfl⟩ := paired_iff.mp hs
    refine ⟨pieces,fun u hu => ?_,rfl⟩
    rcases hpieces u hu with ⟨c,rfl,hc⟩ | ⟨hi,lo,rfl,hhi,hlo⟩
    · exact .inl ⟨c,rfl,hc,hall c (List.mem_flatten.mpr ⟨_,hu,List.mem_singleton_self c⟩)⟩
    · exact .inr ⟨hi,lo,rfl,hhi,hlo,rfl⟩

theorem mem_star_characters (hk : has k=characters single fun _ _ => true)
    (hsingle : ∀u,isSurrogate u=true→single u=true)
    (hq : ∀n,q.Allows n) : s∈Re.language has (.rep (.cls k) q) ↔ Paired s ∧ ∀x∈s,single x=true := by
  rw [mem_rep,← exists_characters hsingle]
  simp only [mem_cls,hk,hq,true_and]

theorem mem_plus_characters (hk : has k=characters single fun _ _ => true)
    (hsingle : ∀u,isSurrogate u=true→single u=true) :
    s∈Re.language has (.rep (.cls k) .plus) ↔ s≠[] ∧ Paired s ∧ ∀x∈s,single x=true := by
  rw [mem_rep,← exists_characters hsingle]
  simp only [mem_cls,hk]
  constructor
  · rintro ⟨pieces,hq,hall,rfl⟩
    refine ⟨?_,pieces,hall,rfl⟩
    obtain ⟨u,hu⟩ := List.exists_mem_of_length_pos hq
    intro hnil
    have hempty := List.flatten_eq_nil_iff.mp hnil u hu
    rcases hall u hu with ⟨c,rfl,-⟩ | ⟨hi,lo,rfl,-⟩ <;> cases hempty
  · rintro ⟨hne,pieces,hall,rfl⟩
    refine ⟨pieces,?_,hall,rfl⟩
    rcases pieces with - | ⟨u,pieces⟩
    · exact absurd rfl hne
    · exact Nat.le_add_left 1 _

theorem surrogate_notSpace {u : UInt16} (h : isSurrogate u=true) : (!isAsciiSpace u)=true := by
  rw [Bool.not_eq_true',← Bool.not_eq_true]
  intro hspace
  have hlt : u.toNat < 0x80 := by
    simp only [isAsciiSpace,Bool.or_eq_true,Bool.and_eq_true,decide_eq_true_eq,UInt16.le_iff_toNat_le,
      UInt16.reduceToNat] at hspace
    rcases hspace with rfl | hspace
    · decide
    · omega
  simp only [isSurrogate,isHighSurrogate,isLowSurrogate,Bool.or_eq_true,Bool.and_eq_true,decide_eq_true_eq,
    UInt16.le_iff_toNat_le,UInt16.reduceToNat] at h
  omega

theorem surrogate_any {u : UInt16} (h : isSurrogate u=true) : decide (u≠0x0A)=true := by
  rw [decide_eq_true_iff]
  rintro rfl
  revert h
  decide

end

/-! ## Escaped texts -/

section
variable {s t : Text} {c : UInt16}

theorem readEscaped_length (s : Text) : (readEscaped s).length ≤ s.length := by
  fun_induction readEscaped s <;> grind

theorem apart_cons_cons {a b : UInt16} : Apart (a::b::s) ↔ ¬(a=0 ∧ isOctal b=true) ∧ Apart (b::s) :=
    List.isChain_cons_cons

theorem readEscaped_of_apart (h : Apart s) : readEscaped s=s := by
  fun_induction readEscaped s with
  | case1 a b s ha ih => rw [ih (apart_cons_cons.mp h).2]
  | case2 a b s ha hb ih => exact absurd ⟨rfl,by simpa using ha⟩ (apart_cons_cons.mp h).1
  | case3 a b s ha hb ih => exact absurd ⟨rfl,by simpa using ha⟩ (apart_cons_cons.mp h).1
  | case4 a ha => exact absurd ⟨rfl,ha⟩ (apart_cons_cons.mp h).1
  | case5 a ha => rfl
  | case6 c s _ _ ih => rw [ih (List.isChain_cons.mp h).2]
  | case7 => rfl

/-- A NUL that takes a digit costs it. -/
theorem apart_iff : Apart s ↔ (readEscaped s).length=s.length := by
  refine ⟨fun h => by rw [readEscaped_of_apart h],fun h => ?_⟩
  fun_induction readEscaped s with
  | case1 a b s ha ih =>
    refine apart_cons_cons.mpr ⟨fun hboth => ?_,ih (Nat.succ.inj h)⟩
    rw [hboth.2] at ha
    cases ha
  | case2 a b s ha hb ih =>
    have hle := readEscaped_length (b::s)
    simp only [List.length_cons] at h hle
    omega
  | case3 a b s ha hb ih =>
    have hle := readEscaped_length s
    simp only [List.length_cons] at h hle
    omega
  | case4 a ha => cases h
  | case5 a ha => exact apart_cons_cons.mpr ⟨fun hboth => ha hboth.2,.singleton a⟩
  | case6 c s hlong hpair ih =>
    refine List.isChain_cons.mpr ⟨?_,ih (Nat.succ.inj h)⟩
    rintro b hb ⟨rfl,-⟩
    match s,hb with
    | [b],_ => exact hpair b rfl rfl
    | b::d::s,_ => exact hlong b d s rfl rfl
  | case7 => exact .nil

end

/-! ## Expressions as the engine reads them -/

namespace Pattern
variable {p : Platform} {pair : UInt16→UInt16→Bool} {r : Pattern} {rs rs' : List Pattern} {s t : Text}

/-- What an expression shows to its neighbours. -/
def sign : Pattern→List (Option UInt16)
  | .cls (.escaped s) => s.map some
  | _ => [none]

/-- Not an escaped text. -/
def IsMark (r : Pattern) : Prop := ∀s,r≠.cls (.escaped s)

theorem mark_or (r : Pattern) : r.IsMark ∨ ∃s,r=.cls (.escaped s) := by
  by_cases h : r.IsMark
  · exact .inl h
  · rw [IsMark] at h
    push Not at h
    exact .inr h

theorem joined_mark (h : r.IsMark) : joined (r::rs)=r::joined rs := by
  cases r with
  | cls k => cases k with
    | escaped s => exact absurd rfl (h s)
    | _ => rfl
  | _ => rfl

theorem resolved_mark (h : r.IsMark) : resolved r=r := by
  cases r with
  | cls k => cases k with
    | escaped s => exact absurd rfl (h s)
    | _ => rfl
  | _ => rfl

theorem sign_mark (h : r.IsMark) : sign r=[none] := by
  cases r with
  | cls k => cases k with
    | escaped s => exact absurd rfl (h s)
    | _ => rfl
  | _ => rfl

theorem joined_escaped_cons (h : joined rs=.cls (.escaped t)::rs') :
    joined (.cls (.escaped s)::rs)=.cls (.escaped (s++t))::rs' := by
  rw [joined,h]

theorem joined_escaped_mark (h : ∀r∈(joined rs).head?,r.IsMark) :
    joined (.cls (.escaped s)::rs)=.cls (.escaped s)::joined rs := by
  rw [joined]
  split
  · rename_i t rs' hjoined
    rw [hjoined] at h
    exact absurd rfl (h _ rfl t)
  · rfl

/-- Whether what follows begins with an escaped text. -/
theorem joined_head (rs : List Pattern) :
    (∃t rs',joined rs=.cls (.escaped t)::rs') ∨ ∀r∈(joined rs).head?,r.IsMark := by
  cases joined rs with
  | nil => exact .inr (by simp)
  | cons r rs =>
    rcases mark_or r with hr | ⟨t,rfl⟩
    · exact .inr (by rintro _ ⟨⟩; exact hr)
    · exact .inl ⟨t,rs,rfl⟩

/-- What is no escaped text keeps what stands before it apart from what comes after. -/
theorem joined_append (h : ∀r∈rs'.head?,r.IsMark) : joined (rs++rs')=joined rs++joined rs' := by
  have hhead : ∀r∈(joined rs').head?,r.IsMark := by
    cases rs' with
    | nil => simp [joined]
    | cons r rs' =>
      rw [joined_mark (h r rfl)]
      exact h
  induction rs with
  | nil => rfl
  | cons r rs ih =>
    rw [List.cons_append]
    rcases mark_or r with hr | ⟨s,rfl⟩
    · rw [joined_mark hr,joined_mark hr,ih,List.cons_append]
    rcases joined_head rs with ⟨t,rs₁,hrs⟩ | hrs
    · rw [joined_escaped_cons hrs,joined_escaped_cons (by rw [ih,hrs,List.cons_append]),List.cons_append]
    · rw [joined_escaped_mark hrs,joined_escaped_mark,ih,List.cons_append]
      intro r hr
      rw [ih,List.head?_append] at hr
      rcases Option.or_eq_some_iff.mp hr with hr | ⟨-,hr⟩
      · exact hrs r hr
      · exact hhead r hr

theorem readRow_append (h : ∀r∈rs'.head?,r.IsMark) : readRow (rs++rs')=readRow rs++readRow rs' := by
  rw [readRow,joined_append h,List.map_append]
  rfl

theorem readRow_marks (h : ∀r∈rs,r.IsMark) : readRow (rs++rs')=rs++readRow rs' := by
  induction rs with
  | nil => rfl
  | cons r rs ih =>
    obtain ⟨hr,hrs⟩ := List.forall_mem_cons.mp h
    rw [readRow,List.cons_append,joined_mark hr,List.map_cons,resolved_mark hr,List.cons_append,← ih hrs]
    rfl

private theorem joined_signs : (joined rs).flatMap sign=rs.flatMap sign := by
  induction rs with
  | nil => rfl
  | cons r rs ih =>
    rcases mark_or r with hr | ⟨s,rfl⟩
    · rw [joined_mark hr,List.flatMap_cons,List.flatMap_cons,ih]
    rcases joined_head rs with ⟨t,rs',hrs⟩ | hrs
    · rw [joined_escaped_cons hrs,List.flatMap_cons,List.flatMap_cons,← ih,hrs,List.flatMap_cons,
        ← List.append_assoc]
      congr 1
      exact List.map_append
    · rw [joined_escaped_mark hrs,List.flatMap_cons,List.flatMap_cons,ih]

theorem language_joined : language p pair (.all (joined rs))=language p pair (.all rs) := by
  induction rs with
  | nil => rfl
  | cons r rs ih =>
    show _=language p pair r*language p pair (.all rs)
    rw [← ih]
    rcases mark_or r with hr | ⟨s,rfl⟩
    · rw [joined_mark hr]
      rfl
    rcases joined_head rs with ⟨t,rs',hrs⟩ | hrs
    · rw [joined_escaped_cons hrs,hrs]
      show ({s++t} : Language UInt16)*_={s}*({t}*_)
      rw [← mul_assoc]
      congr 1
      exact Set.image2_singleton.symm
    · rw [joined_escaped_mark hrs]
      rfl

theorem clear_append {a b : List (Option UInt16)} :
    Clear (a++b) ↔ Clear a ∧ Clear b ∧ ∀x∈a.getLast?,∀y∈b.head?,¬Takes x y := List.isChain_append

/-- A mark in place of some signs. -/
theorem Clear.cut {a m b : List (Option UInt16)} (h : Clear (a++m++b)) : Clear (a++none::b) := by
  have ha := (clear_append.mp (clear_append.mp h).1).1
  refine clear_append.mpr ⟨ha,List.isChain_cons.mpr ⟨fun _ _ hy => (nomatch hy.1),(clear_append.mp h).2.1⟩,?_⟩
  rintro x - y ⟨⟩ hy
  cases hy.2

/-- Signs that neither take a digit nor are taken, in place of a mark. -/
theorem Clear.fill {a m b : List (Option UInt16)} (h : Clear (a++none::b)) (hne : m≠[]) (hm : ∀x∈m,Still x) :
    Clear (a++m++b) := by
  obtain ⟨ha,hb,-⟩ := clear_append.mp h
  have hinner : Clear (m++b) := by
    refine clear_append.mpr ⟨?_,(List.isChain_cons.mp hb).2,fun x hx y _ htakes =>
      (hm x (List.mem_of_getLast? hx)).1 htakes.1⟩
    have hall : ∀x∈m,∀y∈m,¬Takes x y := fun x hx y _ htakes => (hm x hx).1 htakes.1
    exact (List.pairwise_of_forall_mem_list hall).isChain
  rw [List.append_assoc]
  refine clear_append.mpr ⟨ha,hinner,?_⟩
  rintro x - y hy ⟨-,hoctal⟩
  rw [List.head?_append_of_ne_nil _ hne] at hy
  rw [(hm y (List.mem_of_head? hy)).2] at hoctal
  cases hoctal

/-- Signs of their own between two marks. -/
theorem Clear.insert {a m b : List (Option UInt16)} (h : Clear (a++none::b)) (hm : Clear m) : Clear
    (a++(none::m++[none])++b) := by
  obtain ⟨ha,hb,-⟩ := clear_append.mp h
  have hinner : Clear (m++none::b) := by
    refine clear_append.mpr ⟨hm,hb,?_⟩
    rintro x - y ⟨⟩ hy
    cases hy.2
  simp only [List.append_assoc,List.cons_append,List.nil_append]
  refine clear_append.mpr ⟨ha,List.isChain_cons.mpr ⟨fun _ _ hy => (nomatch hy.1),hinner⟩,?_⟩
  rintro x - y ⟨⟩ hy
  cases hy.2

theorem signs_all (rs : List Pattern) : signs (.all rs)=rs.flatMap signs := by
  induction rs with
  | nil => rfl
  | cons r rs ih =>
    rw [List.flatMap_cons,← ih]
    rfl

theorem signs_append (rs rs' : List Pattern) : signs (.all (rs++rs'))=signs (.all rs)++signs (.all rs') := by
  rw [signs_all,signs_all,signs_all,List.flatMap_append]

/-- Where no escape takes a digit, reading changes nothing. -/
theorem readRow_legible (h : Clear (rs.flatMap sign)) : readRow rs=joined rs := by
  rw [← joined_signs,Clear] at h
  rw [readRow]
  generalize joined rs=rs at h ⊢
  induction rs with
  | nil => rfl
  | cons r rs ih =>
    rw [List.flatMap_cons,List.isChain_append] at h
    rw [List.map_cons,ih h.2.1]
    congr 1
    rcases mark_or r with hr | ⟨s,rfl⟩
    · exact resolved_mark hr
    · have hs : Apart s := by
        refine ((List.isChain_map some).mp h.1).imp ?_
        rintro a b hab ⟨rfl,hb⟩
        exact hab ⟨rfl,hb⟩
      rw [resolved,readEscaped_of_apart hs]

/-- No two escaped texts side by side. -/
def Isolated (rs : List Pattern) : Prop := rs.IsChain fun a b => a.IsMark ∨ b.IsMark

theorem joined_of_isolated (h : Isolated rs) : joined rs=rs := by
  induction rs with
  | nil => rfl
  | cons r rs ih =>
    have hcons := List.isChain_cons.mp h
    rcases mark_or r with hr | ⟨s,rfl⟩
    · rw [joined_mark hr,ih hcons.2]
    · rw [joined_escaped_mark,ih hcons.2]
      rw [ih hcons.2]
      exact fun r hr => (hcons.1 r hr).resolve_left fun hmark => hmark s rfl

theorem clear_of_isolated (h : Isolated rs) (hs : ∀s,.cls (.escaped s)∈rs→Apart s) : Clear (rs.flatMap sign) := by
  induction rs with
  | nil => exact .nil
  | cons r rs ih =>
    have hcons := List.isChain_cons.mp h
    have hrest := ih hcons.2 fun s hmem => hs s (List.mem_cons_of_mem _ hmem)
    rw [List.flatMap_cons]
    rcases mark_or r with hr | ⟨s,rfl⟩
    · rw [sign_mark hr]
      exact List.isChain_cons.mpr ⟨fun y _ (htakes : Takes none y) => (nomatch htakes.1),hrest⟩
    · refine clear_append.mpr ⟨?_,hrest,?_⟩
      · exact (List.isChain_map some).mpr ((hs s List.mem_cons_self).imp fun a b hab htakes =>
          hab ⟨Option.some_inj.mp htakes.1,htakes.2⟩)
      · rintro x - y hy ⟨-,hoctal⟩
        cases rs with
        | nil => cases hy
        | cons r rs =>
          have hr : r.IsMark := (hcons.1 r rfl).resolve_left fun hmark => hmark s rfl
          rw [List.flatMap_cons,sign_mark hr] at hy
          cases hy
          cases hoctal

/-- A row begins and ends as its expression does. -/
theorem row_ends (r : Pattern) : ((row r).flatMap sign).head?=r.signs.head? ∧
    ((row r).flatMap sign).getLast?=r.signs.getLast? := by
  induction r with
  | seq a b iha ihb =>
    rw [row,signs,List.flatMap_append,List.head?_append,List.head?_append,List.getLast?_append,
      List.getLast?_append,iha.1,ihb.1,iha.2,ihb.2]
    exact ⟨rfl,rfl⟩
  | group r ih =>
    rw [signs,List.getLast?_concat]
    exact ⟨rfl,rfl⟩
  | cls k => cases k <;> exact ⟨by simp [row,signs,sign],by simp [row,signs,sign]⟩
  | _ => exact ⟨rfl,rfl⟩

theorem row_all (rs : List Pattern) : row (.all rs)=rs.flatMap row := by
  induction rs with
  | nil => rfl
  | cons r rs ih =>
    rw [List.flatMap_cons,← ih]
    rfl

theorem row_legible (h : r.Legible) : Clear ((row r).flatMap sign) := by
  induction r with
  | seq a b iha ihb =>
    rw [Legible,signs,clear_append] at h
    rw [row,List.flatMap_append,clear_append,(row_ends a).2,(row_ends b).1]
    exact ⟨iha h.1,ihb h.2.1,h.2.2⟩
  | empty => exact .nil
  | cls k =>
    change Clear ([cls k].flatMap sign)
    rw [List.flatMap_singleton]
    cases k <;> exact h
  | _ => exact .singleton none

private theorem language_row (h : r.Legible) : language p pair (.all (row r))=language p pair r := by
  induction r with
  | empty => rfl
  | seq a b iha ihb =>
    rw [Legible,signs,clear_append] at h
    show Re.language _ (.all (row a++row b))=_
    rw [language_all_append]
    exact congrArg₂ _ (iha h.1) (ihb h.2.1)
  | group r ih =>
    rw [Legible,signs] at h
    have hr : Legible r := (clear_append.mp (List.isChain_cons.mp h).2).1
    show language p pair (.all (readRow (row r)))*1=_
    rw [mul_one,readRow_legible (row_legible hr),language_joined]
    exact ih hr
  | _ => exact mul_one _

/-- A legible expression is read as it is meant. -/
theorem language_asRead (h : r.Legible) : language p pair r.asRead=language p pair r := by
  rw [asRead,readRow_legible (row_legible h),language_joined,language_row h]

/-! ### Groups -/

theorem groupCount_all (rs : List Pattern) : groupCount (.all rs)=(rs.map groupCount).sum := by
  induction rs with
  | nil => rfl
  | cons r rs ih =>
    rw [List.map_cons,List.sum_cons,← ih]
    rfl

theorem groupCount_readRow (rs : List Pattern) : groupCount (.all (readRow rs))=groupCount (.all rs) := by
  have hresolved : ∀r : Pattern,groupCount (resolved r)=groupCount r := by
    intro r
    rcases mark_or r with hr | ⟨s,rfl⟩
    · rw [resolved_mark hr]
    · rfl
  have hjoined : groupCount (.all (joined rs))=groupCount (.all rs) := by
    induction rs with
    | nil => rfl
    | cons r rs ih =>
      rw [groupCount_all,groupCount_all] at ih ⊢
      rcases mark_or r with hr | ⟨s,rfl⟩
      · rw [joined_mark hr,List.map_cons,List.sum_cons,ih,List.map_cons,List.sum_cons]
      rcases joined_head rs with ⟨t,rs',hrs⟩ | hrs
      · rw [joined_escaped_cons hrs,List.map_cons,List.map_cons,List.sum_cons,List.sum_cons,← ih,hrs]
        simp [groupCount]
      · rw [joined_escaped_mark hrs,List.map_cons,List.sum_cons,ih,List.map_cons,List.sum_cons]
  rw [readRow,groupCount_all,List.map_map,← hjoined,groupCount_all]
  exact congrArg List.sum (List.map_congr_left fun r _ => hresolved r)

/-- Groups keep their numbers. -/
theorem groupCount_row (r : Pattern) : groupCount (.all (row r))=groupCount r := by
  induction r with
  | empty => rfl
  | seq a b iha ihb =>
    rw [row,groupCount_all,List.map_append,List.sum_append,← groupCount_all,← groupCount_all,iha,ihb]
    rfl
  | group r ih =>
    show groupCount (.all (readRow (row r)))+1+0=_
    rw [groupCount_readRow,ih]
    rfl
  | _ => exact Nat.add_zero _

end Pattern

end Loftail
