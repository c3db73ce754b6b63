import Loftail.DateReading
import Loftail.Rendering

/-! # A date's expression matches what its format prints -/
namespace Loftail
open RegularLanguage RegularLanguage.Re

variable {p : Platform} {pair : UInt16→UInt16→Bool} {loc : Locale} {m : Moment} {n width : ℕ} {dot : Bool}
  {code : UInt16}

theorem forall_mem_of_all {α : Type} {l : List α} {P : α→Prop} [DecidablePred P]
    (h : (l.all fun x => decide (P x))=true) : ∀x∈l,P x := by
  simpa using h

theorem decimal_length : (decimal width n).length=width := by
  induction width generalizing n with
  | zero => rfl
  | succ width ih => rw [decimal,List.length_append,ih,List.length_singleton]

theorem digit_isAsciiDigit {d : ℕ} (h : d<10) : isAsciiDigit (0x30+d.toUInt16)=true := by
  revert d
  decide

theorem decimal_digits : ∀c∈decimal width n,isAsciiDigit c=true := by
  induction width generalizing n with
  | zero => simp [decimal]
  | succ width ih =>
    intro c hc
    rcases List.mem_append.mp hc with hc | hc
    · exact ih c hc
    · obtain rfl := List.mem_singleton.mp hc
      exact digit_isAsciiDigit (Nat.mod_lt _ (by decide))

theorem decimal_mem : decimal width n∈Pattern.language p pair (.digits width) :=
  Pattern.mem_digits.mpr ⟨decimal_length,decimal_digits⟩

private theorem digit_mem : decimal 1 n∈Pattern.language p pair (.cls .digit) :=
  singleton_mem_units.mpr (digit_isAsciiDigit (Nat.mod_lt _ (by decide)))

private theorem spaced_mem : spaced n∈Pattern.language p pair (.seq (.cls .spaceOrDigit) (Pattern.digits 1)) := by
  unfold spaced
  split
  · have hspace : [0x20]∈Pattern.language p pair (.cls .spaceOrDigit) := singleton_mem_units.mpr rfl
    exact append_mem_seq hspace decimal_mem
  · have hfirst : decimal 1 (n/10)∈Pattern.language p pair (.cls .spaceOrDigit) := by
      apply singleton_mem_units.mpr
      rw [digit_isAsciiDigit (Nat.mod_lt _ (by decide)),Bool.or_true]
    exact append_mem_seq hfirst decimal_mem

private theorem isAsciiDigit_of_isDigit {d : Char} (h : d.isDigit=true) : isAsciiDigit d.toNat.toUInt16=true := by
  have hbounds : 48≤d.toNat ∧ d.toNat≤57 := by
    simpa [Char.isDigit,UInt32.le_iff_toNat_le] using h
  have hall : ∀k<10,isAsciiDigit (48+k : ℕ).toUInt16=true := by decide
  have hk := hall (d.toNat-48) (by omega)
  rwa [Nat.add_sub_cancel' hbounds.1] at hk

private theorem number_mem {most : ℕ} (hmost : 0 < most) (h : n<10^most) : number n∈Pattern.language p pair
    (.digitsBetween 1 most) := by
  apply Pattern.mem_digitsBetween.mpr
  refine ⟨⟨?_,?_⟩,?_⟩
  · rw [number,List.length_map]
    exact Nat.length_toDigits_pos
  · rw [number,List.length_map]
    exact (Nat.length_toDigits_le_iff (by decide) hmost).mpr h
  · intro c hc
    obtain ⟨d,hd,rfl⟩ := List.mem_map.mp hc
    exact isAsciiDigit_of_isDigit (Nat.isDigit_of_mem_toDigits (by decide) (by decide) hd)

theorem name_mem {kind : DateTokenKind} {qt : String} {name : Text} (h : IsNameRun p pair dot name) :
    name∈Pattern.language p pair (DateItem.name kind qt dot).regex := by
  obtain ⟨letters,hne,hletters,hname⟩ := h
  have hrun : letters.flatten∈Pattern.language p pair (.rep (.cls .letter) .plus) :=
    mem_rep.mpr ⟨letters,List.length_pos_iff.mpr hne,hletters,rfl⟩
  cases dot with
  | true =>
    rcases hname with rfl | ⟨hdot,-⟩
    · exact hrun
    · cases hdot
  | false =>
    rcases hname with rfl | ⟨-,rfl⟩
    · have hplain := append_mem_seq hrun (mem_rep_optional.mpr (Or.inl rfl) :
        []∈Pattern.language p pair (.rep (.cls (.escaped [0x2E])) .optional))
      rwa [List.append_nil] at hplain
    · exact append_mem_seq hrun (mem_rep_optional.mpr (Or.inr rfl))

theorem meridiem_mem {first : CharClass} {second qt : String} {name : Text} {a b m' : UInt16}
    (hclass : first.language p pair=units fun c => c=a || c=b) (hsecond : latin1 second=[m'])
    (h : name∈[[a,m'],[b,m']]) : name∈Pattern.language p pair (DateItem.meridiem first second qt dot).regex := by
  have hm : [m']∈Pattern.language p pair (.cls (.verbatim (latin1 second))) := hsecond.symm
  rcases List.mem_pair.mp h with rfl | rfl
  · apply append_mem_seq (s:=[a]) ?_ hm
    rw [mem_cls,hclass,singleton_mem_units,decide_eq_true rfl,Bool.true_or]
  · apply append_mem_seq (s:=[b]) ?_ hm
    rw [mem_cls,hclass,singleton_mem_units,decide_eq_true rfl,Bool.or_true]

private theorem millisFrac_mem : decimal 3 n++latin1 "."++
    decimal 3 width∈Pattern.language p pair DateItem.millisFrac.regex := by
  rw [List.append_assoc]
  apply append_mem_seq decimal_mem
  apply mem_rep_optional.mpr
  right
  left
  apply append_mem_seq (Pattern.mem_escaped.mpr rfl)
  apply Pattern.mem_digitsBetween.mpr
  exact ⟨⟨by rw [decimal_length]; decide,by rw [decimal_length]; decide⟩,decimal_digits⟩

private theorem utcOffset_mem {west : Bool} :
    (if west then latin1 "-" else latin1 "+")++decimal 2 n++
    decimal 2 width∈Pattern.language p pair DateItem.utcOffset.regex := by
  left
  rw [List.append_assoc]
  apply append_mem_seq
  · cases west with
    | true => exact ⟨0x2D,rfl,rfl⟩
    | false => exact ⟨0x2B,rfl,rfl⟩
  · apply append_mem_seq decimal_mem
    have hcolon : []∈Pattern.language p pair (.rep (.cls (.verbatim (latin1 ":"))) .optional) :=
      mem_rep_optional.mpr (Or.inl rfl)
    have hminutes : decimal 2 width∈Pattern.language p pair (Pattern.digits 2) := decimal_mem
    have hboth := append_mem_seq hcolon hminutes
    rwa [List.nil_append] at hboth

private theorem zoneName_mem {name : Text} (h : IsZoneName name) : name∈Pattern.language p pair
    (DateItem.zoneName dot).regex := by
  cases name with
  | nil => exact h.elim
  | cons c rest =>
    have hfirst : [c]∈Pattern.language p pair (.cls .zoneStart) := singleton_mem_units.mpr h.1
    exact append_mem_seq hfirst ((mem_rep_units rfl).mpr ⟨trivial,h.2⟩)

/-- A code's expression matches what the code prints. -/
theorem printed_mem {item : DateItem} (h : dateCode code dot=some item) (hfits : m.CodeFits p pair loc code dot) :
    m.printed loc code∈Pattern.language p pair item.regex := by
  have htable : ∀x∈dateTable dot,m.CodeFits p pair loc x.1 dot→
    m.printed loc x.1∈Pattern.language p pair x.2.regex := by
    simp only [dateTable,List.forall_mem_cons]
    refine ⟨?Y,?y,?m,?d,?e,?b,?h,?B,?a,?A,?H,?k,?I,?l,?M,?S,?p,?P,?q,?Q,?s,?z,?Z,?j,?C,?g,?U,?V,?W,?G,?u,?w,?t,
      ?percent,by simp⟩
    case b | h =>
      rintro ⟨hshort,-⟩
      exact name_mem (hshort (by decide))
    case B =>
      rintro ⟨-,hlong,-⟩
      exact name_mem (hlong rfl)
    case a =>
      rintro ⟨-,-,hday,-⟩
      exact name_mem (hday rfl)
    case A =>
      rintro ⟨-,-,-,hweekday,-⟩
      exact name_mem (hweekday rfl)
    case p =>
      rintro ⟨-,-,-,-,hupper,-⟩
      exact meridiem_mem rfl rfl (hupper (.inl rfl))
    case P =>
      rintro ⟨-,-,-,-,-,hlower,-⟩
      exact meridiem_mem rfl rfl (hlower rfl)
    case Z =>
      rintro ⟨-,-,-,-,-,-,hzone,-⟩
      exact zoneName_mem (hzone rfl)
    case e | k | l => exact fun _ => spaced_mem
    case Q => exact fun _ => millisFrac_mem
    case s => exact fun _ => number_mem (by decide) m.epoch_digits
    case z => exact fun _ => utcOffset_mem
    case u | w => exact fun _ => digit_mem
    case t => exact fun _ => (rfl : latin1 "\t"=[0x09])
    case percent => exact fun _ => Pattern.mem_escaped.mpr rfl
    all_goals exact fun _ => decimal_mem
  exact htable _ (dateCode_mem h) hfits

/-! ## Shorthands and whole formats -/

theorem shorthand_cases (h : expansionOf code≠[]) :
    code∈[unit 'c',unit 'D',unit 'F',unit 'r',unit 'R',unit 'T',unit 'x',unit 'X'] := by
  by_contra hnone
  simp only [List.mem_cons,List.not_mem_nil,or_false,not_or] at hnone
  obtain ⟨hc,hD,hF,hr,hR,hT,hx,hX⟩ := hnone
  apply h
  unfold expansionOf
  rw [if_neg hc,if_neg hD,if_neg hF,if_neg hr,if_neg hR,if_neg hT,if_neg hx,if_neg hX]

theorem strftime_time (text : Text) :
    m.strftime loc (latin1 "%H:%M:%S"++text)=m.clock++m.strftime loc text := by
  show decimal 2 m.hour++(latin1 ":"++
    (decimal 2 m.minute++(latin1 ":"++(decimal 2 m.second++m.strftime loc text))))=_
  simp only [Moment.clock,List.append_assoc]

theorem strftime_slashed : m.strftime loc (latin1 "%m/%d/%y")=m.slashed := by
  show decimal 2 (m.month+1)++(latin1 "/"++(decimal 2 (m.day+1)++(latin1 "/"++(decimal 2 m.year++[]))))=_
  simp only [Moment.slashed,List.append_assoc,List.append_nil]

/-- A shorthand prints what its expansion prints. -/
theorem printed_shorthand (h : expansionOf code≠[]) : m.printed loc code=m.strftime loc (expansionOf code) := by
  have hclock : m.clock=m.strftime loc (latin1 "%H:%M:%S") := by
    have htime : m.strftime loc (latin1 "%H:%M:%S"++[])=m.clock++[] := strftime_time []
    rw [List.append_nil] at htime
    rw [htime]
    exact (List.append_nil _).symm
  have hcases := shorthand_cases h
  clear h
  revert code
  simp only [List.forall_mem_cons]
  refine ⟨?_,strftime_slashed.symm,?_,?_,?_,hclock,strftime_slashed.symm,hclock,?_⟩
  · show m.dateAndTime loc=loc.shortWeekday m.weekday++(latin1 " "++(loc.shortMonth m.month++(latin1 " "++
      (spaced (m.day+1)++(latin1 " "++m.strftime loc (latin1 "%H:%M:%S"++latin1 " %Y"))))))
    rw [strftime_time]
    show _=loc.shortWeekday m.weekday++(latin1 " "++(loc.shortMonth m.month++(latin1 " "++
      (spaced (m.day+1)++(latin1 " "++(m.clock++(latin1 " "++(decimal 4 m.year++[]))))))))
    simp only [Moment.dateAndTime,List.append_assoc,List.append_nil]
  · show _=decimal 4 m.year++(latin1 "-"++(decimal 2 (m.month+1)++(latin1 "-"++(decimal 2 (m.day+1)++[]))))
    show decimal 4 m.year++latin1 "-"++decimal 2 (m.month+1)++latin1 "-"++decimal 2 (m.day+1)=_
    simp only [List.append_assoc,List.append_nil]
  · show decimal 2 m.hour12++latin1 ":"++decimal 2 m.minute++latin1 ":"++decimal 2 m.second++latin1 " "++
      loc.meridiem m.afternoon=decimal 2 m.hour12++
        (latin1 ":"++(decimal 2 m.minute++(latin1 ":"++(decimal 2 m.second++
        (latin1 " "++(loc.meridiem m.afternoon++[]))))))
    simp only [List.append_assoc,List.append_nil]
  · show decimal 2 m.hour++latin1 ":"++decimal 2 m.minute=decimal 2 m.hour++(latin1 ":"++(decimal 2 m.minute++[]))
    simp only [List.append_assoc,List.append_nil]
  · simp

/-- The names of a shorthand are those of its expansion. -/
theorem fits_shorthand {following : UInt16} (h : expansionOf code≠[]) (hfits : m.CodeFits p pair loc code dot) :
    m.Fits p pair loc following (expansionOf code) := by
  have hfree : ∀c∈latin1 "mdyHMSYIe",∀dot,m.CodeFits p pair loc c dot := by
    simp +decide [Moment.CodeFits,latin1]
  have hcases := shorthand_cases h
  clear h
  revert hfits
  revert code
  simp only [List.forall_mem_cons]
  have hclock : m.Fits p pair loc following (latin1 "%H:%M:%S") :=
    And.intro (hfree _ (by decide) _)
      (And.intro (hfree _ (by decide) _) (And.intro (hfree _ (by decide) _) trivial))
  have hslashed : m.Fits p pair loc following (latin1 "%m/%d/%y") :=
    And.intro (hfree _ (by decide) _)
      (And.intro (hfree _ (by decide) _) (And.intro (hfree _ (by decide) _) trivial))
  have hdashed : m.Fits p pair loc following (latin1 "%Y-%m-%d") :=
    And.intro (hfree _ (by decide) _)
      (And.intro (hfree _ (by decide) _) (And.intro (hfree _ (by decide) _) trivial))
  refine ⟨?_,fun _ => hslashed,fun _ => hdashed,?_,fun _ => ?_,fun _ => hclock,fun _ => hslashed,fun _ => hclock,?_⟩
  · intro hfits
    obtain ⟨-,-,-,-,-,-,-,hnames⟩ := hfits
    obtain ⟨hday,hmonth⟩ := hnames rfl
    have hweekdayFits : m.CodeFits p pair loc (unit 'a') false := by
      simp +decide [Moment.CodeFits,hday]
    have hmonthFits : m.CodeFits p pair loc (unit 'b') false := by
      simp +decide [Moment.CodeFits,hmonth]
    exact And.intro hweekdayFits (And.intro hmonthFits
      (And.intro (hfree _ (by decide) _) (And.intro (hfree _ (by decide) _)
      (And.intro (hfree _ (by decide) _)
        (And.intro (hfree _ (by decide) _) (And.intro (hfree _ (by decide) _) trivial))))))
  · intro hfits
    obtain ⟨-,-,-,-,hmeridiem,-⟩ := hfits
    have hmeridiemFits : ∀dot,m.CodeFits p pair loc (unit 'p') dot := by
      have hnames := hmeridiem (Or.inr rfl)
      intro dot
      simpa +decide [Moment.CodeFits] using hnames
    exact And.intro (hfree _ (by decide) _) (And.intro (hfree _ (by decide) _) (And.intro (hfree _ (by decide) _)
      (And.intro (hmeridiemFits _) trivial)))
  · exact And.intro (hfree _ (by decide) _) (And.intro (hfree _ (by decide) _) trivial)
  · simp

/-- An expansion has no shorthand in it. -/
theorem expansionOf_shorthand (h : expansionOf code≠[]) : ∀c∈expansionOf code,expansionOf c=[] := by
  have hnone : ∀code∈[unit 'c',unit 'D',unit 'F',unit 'r',unit 'R',unit 'T',unit 'x',unit 'X'],
      ((expansionOf code).all fun c => decide (expansionOf c=[]))=true := forall_mem_of_all (by decide)
  intro c hc
  exact of_decide_eq_true (List.all_eq_true.mp (hnone code (shorthand_cases h)) c hc)

private theorem strftime_literal {c : UInt16} {rest : Text} (hc : c≠0x25) : m.strftime loc
    (c::rest)=c::m.strftime loc rest := by
  cases rest with
  | nil => rfl
  | cons code rest => rw [Moment.strftime,if_pos hc]

private theorem fits_literal {c following : UInt16} {rest : Text} (hc : c≠0x25)
    (h : m.Fits p pair loc following (c::rest)) :
    m.Fits p pair loc following rest := by
  cases rest with
  | nil => trivial
  | cons code rest => rwa [Moment.Fits,if_pos hc] at h

/-- What a format prints is matched by what it is translated to. -/
theorem strftime_mem {isLetter : UInt16→Bool} {composite : Text→ℤ→UInt16→Except CompileError (List DateItem)}
    {following : UInt16} {fmt : Text} {offset : ℤ} {items : List DateItem}
    (hcomposite : ∀code∈fmt,expansionOf code≠[]→∀dot at' next expanded,m.CodeFits p pair loc code dot→
      composite (expansionOf code) at' next=.ok expanded→
        m.printed loc code∈Pattern.language p pair (.all (expanded.map DateItem.regex)))
    (h : translateWith isLetter composite following fmt offset=.ok items)
    (hfits : m.Fits p pair loc following fmt) :
    m.strftime loc fmt∈Pattern.language p pair (.all (items.map DateItem.regex)) := by
  induction fmt,offset using translateWith.induct following generalizing items with
  | case1 offset =>
    cases h
    exact mem_empty.mpr rfl
  | case2 c rest offset hc ih =>
    unfold translateWith at h
    rw [if_pos hc] at h
    obtain ⟨tail,htail,h⟩ := bind_ok h
    cases h
    rw [strftime_literal hc]
    have hrest := ih (fun code hcode => hcomposite code (List.mem_cons_of_mem _ hcode)) htail
      (fits_literal hc hfits)
    have hliteral : [c]∈Pattern.language p pair (DateItem.literal isLetter c).regex := Pattern.mem_escaped.mpr rfl
    exact append_mem_seq hliteral hrest
  | case3 c offset hc =>
    unfold translateWith at h
    rw [if_neg hc] at h
    cases h
  | case4 c offset hc code rest hexpand ih =>
    unfold translateWith at h
    rw [if_neg hc] at h
    dsimp only at h
    rw [if_pos hexpand] at h
    obtain ⟨expanded,hexpanded,h⟩ := bind_ok h
    obtain ⟨tail,htail,h⟩ := bind_ok h
    cases h
    rw [Moment.Fits,if_neg hc] at hfits
    rw [Moment.strftime,if_neg hc,List.map_append]
    have hrest := ih (fun code' hcode => hcomposite code' (by simp [hcode])) htail hfits.2
    exact append_mem_all (hcomposite code (by simp) hexpand _ _ _ _ hfits.1 hexpanded) hrest
  | case5 c offset hc code rest next hexpand =>
    rename_i hcode
    change dateCode code (rest.head?.getD following=0x2E)=none at hcode
    unfold translateWith at h
    rw [if_neg hc] at h
    dsimp only at h
    rw [if_neg hexpand,hcode] at h
    cases h
  | case6 c offset hc code rest next hexpand item =>
    rename_i hcode ih
    change dateCode code (rest.head?.getD following=0x2E)=some item at hcode
    unfold translateWith at h
    rw [if_neg hc] at h
    dsimp only at h
    rw [if_neg hexpand,hcode] at h
    obtain ⟨tail,htail,h⟩ := bind_ok h
    cases h
    rw [Moment.Fits,if_neg hc] at hfits
    rw [Moment.strftime,if_neg hc]
    have hrest := ih (fun code' hcode => hcomposite code' (by simp [hcode])) htail hfits.2
    exact append_mem_seq (printed_mem hcode hfits.1) hrest

theorem translateDateFormat_mem {isLetter : UInt16→Bool} {fmt : Text} {offset : ℤ} {t : DateTranslation}
    (h : translateDateFormat isLetter fmt offset=.ok t) (hfits : m.Fits p pair loc 0 fmt) :
    m.strftime loc fmt∈Pattern.language p pair t.regex := by
  rw [translateDateFormat] at h
  cases hitems : translateWith isLetter (translateExpansion isLetter) 0 fmt offset with
  | error e =>
    rw [hitems] at h
    cases h
  | ok items =>
    rw [hitems] at h
    cases h
    refine strftime_mem ?_ hitems hfits
    intro code _ hexpand dot at' next expanded hcode hexpanded
    rw [printed_shorthand hexpand]
    refine strftime_mem ?_ hexpanded (fits_shorthand hexpand hcode)
    intro inner hinner hnested
    exact absurd (expansionOf_shorthand hexpand inner hinner) hnested

/-! ## What a format writes escaped -/

/-- The signs a format is translated to. -/
structure Written (fmt : Text) (signs : List (Option UInt16)) : Prop where
  clear : Apart fmt→Pattern.Clear signs
  head : ∀y∈signs.head?,y.any isOctal=true→y=fmt.head?
  still : ∀x∈signs,Pattern.Still x ∨ ∃c∈fmt,x=some c
  empty : signs=[]→fmt=[]

section
variable {fmt rest : Text} {signs m : List (Option UInt16)} {c c' : UInt16}

private theorem written_nil : Written [] [] := ⟨fun _ => .nil,by simp,by simp,fun _ => rfl⟩

private theorem written_literal (h : Written rest signs) : Written (c::rest) (some c::signs) where
  clear := by
    intro hapart
    have hcons := List.isChain_cons.mp hapart
    refine List.isChain_cons.mpr ⟨?_,h.clear hcons.2⟩
    rintro y hy ⟨hc,hoctal⟩
    cases y with
    | none => cases hoctal
    | some d => exact hcons.1 d (h.head _ hy hoctal).symm ⟨Option.some_inj.mp hc,hoctal⟩
  head := by
    rintro _ ⟨⟩ -
    rfl
  still := by
    intro x hx
    rcases List.mem_cons.mp hx with rfl | hx
    · exact .inr ⟨c,List.mem_cons_self,rfl⟩
    · exact (h.still x hx).imp_right fun ⟨d,hd,hx⟩ => ⟨d,List.mem_cons_of_mem _ hd,hx⟩
  empty := nofun

theorem written_code (hne : m≠[]) (hm : ∀x∈m,Pattern.Still x) (h : Written rest signs) : Written (c::c'::rest)
    (m++signs) where
  clear := by
    intro hapart
    have hrest := (List.isChain_cons.mp (List.isChain_cons.mp hapart).2).2
    refine Pattern.clear_append.mpr ⟨?_,h.clear hrest,?_⟩
    · apply List.Pairwise.isChain
      exact List.pairwise_of_forall_mem_list fun x hx y _ htakes => (hm x hx).1 htakes.1
    · exact fun x hx y _ htakes => (hm x (List.mem_of_getLast? hx)).1 htakes.1
  head := by
    intro y hy hoctal
    cases m with
    | nil => exact absurd rfl hne
    | cons x m =>
      obtain rfl : x=y := Option.some_inj.mp hy
      rw [(hm x List.mem_cons_self).2] at hoctal
      cases hoctal
  still := by
    intro x hx
    rcases List.mem_append.mp hx with hx | hx
    · exact .inl (hm x hx)
    · exact (h.still x hx).imp_right fun ⟨d,hd,hx⟩ => ⟨d,by simp [hd],hx⟩
  empty := fun h => absurd (List.append_eq_nil_iff.mp h).1 hne

/-- Every code is translated to something that no escape before it takes, and takes nothing after it. -/
theorem code_still {code : UInt16} {dot : Bool} {item : DateItem} (h : dateCode code dot=some item) :
    Pattern.signs item.regex≠[] ∧ ∀x∈Pattern.signs item.regex,Pattern.Still x := by
  have hmark : ∀x∈[none],Pattern.Still x := List.forall_mem_singleton.mpr ⟨(Option.some_ne_none 0).symm,rfl⟩
  have hmarks : ∀x∈[none,none],Pattern.Still x :=
    List.forall_mem_cons.mpr ⟨⟨(Option.some_ne_none 0).symm,rfl⟩,hmark⟩
  have hpercent : ∀x∈[some 0x25],Pattern.Still x := List.forall_mem_singleton.mpr ⟨by decide,by decide⟩
  have htable : ∀x∈dateTable dot,Pattern.signs x.2.regex≠[] ∧ ∀y∈Pattern.signs x.2.regex,Pattern.Still y := by
    simp only [dateTable,List.forall_mem_cons]
    have hname : ∀{kind qt},Pattern.signs (DateItem.name kind qt dot).regex≠[] ∧
        ∀y∈Pattern.signs (DateItem.name kind qt dot).regex,Pattern.Still y := by
      intro kind qt
      cases dot
      · exact ⟨List.cons_ne_nil _ _,hmarks⟩
      · exact ⟨List.cons_ne_nil _ _,hmark⟩
    refine ⟨?Y,?y,?m,?d,?e,?b,?h,?B,?a,?A,?H,?k,?I,?l,?M,?S,?p,?P,?q,?Q,?s,?z,?Z,?j,?C,?g,?U,?V,?W,?G,?u,?w,?t,
      ⟨List.cons_ne_nil _ _,hpercent⟩,by simp⟩
    case b | h | B | a | A => exact hname
    case e | k | l | p | P | Q | Z => exact ⟨List.cons_ne_nil _ _,hmarks⟩
    all_goals exact ⟨List.cons_ne_nil _ _,hmark⟩
  exact htable _ (dateCode_mem h)

/-- The signs of a translated format. -/
theorem written_translate {isLetter : UInt16→Bool} {composite : Text→ℤ→UInt16→Except CompileError (List DateItem)}
    {following : UInt16} {offset : ℤ} {items : List DateItem}
    (hcomposite : ∀code∈fmt,expansionOf code≠[]→∀at' next expanded,composite
      (expansionOf code) at' next=.ok expanded→
      Pattern.signs (.all (expanded.map DateItem.regex))≠[] ∧ ∀x∈Pattern.signs
      (.all (expanded.map DateItem.regex)),Pattern.Still x)
    (h : translateWith isLetter composite following fmt offset=.ok items) :
    Written fmt (Pattern.signs (.all (items.map DateItem.regex))) := by
  induction fmt,offset using translateWith.induct following generalizing items with
  | case1 offset =>
    cases h
    exact written_nil
  | case2 c rest offset hc ih =>
    unfold translateWith at h
    rw [if_pos hc] at h
    obtain ⟨tail,htail,h⟩ := bind_ok h
    cases h
    exact written_literal (ih (fun code hcode => hcomposite code (List.mem_cons_of_mem _ hcode)) htail)
  | case3 c offset hc =>
    unfold translateWith at h
    rw [if_neg hc] at h
    cases h
  | case4 c offset hc code rest hexpand ih =>
    unfold translateWith at h
    rw [if_neg hc] at h
    dsimp only at h
    rw [if_pos hexpand] at h
    obtain ⟨expanded,hexpanded,h⟩ := bind_ok h
    obtain ⟨tail,htail,h⟩ := bind_ok h
    cases h
    obtain ⟨hne,hstill⟩ := hcomposite code (by simp) hexpand _ _ _ hexpanded
    rw [List.map_append,Pattern.signs_append]
    exact written_code hne hstill (ih (fun code' hcode => hcomposite code' (by simp [hcode])) htail)
  | case5 c offset hc code rest next hexpand =>
    rename_i hcode
    change dateCode code (rest.head?.getD following=0x2E)=none at hcode
    unfold translateWith at h
    rw [if_neg hc] at h
    dsimp only at h
    rw [if_neg hexpand,hcode] at h
    cases h
  | case6 c offset hc code rest next hexpand item =>
    rename_i hcode ih
    change dateCode code (rest.head?.getD following=0x2E)=some item at hcode
    unfold translateWith at h
    rw [if_neg hc] at h
    dsimp only at h
    rw [if_neg hexpand,hcode] at h
    obtain ⟨tail,htail,h⟩ := bind_ok h
    cases h
    obtain ⟨hne,hstill⟩ := code_still hcode
    exact written_code hne hstill (ih (fun code' hcode => hcomposite code' (by simp [hcode])) htail)

/-- A format whose NULs stand before no octal digit is translated to an expression that is read as it is meant. -/
theorem translateDateFormat_legible {isLetter : UInt16→Bool} {offset : ℤ} {t : DateTranslation}
    (h : translateDateFormat isLetter fmt offset=.ok t) (hfmt : Apart fmt) : Pattern.Legible t.regex := by
  rw [translateDateFormat] at h
  cases hitems : translateWith isLetter (translateExpansion isLetter) 0 fmt offset with
  | error e =>
    rw [hitems] at h
    cases h
  | ok items =>
    rw [hitems] at h
    cases h
    refine (written_translate ?_ hitems).clear hfmt
    intro code _ hexpand at' next expanded hexpanded
    have hwritten := written_translate (fun inner hinner hnested =>
      absurd (expansionOf_shorthand hexpand inner hinner) hnested) hexpanded
    have hplain : ∀code∈[unit 'c',unit 'D',unit 'F',unit 'r',unit 'R',unit 'T',unit 'x',unit 'X'],
        ((expansionOf code).all fun c => decide (c≠0 ∧ isOctal c=false))=true := forall_mem_of_all (by decide)
    refine ⟨fun hnil => hexpand (hwritten.empty hnil),fun x hx => ?_⟩
    rcases hwritten.still x hx with hstill | ⟨c,hc,rfl⟩
    · exact hstill
    · obtain ⟨hzero,hoctal⟩ := of_decide_eq_true (List.all_eq_true.mp (hplain code (shorthand_cases hexpand)) c hc)
      exact ⟨fun h => hzero (Option.some_inj.mp h),hoctal⟩

end

end Loftail
