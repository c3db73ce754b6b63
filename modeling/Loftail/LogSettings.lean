import Loftail.DateTranslation
import Loftail.LogNames
import Loftail.LogPathSpelling
import Loftail.SurrogatePairs
import Loftail.Wildcards
import Mathlib.Data.List.Chain

/-! # The settings a log inherits

An ordered list of file patterns stands over the logs, and the defaults over the patterns. -/
namespace Loftail
open QString RemoteLocation Wildcards

/-- `QRegularExpression`, without regard to case or with it: which patterns are small enough to be compiled,
which matches are not given up, which patterns are valid and where they match. -/
structure RegexEngine where
  fits : Text→Bool
  bears : Text→Text→Bool
  isValid : Bool→Text→Bool
  hasMatch : Bool→Text→Text→Bool

/-- `QRegularExpression::anchoredPattern`. -/
def anchoredPattern (expression : Text) : Text := latin1 "\\A(?:"++expression++latin1 ")\\z"

def wildcardToRegex (wildcard : Text) : Text :=
  anchoredPattern (wildcard.flatMap fun c => if c=0x2A then latin1 ".*" else if c=0x3F then
    latin1 "." else escape [c])

inductive PatternKind | wildcard | regex
  deriving DecidableEq,Repr

/-- One file pattern, matched against the name of a log or against its whole address. -/
structure LogPatternNode (Profile : Type) where
  id : Text
  kind : PatternKind
  matchText : Text
  caseSensitive : Bool
  matchFullPath : Bool
  profile : Profile

/-- The inherited levels: patterns in order of precedence, and the defaults. -/
structure LogSettingsTree (Profile : Type) where
  defaults : Profile
  patterns : List (LogPatternNode Profile)

section
variable {Profile : Type} (E : RegexEngine) (q : QUrl) (fs : FileSystem)

/-- Whether a pattern claims an address; one that does not compile claims nothing. -/
def LogPatternNode.claims (node : LogPatternNode Profile) (address : Text) : Bool :=
  if node.matchText.isEmpty then false
  else
    let target := logMatchTarget q fs address node.matchFullPath
    let caseless := !node.caseSensitive
    let re := match node.kind with
      | .wildcard => wildcardToRegex node.matchText
      | .regex => node.matchText
    if !E.isValid caseless re then false else E.hasMatch caseless re target

/-- The first pattern that matches, or the defaults. -/
def LogSettingsTree.inherited (tree : LogSettingsTree Profile) (address : Text) : Profile :=
  match tree.patterns.find? (·.claims E q fs address) with
  | some p => p.profile
  | none => tree.defaults

def LogSettingsTree.matchingPattern (tree : LogSettingsTree Profile) (address : Text) : ℤ :=
  match tree.patterns.findIdx? (·.claims E q fs address) with
  | some i => i
  | none => -1

end

/-! ### What the engine promises -/

/-- A sign as a pattern spells it. -/
def spellSign : Sign Char→Text
  | .run => latin1 ".*"
  | .one => latin1 "."
  | .itself c => escape (units c)

def signPattern (w : List (Sign Char)) : Text := anchoredPattern (w.flatMap spellSign)

def isOctalDigit (c : Char) : Bool := '0' ≤ c && c ≤ '7'

/-- The octal digits that signs begin with, `n` of them at most. -/
def octalRun : ℕ→List (Sign Char)→List ℕ
  | n+1,.itself c::w => if isOctalDigit c then (c.toNat-0x30)::octalRun n w else []
  | _,_ => []

def octalValue (digits : List ℕ) : Char := Char.ofNat (digits.foldl (fun n d => 8*n+d) 0)

/-- The signs as they are read: a NUL is spelled `\0`, which takes two octal digits that follow it. The first
`skip` signs have been taken. -/
def heard : ℕ→List (Sign Char)→List (Sign Char)
  | skip+1,_::w => heard skip w
  | 0,.itself c::w =>
    if c=Char.ofNat 0 then .itself (octalValue (octalRun 2 w))::heard
      (octalRun 2 w).length w else .itself c::heard 0 w
  | 0,s::w => s::heard 0 w
  | _,[] => []

/-- The documented rules: an unpaired surrogate makes a pattern invalid, and so does its size; a dot is one code
point and no newline, and a text that was escaped is that text, but for the digits behind a NUL. -/
structure RegexEngine.Documented (E : RegexEngine) : Prop where
  unpaired {caseless : Bool} {pattern : Text} : holdsUnpaired pattern=true → E.isValid caseless pattern=false
  valid (w : List (Sign Char)) : E.isValid false (signPattern w)=E.fits (signPattern w)
  reads (w : List (Sign Char)) (t : List Char) : E.hasMatch false (signPattern w) (ofCodePoints t)=true↔
    E.bears (signPattern w) (ofCodePoints t)=true ∧ Reading (· ≠ '\n') (heard 0 w) t

/-! ### What a wildcard describes -/

def signOf (c : Char) : Sign Char := if c = '*' then .run else if c = '?' then .one else .itself c

/-- A star stands for any string, a question mark for one character and every other character for itself. -/
def Describes (w t : List Char) : Prop := Reading (fun _ => True) (w.map signOf) t

/-- A character with one unit. -/
def Basic (c : Char) : Prop := c.toNat < 0x10000

instance : DecidablePred Basic := fun c => inferInstanceAs (Decidable (c.toNat < 0x10000))

/-- No NUL stands directly before an octal digit. -/
def NulsApart (w : List Char) : Prop := w.IsChain fun a b => ¬(a=Char.ofNat 0 ∧ isOctalDigit b=true)

/-- The engine takes a wildcard and reads a text by it. -/
structure RegexEngine.Covers (E : RegexEngine) (w t : List Char) : Prop where
  nonempty : w≠[]
  basic : ∀c∈w,Basic c
  fits : E.fits (wildcardToRegex (ofCodePoints w))=true
  bears : E.bears (wildcardToRegex (ofCodePoints w)) (ofCodePoints t)=true
  reading : Reading (· ≠ '\n') (heard 0 (w.map signOf)) t

/-- A character is one unit of its own, or a pair of surrogates. -/
theorem units_cases (c : Char) :
    Basic c ∧ units c=[c.toNat.toUInt16] ∧ c.toNat.toUInt16.toNat=c.toNat ∧ isSurrogate c.toNat.toUInt16=false ∨
      ¬Basic c ∧ ∃u v,units c=[u,v] ∧ isHighSurrogate u=true ∧ isLowSurrogate v=true := by
  have hc : c.toNat < 0xD800 ∨ 0xDFFF < c.toNat ∧ c.toNat < 0x110000 := c.valid
  by_cases h : c.toNat < 0x10000
  · have hu : c.toNat.toUInt16.toNat=c.toNat := by simp; omega
    refine .inl ⟨h,by rw [units,if_pos h],hu,?_⟩
    simp only [isSurrogate,isHighSurrogate,isLowSurrogate,Bool.or_eq_false_iff,Bool.and_eq_false_iff,
      decide_eq_false_iff_not,UInt16.le_iff_toNat_le,hu]
    simp only [UInt16.reduceToNat]
    omega
  · refine .inr ⟨h,_,_,by rw [units,if_neg h],?_,?_⟩
    · have hu : (0xD800+(c.toNat-0x10000)/0x400).toUInt16.toNat=0xD800+(c.toNat-0x10000)/0x400 := by
        simp only [Nat.toUInt16_eq,UInt16.toNat_ofNat']
        omega
      simp only [isHighSurrogate,Bool.and_eq_true,decide_eq_true_eq,UInt16.le_iff_toNat_le,hu]
      simp only [UInt16.reduceToNat]
      omega
    · have hv : (0xDC00+(c.toNat-0x10000)%0x400).toUInt16.toNat=0xDC00+(c.toNat-0x10000)%0x400 := by
        simp only [Nat.toUInt16_eq,UInt16.toNat_ofNat']
        omega
      simp only [isLowSurrogate,Bool.and_eq_true,decide_eq_true_eq,UInt16.le_iff_toNat_le,hv]
      simp only [UInt16.reduceToNat]
      omega

section
variable {E : RegexEngine} {q : QUrl} {fs : FileSystem} {w t : List Char} {c : Char}
  {pre post : Text} {u v : UInt16}

/-- A surrogate behind a backslash and before one is unpaired, whatever stands around them. -/
theorem unpaired_between (hu : isHighSurrogate u=true) (post : Text) :
    ∀pre : Text,holdsUnpaired (pre++0x5C::u::0x5C::post)=true
  | [] => by
    have hback : isHighSurrogate 0x5C=false ∧ isLowSurrogate 0x5C=false := by decide
    simp [holdsUnpaired,hback,isSurrogate,hu]
  | [a] => by
    have hback : isLowSurrogate 0x5C=false := by decide
    rw [List.singleton_append,holdsUnpaired,hback,Bool.and_false,if_neg Bool.false_ne_true]
    exact Bool.or_eq_true_iff.mpr (.inr (unpaired_between hu post []))
  | a::b::pre => by
    rw [List.cons_append,List.cons_append,holdsUnpaired]
    split
    · exact unpaired_between hu post pre
    · exact Bool.or_eq_true_iff.mpr (.inr (unpaired_between hu post (b::pre)))

theorem surrogate_sign (h : isHighSurrogate u=true ∨ isLowSurrogate u=true) :
    isPlain u=false ∧ u≠0 ∧ u≠0x2A ∧ u≠0x3F := by
  have hbig : 0xD800≤u.toNat := by
    rcases h with h | h
    · simp only [isHighSurrogate,Bool.and_eq_true,decide_eq_true_eq,UInt16.le_iff_toNat_le,UInt16.reduceToNat] at h
      omega
    · simp only [isLowSurrogate,Bool.and_eq_true,decide_eq_true_eq,UInt16.le_iff_toNat_le,UInt16.reduceToNat] at h
      omega
  refine ⟨?_,?_,?_,?_⟩
  · simp only [isPlain,Bool.or_eq_false_iff,Bool.and_eq_false_iff,decide_eq_false_iff_not,UInt16.le_iff_toNat_le,
      UInt16.reduceToNat]
    refine ⟨⟨⟨?_,?_⟩,?_⟩,?_⟩
    · omega
    · omega
    · omega
    · rintro rfl
      simp at hbig
  all_goals
    rintro rfl
    simp at hbig

theorem escape_surrogate (h : isHighSurrogate u=true ∨ isLowSurrogate u=true) : escape [u]=[0x5C,u] := by
  obtain ⟨hplain,hzero,-,-⟩ := surrogate_sign h
  rw [escape,if_neg hzero,hplain]
  rfl

/-- A pair of surrogates is torn apart. -/
theorem wildcard_torn (h : ∃c∈w,¬Basic c) : holdsUnpaired (wildcardToRegex (ofCodePoints w))=true := by
  obtain ⟨c,hc,hbig⟩ := h
  obtain ⟨w₁,w₂,rfl⟩ := List.append_of_mem hc
  obtain ⟨u,v,hunits,hu,hv⟩ : ∃u v,units c=[u,v] ∧ isHighSurrogate u=true ∧ isLowSurrogate v=true := by
    rcases units_cases c with ⟨hbasic,-⟩ | ⟨-,h⟩
    · exact absurd hbasic hbig
    · exact h
  obtain ⟨-,-,hstar,hask⟩ := surrogate_sign (.inl hu)
  obtain ⟨-,-,hstar',hask'⟩ := surrogate_sign (.inr hv)
  unfold wildcardToRegex
  generalize hpiece : (fun c => if c=0x2A then latin1 ".*" else if c=0x3F then latin1 "." else escape [c])=piece
  have hpu : piece u=[0x5C,u] := by rw [← hpiece]; simp only [hstar,hask,if_false,escape_surrogate (.inl hu)]
  have hpv : piece v=[0x5C,v] := by rw [← hpiece]; simp only [hstar',hask',if_false,escape_surrogate (.inr hv)]
  have hshape : anchoredPattern ((ofCodePoints (w₁++c::w₂)).flatMap piece)=
      (latin1 "\\A(?:"++(ofCodePoints w₁).flatMap piece)++0x5C::u::0x5C::(v::(ofCodePoints w₂).flatMap piece++
        latin1 ")\\z") := by
    simp [anchoredPattern,hunits,hpu,hpv]
  rw [hshape]
  exact unpaired_between hu _ _

/-- A character with one unit is translated as the sign it is. -/
theorem wildcard_signs (h : ∀c∈w,Basic c) : wildcardToRegex (ofCodePoints w)=signPattern (w.map signOf) := by
  unfold wildcardToRegex signPattern
  congr 1
  induction w with
  | nil => rfl
  | cons c w ih =>
    rcases units_cases c with ⟨-,hunits,hval,-⟩ | ⟨hbig,-⟩
    · have hiff : ∀d : Char,Basic d → (c.toNat.toUInt16=d.toNat.toUInt16 ↔ c=d) := by
        intro d hd
        have hd' : d.toNat.toUInt16.toNat=d.toNat := by
          rcases units_cases d with ⟨-,-,hd',-⟩ | ⟨hbig,-⟩
          · exact hd'
          · exact absurd hd hbig
        constructor
        · intro heq
          have hnat := congrArg UInt16.toNat heq
          rw [hval,hd'] at hnat
          exact Char.toNat_inj.mp hnat
        · rintro rfl
          rfl
      have hstar : c.toNat.toUInt16=0x2A ↔ c = '*' := hiff '*' (by decide)
      have hask : c.toNat.toUInt16=0x3F ↔ c = '?' := hiff '?' (by decide)
      rw [ofCodePoints_cons,List.flatMap_append,List.map_cons,List.flatMap_cons,ih fun d hd =>
        h d (List.mem_cons_of_mem _ hd),hunits]
      congr 1
      simp only [List.flatMap_cons,List.flatMap_nil,List.append_nil,hstar,hask,signOf]
      split
      case isTrue => rfl
      case isFalse =>
        split
        case isTrue => rfl
        case isFalse => rw [spellSign,hunits]
    · exact absurd (h c List.mem_cons_self) hbig

/-- What a case-sensitive wildcard claims. -/
theorem claims_iff {Profile : Type} {node : LogPatternNode Profile} {address : Text} (hE : E.Documented)
    (hkind : node.kind=.wildcard) (hcase : node.caseSensitive=true) (htext : node.matchText=ofCodePoints w)
    (htarget : logMatchTarget q fs address node.matchFullPath=ofCodePoints t) :
    node.claims E q fs address=true↔E.Covers w t := by
  have hempty : (ofCodePoints w).isEmpty=w.isEmpty := by
    cases w with
    | nil => rfl
    | cons c w => simp [units_ne_nil]
  rw [LogPatternNode.claims,htext,hempty,htarget,hkind,hcase]
  constructor
  · intro h
    have hne : w≠[] := by
      rintro rfl
      cases h
    have hbasic : ∀c∈w,Basic c := by
      by_contra hbig
      have hinvalid : E.isValid false _=false := hE.unpaired (wildcard_torn (w:=w) (by simpa using hbig))
      simp [hinvalid] at h
    have hsigns := wildcard_signs hbasic
    have hfits := hE.valid (w.map signOf)
    rw [← hsigns] at hfits
    simp only [List.isEmpty_iff,hne,if_false,Bool.not_true,hfits,Bool.not_eq_true'] at h
    obtain ⟨htaken,hmatch⟩ : E.fits (wildcardToRegex (ofCodePoints w))=true ∧
        E.hasMatch false (wildcardToRegex (ofCodePoints w)) (ofCodePoints t)=true := by
      split at h
      · cases h
      · rename_i htaken
        exact ⟨eq_true_of_ne_false htaken,h⟩
    rw [hsigns] at hmatch
    obtain ⟨hbears,hread⟩ := (hE.reads (w.map signOf) t).mp hmatch
    exact ⟨hne,hbasic,htaken,hsigns▸hbears,hread⟩
  · intro h
    have hsigns := wildcard_signs h.basic
    have hmatch := (hE.reads (w.map signOf) t).mpr ⟨hsigns▸h.bears,h.reading⟩
    have hvalid := hE.valid (w.map signOf)
    rw [← hsigns] at hmatch hvalid
    simp [h.nonempty,hvalid,h.fits,hmatch]

private theorem octalRun_signs {n : ℕ} (h : ∀d∈w.head?,isOctalDigit d=false) : octalRun n (w.map signOf)=[] := by
  cases w with
  | nil => cases n <;> rfl
  | cons d w =>
    have hd := h d rfl
    cases n with
    | zero => rfl
    | succ n =>
      rw [List.map_cons,signOf]
      split
      · rfl
      split
      · rfl
      · rw [octalRun,hd,if_neg Bool.false_ne_true]

/-- Signs among which no NUL stands before an octal digit are read as they are. -/
theorem heard_apart (h : NulsApart w) : heard 0 (w.map signOf)=w.map signOf := by
  induction w with
  | nil => rfl
  | cons c w ih =>
    obtain ⟨hhead,hrest⟩ := List.isChain_cons.mp h
    rw [List.map_cons]
    by_cases hc : c=Char.ofNat 0
    · have hnone : octalRun 2 (w.map signOf)=[] := octalRun_signs fun d hd => by simpa [hc] using hhead d hd
      subst hc
      show heard 0 (.itself (Char.ofNat 0)::w.map signOf)=_
      rw [heard,if_pos rfl,hnone,List.length_nil,ih hrest]
      rfl
    · have hsign : heard 0 (signOf c::w.map signOf)=signOf c::heard 0 (w.map signOf) := by
        rw [signOf]
        split
        · rfl
        split
        · rfl
        · rw [heard,if_neg hc]
      rw [hsign,ih hrest]

example : heard 0 ([Char.ofNat 0,'1', '8'].map signOf)=[.itself (Char.ofNat 1),.itself '8'] := by decide

/-- What an address inherits is decided by one pattern, the first in the list that claims it, or by none. -/
theorem inherited_first {Profile : Type} (E : RegexEngine) (q : QUrl) (fs : FileSystem)
    (tree : LogSettingsTree Profile) (address : Text) :
    (∃i node,tree.matchingPattern E q fs address=(i : ℕ) ∧ tree.patterns[i]?=some node ∧
      node.claims E q fs address=true ∧
      (∀j earlier,j < i → tree.patterns[j]?=some earlier → earlier.claims E q fs address=false) ∧
      tree.inherited E q fs address=node.profile) ∨
    tree.matchingPattern E q fs address=-1 ∧ (∀node∈tree.patterns,node.claims E q fs address=false) ∧
      tree.inherited E q fs address=tree.defaults := by
  unfold LogSettingsTree.matchingPattern LogSettingsTree.inherited
  cases h : tree.patterns.findIdx? (·.claims E q fs address) with
  | none =>
    rw [List.findIdx?_eq_none_iff] at h
    have hnone : tree.patterns.find? (·.claims E q fs address)=none := by
      rw [List.find?_eq_none]
      intro node hnode
      rw [h node hnode]
      exact Bool.false_ne_true
    exact .inr ⟨rfl,h,by rw [hnone]⟩
  | some i =>
    obtain ⟨hi,hclaims,hearlier⟩ := List.findIdx?_eq_some_iff_getElem.mp h
    have hsome : tree.patterns.find? (·.claims E q fs address)=some tree.patterns[i] := by
      rw [List.find?_eq_some_iff_getElem]
      exact ⟨hclaims,i,hi,rfl,fun j hj => by simpa using hearlier j hj⟩
    refine .inl ⟨i,tree.patterns[i],rfl,List.getElem?_eq_getElem hi,hclaims,?_,by rw [hsome]⟩
    intro j earlier hj hget
    obtain ⟨hlt,rfl⟩ := List.getElem?_eq_some_iff.mp hget
    simpa using hearlier j hj

/-- A wildcard claims the names it describes exactly where the engine takes it and reads them by it, and no
others by what the digits behind a NUL make of it; where no digits stand there, none. The first that claims an
address decides what it inherits. -/
theorem wildcard_claims (E : RegexEngine) (hE : E.Documented) (q : QUrl) (fs : FileSystem) (Profile : Type) :
    (∀(node : LogPatternNode Profile) (address : Text) (w t : List Char),node.kind=.wildcard →
      node.caseSensitive=true →
      node.matchText=ofCodePoints w → logMatchTarget q fs address node.matchFullPath=ofCodePoints t →
        ((node.claims E q fs address=true↔Describes w t)↔
          (Describes w t → E.Covers w t) ∧ (¬Describes w t → ¬E.Covers w t)) ∧
        (NulsApart w → heard 0 (w.map signOf)=w.map signOf ∧ (¬Describes w t → ¬E.Covers w t))) ∧
    ∀(tree : LogSettingsTree Profile) (address : Text),
      (∃i node,tree.matchingPattern E q fs address=(i : ℕ) ∧ tree.patterns[i]?=some node ∧
        node.claims E q fs address=true ∧
        (∀j earlier,j < i → tree.patterns[j]?=some earlier → earlier.claims E q fs address=false) ∧
        tree.inherited E q fs address=node.profile) ∨
      tree.matchingPattern E q fs address=-1 ∧ (∀node∈tree.patterns,node.claims E q fs address=false) ∧
        tree.inherited E q fs address=tree.defaults := by
  refine ⟨?_,fun tree address => inherited_first E q fs tree address⟩
  intro node address w t hkind hcase htext htarget
  rw [claims_iff hE hkind hcase htext htarget]
  constructor
  · constructor
    · intro h
      exact ⟨h.mpr,fun hnot hcovers => hnot (h.mp hcovers)⟩
    · rintro ⟨hcovers,hnone⟩
      exact ⟨fun h => Classical.byContradiction fun hnot => hnone hnot h,hcovers⟩
  · intro hapart
    refine ⟨heard_apart hapart,fun hnot hcovers => hnot ?_⟩
    have hread := hcovers.reading
    rw [heard_apart hapart] at hread
    exact hread.mono fun _ _ => trivial

end

/-! ### An engine for such patterns -/

/-- The octal digits that a text begins with. -/
def octalPrefix : ℕ→List Char→List ℕ
  | n+1,c::t => if isOctalDigit c then (c.toNat-0x30)::octalPrefix n t else []
  | _,_ => []

/-- The signs that a pattern spells, whose first `skip` characters have been read. -/
def readSigns : ℕ→List Char→Option (List (Sign Char))
  | skip+1,_::t => readSigns skip t
  | 0,c::t =>
    if c = '.' then if t.head?=some '*' then (readSigns 1 t).map (.run::·) else (readSigns 0 t).map (.one::·)
    else if c = '\\' then
      match t.head? with
      | none => none
      | some d =>
        if d = '0' then
          (readSigns ((octalPrefix 2 t.tail).length+1) t).map (.itself (octalValue (octalPrefix 2 t.tail))::·)
        else (readSigns 1 t).map (.itself d::·)
    else (readSigns 0 t).map (.itself c::·)
  | _,[] => some []

def anchor : List Char := "\\A(?:".toList
def anchorEnd : List Char := ")\\z".toList

def readPattern (pattern : Text) : Option (List (Sign Char)) :=
  let cs := codePoints pattern
  if anchor.isPrefixOf cs && anchorEnd.isSuffixOf cs then
    readSigns 0 ((cs.drop anchor.length).take (cs.length-anchor.length-anchorEnd.length))
  else none

/-- An engine without limits. -/
def signEngine : RegexEngine where
  fits _ := true
  bears _ _ := true
  isValid _ pattern := !holdsUnpaired pattern && (readPattern pattern).isSome
  hasMatch _ pattern subject :=
    match readPattern pattern with
    | some w => reads (fun c => c ≠ '\n') w (codePoints subject)
    | none => false

/-- A sign as a pattern spells it, in characters. -/
def spellChars : Sign Char→List Char
  | .run => ['.', '*']
  | .one => ['.']
  | .itself c => if c=Char.ofNat 0 then ['\\','0'] else if (units c).all isPlain then [c] else ['\\',c]

section
variable {w : List (Sign Char)} {cs : List Char} {c : Char} {t : Text} {n skip : ℕ}

private theorem spell_chars (s : Sign Char) : spellSign s=ofCodePoints (spellChars s) := by
  cases s with
  | run => decide
  | one => decide
  | itself c =>
    have hback : units '\\'=[0x5C] := by decide
    have hzero : units '0'=[0x30] := by decide
    rcases units_cases c with ⟨-,hunits,hval,-⟩ | ⟨hbig,u,v,hunits,hu,hv⟩
    · have hnul : c.toNat.toUInt16=0↔c=Char.ofNat 0 := by
        rw [← UInt16.toNat_inj,hval]
        exact Char.toNat_inj (c:=c) (d:=Char.ofNat 0)
      simp only [spellSign,spellChars,hunits,escape,List.all_cons,List.all_nil,Bool.and_true,hnul]
      split
      · simp [hback,hzero,latin1]
      · split <;> simp [hunits,hback]
    · obtain ⟨hplain,hzero,-,-⟩ := surrogate_sign (.inl hu)
      have hc : c≠Char.ofNat 0 := by
        rintro rfl
        exact hbig (by decide)
      have hpair : (0xD800≤u && u≤0xDBFF)=true := hu
      simp [spellSign,spellChars,hunits,escape,hplain,hzero,hc,hback,hpair]

theorem pattern_chars (w : List (Sign Char)) : signPattern w=ofCodePoints
    (anchor++w.flatMap spellChars++anchorEnd) := by
  have hbegin : latin1 "\\A(?:"=ofCodePoints anchor := by decide
  have hend : latin1 ")\\z"=ofCodePoints anchorEnd := by decide
  have hsigns : w.flatMap spellSign=ofCodePoints (w.flatMap spellChars) := by
    induction w with
    | nil => rfl
    | cons s w ih => rw [List.flatMap_cons,List.flatMap_cons,ih,spell_chars,ofCodePoints_append]
  rw [signPattern,anchoredPattern,hbegin,hend,hsigns,ofCodePoints_append,ofCodePoints_append]

private theorem paired_units : holdsUnpaired (units c++t)=holdsUnpaired t := by
  rcases units_cases c with ⟨-,hunits,-,hplain⟩ | ⟨-,u,v,hunits,hu,hv⟩
  · have hhigh : isHighSurrogate c.toNat.toUInt16=false := (Bool.or_eq_false_iff.mp hplain).1
    rw [hunits]
    cases t with
    | nil => exact hplain
    | cons v t => simp [holdsUnpaired,hhigh,hplain]
  · rw [hunits]
    simp [holdsUnpaired,hu,hv]

private theorem paired_chars (cs : List Char) : holdsUnpaired (ofCodePoints cs)=false := by
  induction cs with
  | nil => rfl
  | cons c cs ih => rw [ofCodePoints_cons,paired_units,ih]

theorem octal_plain (h : isOctalDigit c=true) : c≠Char.ofNat 0 ∧ (units c).all isPlain=true := by
  have hbounds : 0x30≤c.toNat ∧ c.toNat≤0x37 := by
    simpa [isOctalDigit,Char.le_def,UInt32.le_iff_toNat_le] using h
  refine ⟨?_,?_⟩
  · rintro rfl
    revert h
    decide
  · rcases units_cases c with ⟨-,hunits,hval,-⟩ | ⟨hbig,-⟩
    · simp only [hunits,List.all_cons,List.all_nil,Bool.and_true,isPlain,Bool.or_eq_true,Bool.and_eq_true,
        decide_eq_true_eq,UInt16.le_iff_toNat_le,hval]
      simp only [UInt16.reduceToNat]
      omega
    · exact absurd (show c.toNat < 0x10000 by omega) hbig

/-- The digits that signs begin with are those that their spelling does. -/
theorem octal_spelled (w : List (Sign Char)) : octalPrefix n (w.flatMap spellChars)=octalRun n w := by
  have hback : isOctalDigit '\\'=false := by decide
  have hdot : isOctalDigit '.'=false := by decide
  induction n generalizing w with
  | zero => simp [octalPrefix,octalRun]
  | succ n ih =>
    cases w with
    | nil => rfl
    | cons s w =>
      cases s with
      | run => simp [spellChars,octalPrefix,octalRun,hdot]
      | one => simp [spellChars,octalPrefix,octalRun,hdot]
      | itself c =>
        rw [List.flatMap_cons,octalRun]
        split
        case isTrue hc =>
          obtain ⟨hnul,hplain⟩ := octal_plain hc
          rw [spellChars,if_neg hnul,if_pos hplain,List.singleton_append,octalPrefix,if_pos hc,ih]
        case isFalse hc =>
          rw [spellChars]
          split
          · simp [octalPrefix,hback]
          split
          · simp [octalPrefix,hc]
          · simp [octalPrefix,hback]

private theorem spelled_head (w : List (Sign Char)) : (w.flatMap spellChars).head?≠some '*' := by
  cases w with
  | nil => simp
  | cons s w =>
    cases s with
    | run => simp [spellChars]
    | one => simp [spellChars]
    | itself c =>
      rw [List.flatMap_cons,spellChars]
      split
      case isTrue => simp
      case isFalse =>
        split
        case isTrue hword =>
          have hstar : (units '*').all isPlain=false := by decide
          simp only [List.singleton_append,List.head?_cons,ne_eq,Option.some.injEq]
          rintro rfl
          rw [hstar] at hword
          cases hword
        case isFalse => simp

/-- The signs are read back as they are heard. -/
theorem readSigns_spelled (w : List (Sign Char)) (hskip : skip≤(octalRun n w).length) :
    readSigns skip (w.flatMap spellChars)=some (heard skip w) := by
  induction w generalizing skip n with
  | nil => cases skip <;> rfl
  | cons s w ih =>
    have hrest : readSigns 0 (w.flatMap spellChars)=some (heard 0 w) := ih (n:=0) (Nat.zero_le _)
    rw [List.flatMap_cons]
    cases skip with
    | succ skip =>
      -- What is passed over is a digit, which is spelled as it is.
      cases n with
      | zero => simp [octalRun] at hskip
      | succ n =>
        cases s with
        | run => simp [octalRun] at hskip
        | one => simp [octalRun] at hskip
        | itself c =>
          rw [octalRun] at hskip
          split at hskip
          · rename_i hc
            obtain ⟨hnul,hplain⟩ := octal_plain hc
            rw [spellChars,if_neg hnul,if_pos hplain,List.singleton_append,readSigns,heard]
            exact ih (Nat.le_of_succ_le_succ hskip)
          · simp at hskip
    | zero =>
      cases s with
      | run =>
        show readSigns 0 ('.':: '*'::w.flatMap spellChars)=_
        simp [readSigns,heard,hrest]
      | one =>
        show readSigns 0 ('.'::w.flatMap spellChars)=_
        rw [readSigns,if_pos rfl,if_neg (spelled_head w),hrest]
        rfl
      | itself c =>
        rw [spellChars,heard]
        split
        case isTrue =>
          show readSigns 0 ('\\':: '0'::w.flatMap spellChars)=_
          have htaken : readSigns (octalRun 2 w).length (w.flatMap spellChars)=
            some (heard (octalRun 2 w).length w) := ih (n:=2) le_rfl
          simp [readSigns,octal_spelled,htaken]
        case isFalse =>
          split
          case isTrue hword =>
            have hdot : (units '.').all isPlain=false := by decide
            have hback : (units '\\').all isPlain=false := by decide
            have hnotDot : c ≠ '.' := by
              rintro rfl
              rw [hdot] at hword
              cases hword
            have hnotBack : c ≠ '\\' := by
              rintro rfl
              rw [hback] at hword
              cases hword
            rw [List.singleton_append,readSigns,if_neg hnotDot,if_neg hnotBack,hrest]
            rfl
          case isFalse hword =>
            have hzero : (units '0').all isPlain=true := by decide
            have hnotZero : c ≠ '0' := by
              rintro rfl
              exact hword hzero
            show readSigns 0 ('\\'::c::w.flatMap spellChars)=_
            simp [readSigns,hnotZero,hrest]

theorem readPattern_spelled (w : List (Sign Char)) : readPattern (signPattern w)=some (heard 0 w) := by
  have hbegin : anchor.isPrefixOf (anchor++w.flatMap spellChars++anchorEnd)=true := by
    rw [List.isPrefixOf_iff_prefix,List.append_assoc]
    exact List.prefix_append _ _
  have hend : anchorEnd.isSuffixOf (anchor++w.flatMap spellChars++anchorEnd)=true := by
    rw [List.isSuffixOf_iff_suffix]
    exact List.suffix_append _ _
  have hlen : (anchor++w.flatMap spellChars++anchorEnd).length-anchor.length-anchorEnd.length=
    (w.flatMap spellChars).length := by
    simp only [List.length_append]
    omega
  rw [pattern_chars,readPattern,codePoints_ofCodePoints]
  simp only [hbegin,hend,Bool.and_self,if_true,hlen]
  rw [List.append_assoc,List.drop_left,List.take_left,readSigns_spelled (n:=0) w (Nat.zero_le _)]

private theorem signEngine_documented : signEngine.Documented where
  unpaired h := by simp [signEngine,h]
  valid w := by
    have hpaired : holdsUnpaired (signPattern w)=false := by
      rw [pattern_chars]
      exact paired_chars _
    show (!holdsUnpaired _ && (readPattern _).isSome)=true
    rw [hpaired,readPattern_spelled]
    rfl
  reads w t := by
    have hmatch : signEngine.hasMatch false (signPattern w) (ofCodePoints t)=reads (fun c => c ≠ '\n')
      (heard 0 w) t := by
      show (match readPattern (signPattern w) with
        | some w => reads (fun c => c ≠ '\n') w (codePoints (ofCodePoints t))
        | none => false)=_
      rw [readPattern_spelled,codePoints_ofCodePoints]
    rw [hmatch,reads_iff]
    simp only [decide_eq_true_eq,signEngine,true_and]

end

/-! ### A log with a name outside the BMP -/

/-- A case-sensitive wildcard over names. -/
def wildcardNode (w : List Char) : LogPatternNode Unit := ⟨[],.wildcard,ofCodePoints w,true,false,()⟩

def smilingLog : List Char := [Char.ofNat 0x1F600,'.', 'l', 'o', 'g']

private theorem smiling_target : logMatchTarget plainUrl plainFiles
    (slash::ofCodePoints smilingLog) false=ofCodePoints smilingLog := by
  decide +kernel

/-- A star covers every name without a newline. -/
theorem wildcard_claims_star : (wildcardNode ['*']).claims signEngine plainUrl plainFiles
    (slash::ofCodePoints smilingLog)=true↔
    Describes ['*'] smilingLog := by
  obtain ⟨hexact,hapart⟩ := (wildcard_claims signEngine signEngine_documented plainUrl plainFiles Unit).1
    (wildcardNode ['*'])
    (slash::ofCodePoints smilingLog) ['*'] smilingLog rfl rfl rfl smiling_target
  refine hexact.mpr ⟨fun _ => ?_,(hapart (.singleton _)).2⟩
  refine ⟨by simp,List.forall_mem_singleton.mpr (by decide),rfl,rfl,?_⟩
  exact ⟨smilingLog,[],by simp,by simp [smilingLog],rfl⟩

/-- A wildcard spelled exactly as the name does not claim it. -/
theorem wildcard_torn_apart :
    ¬((wildcardNode smilingLog).claims signEngine plainUrl plainFiles (slash::ofCodePoints smilingLog)=true↔
      Describes smilingLog smilingLog) := by
  have hclaims : (wildcardNode smilingLog).claims signEngine plainUrl plainFiles
    (slash::ofCodePoints smilingLog)=false := by
    decide +kernel
  have hdescribes : Describes smilingLog smilingLog := ⟨_,rfl,_,rfl,_,rfl,_,rfl,_,rfl,rfl⟩
  rw [hclaims]
  exact fun h => Bool.false_ne_true (h.mpr hdescribes)

end Loftail
