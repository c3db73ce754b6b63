import Loftail.RenderedRecords

/-! # Patterns inferred from one line

A line is cut at its priority. What stands around it becomes the conversions of a candidate pattern, and
the compiler's own reading of that pattern takes the line it came from wherever the parts cut out have the
shape their conversions are compiled to. -/
namespace Loftail
open RegularLanguage RegularLanguage.Re

namespace FormatDetector

/-- Which way round a date with slashes reads. -/
inductive DateOrder | monthFirst | dayFirst
  deriving DecidableEq

def seps : Text := latin1 "-|:>/=#"

def isSeparatorPunct (c : UInt16) : Bool := seps.contains c

/-- Only the percent sign means something to the compiler. -/
def escapeLiteral (text : Text) : Text := text.flatMap fun c => if c=0x25 then [0x25,0x25] else [c]

/-! ## Dates -/

/-- One place of a date's shape: digits that a code prints, or one of a few characters. -/
inductive DatePlace
  | digits (n : ℕ) (code : UInt16)
  | oneOf (chars : Text)
  deriving DecidableEq

/-- How much of a text a shape takes from its start, and the format that prints it. -/
def matchPlaces : List DatePlace→Text→Option (ℕ×Text)
  | [],_ => some (0,[])
  | .digits n code::places,s =>
    if (s.take n).length=n ∧ (s.take n).all isAsciiDigit then
      (matchPlaces places (s.drop n)).map fun m => (n+m.1,specText code++m.2)
    else none
  | .oneOf _::_,[] => none
  | .oneOf chars::places,c::s => if c∈chars then (matchPlaces places s).map fun m => (1+m.1,c::m.2) else none

def isoDate : List DatePlace :=
  [.digits 4 (unit 'Y'),.oneOf (latin1 "-"),.digits 2 (unit 'm'),.oneOf (latin1 "-"),.digits 2 (unit 'd')]

def slashDate (order : DateOrder) (year : DatePlace) : List DatePlace :=
  let (first,second) := match order with
    | .dayFirst => (unit 'd',unit 'm')
    | .monthFirst => (unit 'm',unit 'd')
  [.digits 2 first,.oneOf (latin1 "/"),.digits 2 second,.oneOf (latin1 "/"),year]

def clock : List DatePlace :=
  [.digits 2 (unit 'H'),.oneOf (latin1 ":"),.digits 2 (unit 'M'),.oneOf (latin1 ":"),.digits 2 (unit 'S')]

def dateSep : DatePlace := .oneOf (latin1 " T")

def millis : List DatePlace := [.oneOf (latin1 ".,"),.digits 3 (unit 'q')]

/-- The shapes in the order they are tried, the fullest first. A year of two digits is never the first
half of one of four: a separator follows it. -/
def dateShapes (order : DateOrder) : List (List DatePlace) :=
  let year4 := slashDate order (.digits 4 (unit 'Y'))++dateSep::clock
  let year2 := slashDate order (.digits 2 (unit 'y'))++dateSep::clock
  [isoDate++dateSep::clock++millis,isoDate++dateSep::clock,year4++millis,year4,year2++millis,year2,
    clock++millis,clock]

/-- The date a text starts with: its length and its format. -/
def matchLeadingDate (s : Text) (order : DateOrder) : Option (ℕ×Text) :=
  (dateShapes order).findSome? fun shape => matchPlaces shape s

/-! ## Parts -/

/-- A stretch of the line and what the pattern has in its place. -/
inductive Part
  | date (format text : Text)
  | literal (text : Text)
  | bracketed (spec : UInt16) (inside : Text)
  | field (spec : UInt16) (text : Text)
  deriving DecidableEq

def Part.spelled : Part→Text
  | .date format _ => latin1 "%d\x7b"++format++latin1 "\x7d"
  | .literal text => escapeLiteral text
  | .bracketed spec _ => 0x5B::specText spec++[0x5D]
  | .field spec _ => specText spec

def Part.text : Part→Text
  | .date _ text => text
  | .literal text => text
  | .bracketed _ inside => 0x5B::inside++[0x5D]
  | .field _ text => text

/-- The pattern some parts make, which ends the line. -/
def patternOfParts (parts : List Part) : Text := parts.flatMap Part.spelled++latin1 "%n"

/-- What stands between a bracket at the start of a text and the first one that closes. -/
def bracketedRun : Text→Option Text
  | [] => none
  | c::rest => if c=0x5B ∧ 0x5D∈rest then some (rest.takeWhile fun x => x≠0x5D) else none

/-- What precedes the priority, and whether digits of the line were kept as they are. -/
structure LeftPart where
  parts : List Part
  memorizedDigits : Bool

/-- The loop behind the date; a bracketed run has taken the first `skip` characters. -/
def buildLoop (isDigit : UInt16→Bool) : Text→ℕ→ℕ → LeftPart
  | [],_,_ => ⟨[],false⟩
  | _::rest,skip+1,digitRun => buildLoop isDigit rest skip digitRun
  | c::rest,0,digitRun =>
    match bracketedRun (c::rest) with
    | some inside =>
      let left := buildLoop isDigit rest (inside.length+1) 0
      {left with parts := .bracketed (unit 't') inside::left.parts}
    | none =>
      let digitRun := if isDigit c then digitRun+1 else 0
      let left := buildLoop isDigit rest 0 digitRun
      ⟨.literal [c]::left.parts,decide (2≤digitRun) || left.memorizedDigits⟩

def buildLeft (isDigit : UInt16→Bool) (left : Text) (order : DateOrder) : LeftPart :=
  match matchLeadingDate left order with
  | some (length,spec) =>
    let out := buildLoop isDigit (left.drop length) 0 0
    {out with parts := .date spec (left.take length)::out.parts}
  | none => buildLoop isDigit left 0 0

/-! ## The priority -/

def priorityWords : List Text :=
  [latin1 "TRACE",latin1 "DEBUG",latin1 "INFO",latin1 "WARN",latin1 "ERROR",latin1 "FATAL"]

/-- The word a text starts with, where no letter follows it. -/
def priorityAt (s : Text) : Option Text :=
  priorityWords.find? fun word => word.isPrefixOf s && !startsWith isZoneStart (s.drop word.length)

/-- What precedes the first priority no letter touches, the priority, and what follows it. -/
def matchPriority : Bool→Text→Option (Text×Text×Text)
  | _,[] => none
  | afterLetter,c::rest =>
    match if afterLetter then none else priorityAt (c::rest) with
    | some word => some ([],word,(c::rest).drop word.length)
    | none => (matchPriority (isZoneStart c) rest).map fun m => (c::m.1,m.2)

/-! ## Candidates -/

def takeSpace (s : Text) : Text×Text := (s.takeWhile isSpace,s.dropWhile isSpace)

def takeBracketed (spec : UInt16) (s : Text) : List Part×Text :=
  match bracketedRun s with
  | some inside => ([.bracketed spec inside],s.drop (inside.length+2))
  | none => ([],s)

/-- The message straight after the priority. -/
def messageOnly (left : List Part) (word right : Text) : Option (List Part) :=
  let (sep,body) := takeSpace right
  if body=[] then none else some (left++[.field (unit 'p') word,.literal sep,.field (unit 'm') body])

/-- A logger before the message, and a context between the two if asked for. -/
def withLogger (left : List Part) (word right : Text) (withNdc : Bool) : Option (List Part) :=
  let (sep1,right) := takeSpace right
  let (threadPart,right) := takeBracketed (unit 't') right
  let (sep1b,right) := takeSpace right
  let logger := right.takeWhile fun c => !isSpace c
  let right := right.dropWhile fun c => !isSpace c
  if logger=[] then none
  else
    let (sepNdc,right) := if withNdc then takeSpace right else ([],right)
    let (ndcPart,right) := if withNdc then takeBracketed (unit 'x') right else ([],right)
    if withNdc && ndcPart.isEmpty then none
    else
      let sep2 := right.takeWhile fun c => isSpace c || isSeparatorPunct c
      let body := right.dropWhile fun c => isSpace c || isSeparatorPunct c
      if body=[] then none
      else some (left++.field (unit 'p') word::.literal sep1::threadPart++.literal sep1b::.field (unit 'c') logger::
        .literal sepNdc::ndcPart++[.literal sep2,.field (unit 'm') body])

/-- The ways a line is read. -/
def readings (isDigit : UInt16→Bool) (line : Text) (order : DateOrder) : List (List Part) :=
  match matchPriority false line with
  | none => []
  | some (left,word,right) =>
    let leftPart := buildLeft isDigit left order
    if leftPart.parts.isEmpty || leftPart.memorizedDigits then []
    else (messageOnly leftPart.parts word right).toList++
      [false,true].filterMap (withLogger leftPart.parts word right)

def synthesizeFromLine (isDigit : UInt16→Bool) (line : Text) (order : DateOrder) : List Text :=
  (readings isDigit line order).map patternOfParts

example : synthesizeFromLine isAsciiDigit (latin1 "12:00:01 [a] INFO db.sql - ready") .monthFirst=
    [latin1 "%d\x7b%H:%M:%S\x7d [%t] %p %m%n",latin1 "%d\x7b%H:%M:%S\x7d [%t] %p %c - %m%n"] := by decide +kernel

/-! ## What a date's format takes -/

section Dates
variable {p : Platform} {pair : UInt16→UInt16→Bool} {places : List DatePlace} {s fmt : Text} {n : ℕ}
  {order : DateOrder}

/-- A code is no shorthand and is compiled to its digits; a character is no code. -/
def DatePlace.Sound : DatePlace→Prop
  | .digits n code => (code≠0x7D ∧ code≠0) ∧ expansionOf code=[] ∧
      ∀dot,∃item,dateCode code dot=some item ∧ item.regex=Pattern.digits n
  | .oneOf chars => ∀c∈chars,c≠0x25 ∧ c≠0x7D ∧ c≠0

/-- The places that shapes are made of. -/
def datePlaces : List DatePlace :=
  [.digits 4 (unit 'Y'),.digits 2 (unit 'y'),.digits 2 (unit 'm'),.digits 2 (unit 'd'),.digits 2 (unit 'H'),
    .digits 2 (unit 'M'),.digits 2 (unit 'S'),.digits 3 (unit 'q'),.oneOf (latin1 "-"),.oneOf (latin1 "/"),
    .oneOf (latin1 ":"),.oneOf (latin1 " T"),.oneOf (latin1 ".,")]

private theorem datePlaces_sound : ∀place∈datePlaces,place.Sound := by
  simp only [datePlaces,List.forall_mem_cons]
  refine ⟨?_,?_,?_,?_,?_,?_,?_,?_,?_,?_,?_,?_,?_,?_⟩
  all_goals first
    | exact ⟨by decide,rfl,fun _ => ⟨_,rfl,rfl⟩⟩
    | exact forall_mem_of_all (by decide)
    | simp

theorem dateShapes_sound : ∀shape∈dateShapes order,∀place∈shape,place.Sound := by
  have hplaces : ∀shape∈dateShapes order,∀place∈shape,place∈datePlaces := by
    cases order <;> decide
  intro shape hshape place hplace
  exact datePlaces_sound place (hplaces shape hshape place hplace)

private theorem matchPlaces_closed (hsound : ∀place∈places,place.Sound) (h : matchPlaces places s=some (n,fmt)) :
    ∀x∈fmt,x≠0x7D ∧ x≠0 := by
  induction places generalizing s n fmt with
  | nil =>
    cases h
    simp
  | cons place places ih =>
    have hrest := fun other hother => hsound other (List.mem_cons_of_mem _ hother)
    have hplace := hsound place (List.mem_cons_self ..)
    cases place with
    | digits m code =>
      rw [matchPlaces] at h
      split at h
      · obtain ⟨taken,htaken,hm⟩ := Option.map_eq_some_iff.mp h
        cases hm
        intro x hx
        rcases List.mem_append.mp hx with hx | hx
        · rcases List.mem_pair.mp hx with rfl | rfl
          · decide
          · exact hplace.1
        · exact ih hrest htaken x hx
      · cases h
    | oneOf chars =>
      cases s with
      | nil => cases h
      | cons c s =>
        rw [matchPlaces] at h
        split at h
        · rename_i hc
          obtain ⟨taken,htaken,hm⟩ := Option.map_eq_some_iff.mp h
          cases hm
          intro x hx
          rcases List.mem_cons.mp hx with rfl | hx
          · exact (hplace _ hc).2
          · exact ih hrest htaken x hx
        · cases h

/-- What a shape has taken is matched by what its format is compiled to. -/
theorem matchPlaces_mem {isLetter : UInt16→Bool} {composite : Text→ℤ→UInt16→Except CompileError (List DateItem)}
    {following : UInt16} {offset : ℤ} {items : List DateItem} (hsound : ∀place∈places,place.Sound)
    (h : matchPlaces places s=some (n,fmt)) (ht : translateWith isLetter composite following fmt offset=.ok items) :
    s.take n∈Pattern.language p pair (.all (items.map DateItem.regex)) := by
  induction places generalizing s n fmt offset items with
  | nil =>
    cases h
    cases ht
    exact mem_empty.mpr rfl
  | cons place places ih =>
    have hrest := fun other hother => hsound other (List.mem_cons_of_mem _ hother)
    have hplace := hsound place (List.mem_cons_self ..)
    cases place with
    | digits m code =>
      rw [matchPlaces] at h
      split at h
      · rename_i hdigits
        obtain ⟨taken,htaken,hm⟩ := Option.map_eq_some_iff.mp h
        cases hm
        obtain ⟨-,hexpand,hcode⟩ := hplace
        obtain ⟨item,hitem,hregex⟩ := hcode (taken.2.head?.getD following=0x2E)
        change translateWith isLetter composite following (0x25::code::taken.2) offset=.ok items at ht
        rw [translateWith,if_neg (by simp)] at ht
        dsimp only at ht
        rw [if_neg (by simp [hexpand]),hitem] at ht
        obtain ⟨later,hlater,ht⟩ := bind_ok ht
        cases ht
        rw [List.take_add]
        refine append_mem_seq ?_ (ih hrest htaken hlater)
        rw [hregex]
        exact Pattern.mem_digits.mpr ⟨hdigits.1,List.all_eq_true.mp hdigits.2⟩
      · cases h
    | oneOf chars =>
      cases s with
      | nil => cases h
      | cons c s =>
        rw [matchPlaces] at h
        split at h
        · rename_i hc
          obtain ⟨taken,htaken,hm⟩ := Option.map_eq_some_iff.mp h
          cases hm
          rw [translateWith.eq_def] at ht
          dsimp only at ht
          rw [if_pos (hplace c hc).1] at ht
          obtain ⟨later,hlater,ht⟩ := bind_ok ht
          cases ht
          rw [Nat.add_comm,List.take_succ_cons]
          have hchar : [c]∈Pattern.language p pair (DateItem.literal isLetter c).regex :=
            Pattern.mem_escaped.mpr rfl
          exact append_mem_seq hchar (ih hrest htaken hlater)
        · cases h

/-- A shape's format is translated. -/
theorem matchPlaces_translates (isLetter : UInt16→Bool)
    (composite : Text→ℤ→UInt16→Except CompileError (List DateItem)) (following : UInt16)
    (hsound : ∀place∈places,place.Sound) (h : matchPlaces places s=some (n,fmt)) (offset : ℤ) :
    ∃items,translateWith isLetter composite following fmt offset=.ok items := by
  induction places generalizing s n fmt offset with
  | nil =>
    cases h
    exact ⟨[],rfl⟩
  | cons place places ih =>
    have hrest := fun other hother => hsound other (List.mem_cons_of_mem _ hother)
    have hplace := hsound place (List.mem_cons_self ..)
    cases place with
    | digits m code =>
      rw [matchPlaces] at h
      split at h
      · obtain ⟨taken,htaken,hm⟩ := Option.map_eq_some_iff.mp h
        cases hm
        obtain ⟨-,hexpand,hcode⟩ := hplace
        obtain ⟨item,hitem,-⟩ := hcode (taken.2.head?.getD following=0x2E)
        obtain ⟨items,hitems⟩ := ih hrest htaken (offset+2)
        refine ⟨item::items,?_⟩
        show translateWith isLetter composite following (0x25::code::taken.2) offset=_
        rw [translateWith,if_neg (by simp)]
        dsimp only
        rw [if_neg (by simp [hexpand]),hitem]
        dsimp only
        rw [hitems]
        rfl
      · cases h
    | oneOf chars =>
      cases s with
      | nil => cases h
      | cons c s =>
        rw [matchPlaces] at h
        split at h
        · rename_i hc
          obtain ⟨taken,htaken,hm⟩ := Option.map_eq_some_iff.mp h
          cases hm
          obtain ⟨items,hitems⟩ := ih hrest htaken (offset+1)
          refine ⟨.literal isLetter c::items,?_⟩
          rw [translateWith.eq_def]
          dsimp only
          rw [if_pos (hplace c hc).1,hitems]
          rfl
        · cases h

private theorem matchLeadingDate_translates {isLetter : UInt16→Bool}
    (h : matchLeadingDate s order=some (n,fmt)) (offset : ℤ) :
    ∃t,translateDateFormat isLetter fmt offset=.ok t := by
  obtain ⟨shape,hshape,hmatch⟩ := List.exists_of_findSome?_eq_some h
  obtain ⟨items,hitems⟩ := matchPlaces_translates isLetter (translateExpansion isLetter) 0
    (dateShapes_sound shape hshape) hmatch offset
  rw [translateDateFormat,hitems]
  exact ⟨_,rfl⟩

private theorem matchLeadingDate_closed (h : matchLeadingDate s order=some (n,fmt)) : ∀x∈fmt,x≠0x7D ∧ x≠0 := by
  obtain ⟨shape,hshape,hmatch⟩ := List.exists_of_findSome?_eq_some h
  exact matchPlaces_closed (dateShapes_sound shape hshape) hmatch

/-- The date a line starts with is matched by its own format, which closes its brace at its end only and has no
NUL. -/
theorem matchLeadingDate_spec (h : matchLeadingDate s order=some (n,fmt)) :
    (∀x∈fmt,x≠0x7D ∧ x≠0) ∧ ∀offset t,translateDateFormat p.isLetter fmt offset=.ok t→
    s.take n∈Pattern.language p pair t.regex := by
  obtain ⟨shape,hshape,hmatch⟩ := List.exists_of_findSome?_eq_some h
  have hsound := dateShapes_sound shape hshape
  refine ⟨matchLeadingDate_closed h,?_⟩
  intro offset t ht
  rw [translateDateFormat] at ht
  cases hitems : translateWith p.isLetter (translateExpansion p.isLetter) 0 fmt offset with
  | error e =>
    rw [hitems] at ht
    cases ht
  | ok items =>
    rw [hitems] at ht
    cases ht
    exact matchPlaces_mem hsound hmatch hitems

end Dates

/-! ## The parts are the line -/

section Cuts
variable {isDigit : UInt16→Bool} {s line left word right inside : Text} {parts : List Part} {order : DateOrder}
  {skip run : ℕ}

theorem bracketedRun_some (h : bracketedRun s=some inside) : s=0x5B::inside++0x5D::s.drop (inside.length+2) := by
  cases s with
  | nil => cases h
  | cons c rest =>
    rw [bracketedRun] at h
    split at h
    · rename_i hc
      cases h
      obtain ⟨rfl,hclose⟩ := hc
      obtain ⟨before,after,rfl,hfirst⟩ := List.eq_append_cons_of_mem hclose
      have hrun : ∀x∈before,decide (x≠0x5D)=true := fun x hx => decide_eq_true fun he => hfirst (he ▸ hx)
      rw [(@takeWhile_run before (0x5D::after) _ hrun rfl).1]
      simp
    · cases h

theorem buildLoop_text : (buildLoop isDigit s skip run).parts.flatMap Part.text=s.drop skip := by
  induction s generalizing skip run with
  | nil => rw [buildLoop,List.drop_nil,List.flatMap_nil]
  | cons c rest ih =>
    cases skip with
    | succ skip => exact ih
    | zero =>
      rw [buildLoop]
      split
      · rename_i inside hrun
        have hline := bracketedRun_some hrun
        rw [List.flatMap_cons,ih,List.drop_zero]
        conv_rhs => rw [hline]
        show 0x5B::inside++[0x5D]++_=_
        rw [List.append_assoc,List.singleton_append,List.drop_succ_cons]
      · rw [List.flatMap_cons,ih]
        rfl

private theorem buildLeft_text : (buildLeft isDigit s order).parts.flatMap Part.text=s := by
  rw [buildLeft]
  split
  · rw [List.flatMap_cons,buildLoop_text,List.drop_zero]
    exact List.take_append_drop ..
  · rw [buildLoop_text,List.drop_zero]

private theorem priorityAt_some (h : priorityAt s=some word) : word∈priorityWords ∧ word++s.drop word.length=s := by
  have hword := List.find?_some h
  have hprefix := (Bool.and_eq_true_iff.mp hword).1
  refine ⟨List.mem_of_find?_eq_some h,?_⟩
  obtain ⟨rest,rfl⟩ := List.isPrefixOf_iff_prefix.mp hprefix
  rw [List.drop_left]

private theorem matchPriority_some {afterLetter : Bool} (h : matchPriority afterLetter s=some (left,word,right)) :
    word∈priorityWords ∧ left++word++right=s := by
  induction s generalizing afterLetter left with
  | nil => cases h
  | cons c rest ih =>
    rw [matchPriority] at h
    split at h
    · rename_i found hfound
      cases h
      split at hfound
      · cases hfound
      · exact priorityAt_some hfound
    · obtain ⟨⟨before,after⟩,hbefore,hm⟩ := Option.map_eq_some_iff.mp h
      cases hm
      obtain ⟨hword,hrest⟩ := ih hbefore
      exact ⟨hword,congrArg (c::·) hrest⟩

theorem takeSpace_text : (takeSpace s).1++(takeSpace s).2=s := List.takeWhile_append_dropWhile

theorem takeBracketed_text {spec : UInt16} :
    (takeBracketed spec s).1.flatMap Part.text++(takeBracketed spec s).2=s := by
  rw [takeBracketed]
  split
  · rename_i inside hrun
    rw [List.flatMap_singleton]
    exact (by simp [Part.text] : _=0x5B::inside++0x5D::s.drop (inside.length+2)).trans (bracketedRun_some hrun).symm
  · rfl

theorem isSpace_plain {u : UInt16} (h : isSpace u=true) : isSurrogate u=false := by
  apply surrogate_of_lt
  simp only [isSpace,Bool.or_eq_true,Bool.and_eq_true,decide_eq_true_eq,UInt16.le_iff_toNat_le,← UInt16.toNat_inj,
    UInt16.reduceToNat] at h
  omega

theorem takeSpace_paired (h : Paired s) : Paired (takeSpace s).2 := by
  rw [← @takeSpace_text s] at h
  exact Paired.of_append (paired_of_plain fun u hu => isSpace_plain (List.mem_takeWhile_imp hu)) h

theorem takeBracketed_paired {spec : UInt16} (h : Paired s) : Paired (takeBracketed spec s).2 := by
  rw [takeBracketed]
  split
  · rename_i inside hrun
    rw [bracketedRun_some hrun] at h
    exact (Paired.split (a:=0x5B::inside) h (by decide)).2
  · exact h

end Cuts

/-! ## What cutting sees to -/

/-- A date is one by its format, only threads and contexts are bracketed, and words have no white space. -/
def Part.Cut : Part→Prop
  | .date format text => ∃s n order,matchLeadingDate s order=some (n,format) ∧ text=s.take n
  | .literal _ => True
  | .bracketed spec _ => spec=unit 't' ∨ spec=unit 'x'
  | .field spec text => ((spec=unit 'p' ∨ spec=unit 'c') ∧ text≠[] ∧ ∀x∈text,isAsciiSpace x=false) ∨ spec=unit 'm'

/-- A logger, whose conversion takes an argument in braces. -/
def Part.IsLogger : Part→Prop
  | .field spec _ => spec=unit 'c'
  | _ => False

/-- No brace follows a logger. -/
def Spellable : List Part→Prop
  | [] => True
  | part::parts => (part.IsLogger→(patternOfParts parts).head?≠some 0x7B) ∧ Spellable parts

/-- Parts that a text is cut into. -/
structure CutInto (s : Text) (parts : List Part) : Prop where
  text : parts.flatMap Part.text=s
  cut : ∀part∈parts,part.Cut
  spellable : Spellable parts
  paired : Paired s→∀spec text,.field spec text∈parts→Paired text

section Cutting
variable {isDigit : UInt16→Bool} {s line word right text rest : Text} {parts left more : List Part}
  {order : DateOrder}
  {skip run : ℕ} {part : Part}

theorem spellable_append (hleft : ∀part∈left,¬part.IsLogger) (hmore : Spellable more) : Spellable (left++more) := by
  induction left with
  | nil => exact hmore
  | cons part left ih =>
    constructor
    · intro hlogger
      exact absurd hlogger (hleft part (List.mem_cons_self ..))
    · exact ih fun other hother => hleft other (List.mem_cons_of_mem _ hother)

theorem buildLoop_cut (h : part∈(buildLoop isDigit s skip run).parts) : part.Cut ∧ ¬part.IsLogger := by
  induction s generalizing skip run with
  | nil => cases h
  | cons c rest ih =>
    cases skip with
    | succ skip => exact ih h
    | zero =>
      rw [buildLoop] at h
      split at h
      · rcases List.mem_cons.mp h with rfl | h
        · exact ⟨Or.inl rfl,id⟩
        · exact ih h
      · rcases List.mem_cons.mp h with rfl | h
        · exact ⟨trivial,id⟩
        · exact ih h

theorem buildLeft_cut (h : part∈(buildLeft isDigit s order).parts) : part.Cut ∧ ¬part.IsLogger := by
  rw [buildLeft] at h
  split at h
  · rename_i n format hdate
    rcases List.mem_cons.mp h with rfl | h
    · exact ⟨⟨s,n,order,hdate,rfl⟩,id⟩
    · exact buildLoop_cut h
  · exact buildLoop_cut h

theorem buildLoop_field {spec : UInt16} : .field spec text∉(buildLoop isDigit s skip run).parts := by
  induction s generalizing skip run with
  | nil => exact List.not_mem_nil
  | cons c rest ih =>
    cases skip with
    | succ skip => exact ih
    | zero =>
      rw [buildLoop]
      split <;>
      · intro h
        rcases List.mem_cons.mp h with h | h
        · cases h
        · exact ih h

private theorem buildLeft_field {spec : UInt16} : .field spec text∉(buildLeft isDigit s order).parts := by
  rw [buildLeft]
  split
  · intro h
    rcases List.mem_cons.mp h with h | h
    · cases h
    · exact buildLoop_field h
  · exact buildLoop_field

theorem takeBracketed_cut {spec : UInt16} (hspec : spec=unit 't' ∨ spec=unit 'x')
    (h : part∈(takeBracketed spec s).1) :
    part.Cut ∧ ¬part.IsLogger := by
  rw [takeBracketed] at h
  split at h
  · obtain rfl := List.mem_singleton.mp h
    exact ⟨hspec,id⟩
  · cases h

theorem takeBracketed_field {spec spec' : UInt16} : .field spec' text∉(takeBracketed spec s).1 := by
  rw [takeBracketed]
  split
  · intro h
    cases List.mem_singleton.mp h
  · exact List.not_mem_nil

theorem escapeLiteral_head (htext : ∀x∈text,x≠0x7B) (hrest : rest.head?≠some 0x7B) :
    (escapeLiteral text++rest).head?≠some 0x7B := by
  cases text with
  | nil => exact hrest
  | cons c text =>
    have hc := htext c (List.mem_cons_self ..)
    rw [escapeLiteral,List.flatMap_cons]
    split
    · simp
    · simpa using hc

private theorem takeBracketed_head {spec : UInt16} (hrest : (patternOfParts more).head?≠some 0x7B) :
    (patternOfParts ((takeBracketed spec s).1++more)).head?≠some 0x7B := by
  rw [takeBracketed]
  split
  · simp [patternOfParts,Part.spelled]
  · exact hrest

theorem isSpace_ne_brace {c : UInt16} (h : isSpace c=true) : c≠0x7B := by
  rintro rfl
  revert h
  decide

private theorem word_cut (hword : word∈priorityWords) : (Part.field (unit 'p') word).Cut := by
  have hall : priorityWords.Forall fun word => word≠[] ∧ word.Forall fun x => isAsciiSpace x=false := by decide
  obtain ⟨hne,hplain⟩ := List.forall_iff_forall_mem.mp hall word hword
  exact Or.inl ⟨Or.inl rfl,hne,List.forall_iff_forall_mem.mp hplain⟩

private theorem messageOnly_some (h : messageOnly left word right=some parts) :
    ∃rest,parts=left++.field (unit 'p') word::rest ∧ CutInto right rest := by
  rw [messageOnly] at h
  dsimp only at h
  split at h
  · cases h
  · cases h
    refine ⟨_,rfl,?_,?_,?_,?_⟩
    · rw [List.flatMap_cons,List.flatMap_singleton]
      exact takeSpace_text
    · intro part hpart
      rcases List.mem_pair.mp hpart with rfl | rfl
      · trivial
      · exact Or.inr rfl
    · exact ⟨False.elim,fun h => absurd h (by decide : unit 'm'≠unit 'c'),trivial⟩
    · intro hright spec text hfield
      rcases List.mem_pair.mp hfield with hfield | hfield <;> cases hfield
      exact takeSpace_paired hright

/-- From the logger to the end of the line: no brace follows the logger. -/
theorem message_cut {sep sep2 body : Text} {ndc : List Part} (hsep : ∀x∈sep,x≠0x7B) (hsep2 : ∀x∈sep2,x≠0x7B)
    (hpaired : Paired (sep++(ndc.flatMap Part.text++(sep2++body)))→Paired body)
    (hndc : ndc=[] ∨ ndc=(takeBracketed (unit 'x') s).1) :
    CutInto (sep++(ndc.flatMap Part.text++(sep2++body)))
    (.literal sep::ndc++[.literal sep2,.field (unit 'm') body]) ∧
      (patternOfParts (.literal sep::ndc++[.literal sep2,.field (unit 'm') body])).head?≠some 0x7B := by
  have hcut : ∀part∈ndc,part.Cut ∧ ¬part.IsLogger := by
    rcases hndc with rfl | rfl
    · simp
    · intro part hpart
      exact takeBracketed_cut (Or.inr rfl) hpart
  refine ⟨⟨?_,?_,?_,?_⟩,?_⟩
  · rw [List.cons_append,List.flatMap_cons,List.flatMap_append,List.flatMap_cons,List.flatMap_singleton]
    rfl
  · intro part hpart
    rcases List.mem_cons.mp hpart with rfl | hpart
    · trivial
    rcases List.mem_append.mp hpart with hpart | hpart
    · exact (hcut part hpart).1
    · rcases List.mem_pair.mp hpart with rfl | rfl
      · trivial
      · exact Or.inr rfl
  · refine ⟨False.elim,spellable_append (fun part hpart => (hcut part hpart).2) ?_⟩
    exact ⟨False.elim,fun h => absurd h (by decide : unit 'm'≠unit 'c'),trivial⟩
  · intro h spec text hfield
    rcases List.mem_cons.mp hfield with hfield | hfield
    · cases hfield
    rcases List.mem_append.mp hfield with hfield | hfield
    · rcases hndc with rfl | rfl
      · cases hfield
      · exact absurd hfield takeBracketed_field
    · rcases List.mem_pair.mp hfield with hfield | hfield <;> cases hfield
      exact hpaired h
  · have hlast : (patternOfParts [.literal sep2,.field (unit 'm') body]).head?≠some 0x7B := by
      rw [patternOfParts,List.flatMap_cons,List.append_assoc]
      exact escapeLiteral_head hsep2 (by simp [Part.spelled,specText])
    rw [patternOfParts,List.cons_append,List.flatMap_cons,List.append_assoc]
    apply escapeLiteral_head hsep
    rcases hndc with rfl | rfl
    · exact hlast
    · exact takeBracketed_head hlast

/-- What parts a name from the message is no brace, and no half of a pair. -/
theorem separator_plain {u : UInt16} (h : (isSpace u || isSeparatorPunct u)=true) :
    u≠0x7B ∧ isSurrogate u=false := by
  rcases Bool.or_eq_true_iff.mp h with hspace | hpunct
  · exact ⟨isSpace_ne_brace hspace,isSpace_plain hspace⟩
  · have hall : ∀u∈seps,u≠0x7B ∧ isSurrogate u=false := forall_mem_of_all (by decide)
    exact hall u (by simpa [isSeparatorPunct] using hpunct)

private theorem dropSeparators_paired (h : Paired text) :
    Paired (text.dropWhile fun c => isSpace c || isSeparatorPunct c) := by
  rw [← List.takeWhile_append_dropWhile (p:=fun c => isSpace c || isSeparatorPunct c) (l:=text)] at h
  refine Paired.of_append (paired_of_plain fun u hu => (separator_plain ?_).2) h
  exact @List.mem_takeWhile_imp _ (fun c => isSpace c || isSeparatorPunct c) _ _ hu

/-- A name ends before white space, so it tears no pair. -/
theorem name_paired (h : Paired text) :
    Paired (text.takeWhile fun c => !isSpace c) ∧ Paired (text.dropWhile fun c => !isSpace c) := by
  have hwhole : Whole (text.dropWhile fun c => !isSpace c) := by
    rintro u hu
    have hspace := List.head?_dropWhile_not (fun c => !isSpace c) text
    rw [hu] at hspace
    exact (surrogate_false.mp (isSpace_plain (by simpa using hspace))).2
  rw [← List.takeWhile_append_dropWhile (p:=fun c => !isSpace c) (l:=text)] at h
  exact (paired_append hwhole).mp h

private theorem name_cut {name : Text} (hname : name=text.takeWhile fun c => !isSpace c) (hne : name≠[]) :
    (Part.field (unit 'c') name).Cut := by
  refine Or.inl ⟨Or.inr rfl,hne,fun x hx => ?_⟩
  have hspace : (!isSpace x)=true := @List.mem_takeWhile_imp _ (fun c => !isSpace c) _ _ (hname ▸ hx)
  exact Bool.eq_false_iff.mpr fun hascii => by simp [isSpace_of_isAsciiSpace hascii] at hspace

private theorem withLogger_some {withNdc : Bool} (h : withLogger left word right withNdc=some parts) :
    ∃rest,parts=left++.field (unit 'p') word::rest ∧ CutInto right rest := by
  -- Where the line is cut, from the priority on.
  let afterSep := (takeSpace right).2
  let thread := (takeBracketed (unit 't') afterSep).1
  let afterThread := (takeBracketed (unit 't') afterSep).2
  let named := (takeSpace afterThread).2
  let logger := named.takeWhile fun c => !isSpace c
  let afterLogger := named.dropWhile fun c => !isSpace c
  let gap := if withNdc then takeSpace afterLogger else ([],afterLogger)
  let ndc := if withNdc then takeBracketed (unit 'x') gap.2 else ([],gap.2)
  let sep2 := ndc.2.takeWhile fun c => isSpace c || isSeparatorPunct c
  let body := ndc.2.dropWhile fun c => isSpace c || isSeparatorPunct c
  have hparts : logger≠[] ∧ parts=left++.field (unit 'p') word::.literal (takeSpace right).1::thread++
      .literal (takeSpace afterThread).1::.field (unit 'c') logger::.literal gap.1::ndc.1++
        [.literal sep2,.field (unit 'm') body] := by
    rw [withLogger] at h
    change (if logger=[] then none else _)=some parts at h
    split at h
    · cases h
    · rename_i hlogger
      change (if withNdc && ndc.1.isEmpty then none else if body=[] then none else some _)=some parts at h
      split at h
      · cases h
      split at h
      · cases h
      · cases h
        exact ⟨hlogger,rfl⟩
  obtain ⟨hlogger,rfl⟩ := hparts
  have hgap : gap.1++gap.2=afterLogger ∧ (∀x∈gap.1,x≠0x7B) ∧ (Paired afterLogger→Paired gap.2) := by
    dsimp only [gap]
    split
    · exact ⟨takeSpace_text,fun x hx => isSpace_ne_brace (List.mem_takeWhile_imp hx),takeSpace_paired⟩
    · exact ⟨rfl,by simp,id⟩
  have hndc : (ndc.1=[] ∨ ndc.1=(takeBracketed (unit 'x') gap.2).1) ∧ ndc.1.flatMap Part.text++ndc.2=gap.2 ∧
      (Paired gap.2→Paired ndc.2) := by
    dsimp only [ndc]
    split
    · exact ⟨Or.inr rfl,takeBracketed_text,takeBracketed_paired⟩
    · exact ⟨Or.inl rfl,rfl,id⟩
  have hsep2 : ∀x∈sep2,x≠0x7B := fun x hx =>
    (separator_plain (@List.mem_takeWhile_imp _ (fun c => isSpace c || isSeparatorPunct c) _ _ hx)).1
  have hbody : sep2++body=ndc.2 := List.takeWhile_append_dropWhile
  have hnamed : logger++afterLogger=named := List.takeWhile_append_dropWhile
  have hpairedBody : Paired (gap.1++(ndc.1.flatMap Part.text++(sep2++body)))→Paired body := by
    rw [hbody,hndc.2.1,hgap.1]
    exact fun h => dropSeparators_paired (hndc.2.2 (hgap.2.2 h))
  obtain ⟨hmessage,hbrace⟩ := @message_cut gap.2 gap.1 sep2 body ndc.1 hgap.2.1 hsep2 hpairedBody hndc.1
  rw [hbody,hndc.2.1,hgap.1] at hmessage
  have hthread : ∀part∈thread,part.Cut ∧ ¬part.IsLogger := fun part hpart => takeBracketed_cut (Or.inl rfl) hpart
  refine ⟨.literal (takeSpace right).1::thread++(.literal (takeSpace afterThread).1::.field (unit 'c') logger::
    (.literal gap.1::ndc.1++[.literal sep2,.field (unit 'm') body])),by simp,?_,?_,?_,?_⟩
  · have hline : (takeSpace right).1++
      (thread.flatMap Part.text++((takeSpace afterThread).1++(logger++afterLogger)))=right := by
      rw [hnamed,takeSpace_text,takeBracketed_text,takeSpace_text]
    rw [List.cons_append,List.flatMap_cons,List.flatMap_append,List.flatMap_cons,List.flatMap_cons,hmessage.text]
    exact hline
  · intro part hpart
    rcases List.mem_cons.mp hpart with rfl | hpart
    · trivial
    rcases List.mem_append.mp hpart with hpart | hpart
    · exact (hthread part hpart).1
    rcases List.mem_cons.mp hpart with rfl | hpart
    · trivial
    rcases List.mem_cons.mp hpart with rfl | hpart
    · exact name_cut rfl hlogger
    · exact hmessage.cut part hpart
  · refine ⟨False.elim,spellable_append (fun part hpart => (hthread part hpart).2) ?_⟩
    exact ⟨False.elim,fun _ => hbrace,hmessage.spellable⟩
  · intro hright spec text hfield
    obtain ⟨hpairedLogger,hafter⟩ := name_paired (takeSpace_paired (takeBracketed_paired (takeSpace_paired hright)))
    rcases List.mem_cons.mp hfield with hfield | hfield
    · cases hfield
    rcases List.mem_append.mp hfield with hfield | hfield
    · exact absurd hfield takeBracketed_field
    rcases List.mem_cons.mp hfield with hfield | hfield
    · cases hfield
    rcases List.mem_cons.mp hfield with hfield | hfield
    · cases hfield
      exact hpairedLogger
    · exact hmessage.paired hafter spec text hfield

/-- Every reading is the line: what precedes its priority, the priority, and what follows it. -/
theorem readings_cut (h : parts∈readings isDigit line order) :
    ∃before word after rest,parts=(buildLeft isDigit before order).parts++.field (unit 'p') word::rest ∧
      (buildLeft isDigit before order).memorizedDigits=false ∧ before++word++after=line ∧ word∈priorityWords ∧
      CutInto after rest := by
  rw [readings] at h
  split at h
  · cases h
  · rename_i before word after hmatch
    obtain ⟨hword,hline⟩ := matchPriority_some hmatch
    dsimp only at h
    split at h
    · cases h
    · rename_i hkept
      have hmemorized : (buildLeft isDigit before order).memorizedDigits=false := by
        rw [Bool.or_eq_true_iff,not_or] at hkept
        exact Bool.eq_false_iff.mpr hkept.2
      refine ⟨before,word,after,?_⟩
      rcases List.mem_append.mp h with h | h
      · obtain ⟨rest,hparts,hrest⟩ := messageOnly_some (Option.mem_toList.mp h)
        exact ⟨rest,hparts,hmemorized,hline,hword,hrest⟩
      · obtain ⟨withNdc,-,h⟩ := List.mem_filterMap.mp h
        obtain ⟨rest,hparts,hrest⟩ := withLogger_some h
        exact ⟨rest,hparts,hmemorized,hline,hword,hrest⟩

private theorem readings_cutInto (h : parts∈readings isDigit line order) : CutInto line parts := by
  obtain ⟨before,word,after,rest,rfl,-,hline,hword,hrest⟩ := readings_cut h
  refine ⟨?_,?_,?_,?_⟩
  · rw [List.flatMap_append,List.flatMap_cons,buildLeft_text,hrest.text,← hline,List.append_assoc]
    rfl
  · intro part hpart
    rcases List.mem_append.mp hpart with hpart | hpart
    · exact (buildLeft_cut hpart).1
    rcases List.mem_cons.mp hpart with rfl | hpart
    · exact word_cut hword
    · exact hrest.cut part hpart
  · refine spellable_append (fun part hpart => (buildLeft_cut hpart).2) ⟨?_,hrest.spellable⟩
    exact fun h => absurd h (by decide : unit 'p'≠unit 'c')
  · intro hpaired spec text hfield
    have hwords : ∀word∈priorityWords,word≠[] ∧ ∀u∈word,isSurrogate u=false := by
      have hall : priorityWords.Forall fun word => word≠[] ∧ word.Forall fun u => isSurrogate u=false := by decide
      intro word hword
      obtain ⟨hne,hplain⟩ := List.forall_iff_forall_mem.mp hall word hword
      exact ⟨hne,List.forall_iff_forall_mem.mp hplain⟩
    obtain ⟨hne,hplain⟩ := hwords word hword
    rcases List.mem_append.mp hfield with hfield | hfield
    · exact absurd hfield buildLeft_field
    rcases List.mem_cons.mp hfield with hfield | hfield
    · cases hfield
      exact paired_of_plain hplain
    · refine hrest.paired ?_ spec text hfield
      cases word with
      | nil => exact absurd rfl hne
      | cons u word =>
        rw [← hline,List.append_assoc] at hpaired
        obtain ⟨hu,hword'⟩ := List.forall_mem_cons.mp hplain
        exact Paired.of_append (paired_of_plain hword') (hpaired.split hu).2

end Cutting

/-! ## What the compiler makes of the parts -/

/-- The line's text has the shape that its conversion is compiled to. -/
def Part.Recognised : Part→Prop
  | .date _ _ => True
  | .literal text => ∀x∈text,isSpace x=true→isAsciiSpace x=true
  | .bracketed spec inside => spec=unit 't'→inside≠[] ∧ ∀x∈inside,isAsciiSpace x=false
  | .field _ _ => True

/-- The text a conversion stands for has whole characters. -/
def Part.Whole : Part→Prop
  | .bracketed _ text | .field _ text => Paired text
  | _ => True

/-- What the compiler writes escaped for a part. -/
def Part.signs : Part→List (Option UInt16)
  | .literal text => text.map some
  | .bracketed _ _ => [some 0x5B,none,some 0x5D]
  | _ => [none]

section Compiling
variable {p : Platform} {pair : UInt16→UInt16→Bool} {s s' : Compilation} {line text rest : Text} {base : Pattern}
  {role : FieldRole} {takes : Bool} {spec : UInt16} {parts : List Part} {part : Part} {i : ℤ}
  {ahead : List (Option UInt16)}

/-- A conversion's expression matches a text. -/
def Conversion.Takes (p : Platform) (pair : UInt16→UInt16→Bool) (spec : UInt16) (text : Text) : Prop :=
  spec∈latin1 "pctxm" ∧ ∃base role takes,fieldOf spec=some (base,role,takes) ∧ text∈Pattern.language p pair base

theorem word_takes (hspec : spec∈latin1 "pct") (hne : text≠[]) (hpaired : Paired text)
    (htext : ∀x∈text,isAsciiSpace x=false) : Conversion.Takes p pair spec text := by
  have hall : (latin1 "pct").Forall fun spec => spec∈latin1 "pctxm" ∧
      spec∈[unit 'p',unit 'c',unit 't',unit 'T',unit 'F',unit 'b',unit 'l',unit 'M',unit 'h',unit 'H'] := by decide
  obtain ⟨hsub,hname⟩ := List.forall_iff_forall_mem.mp hall spec hspec
  obtain ⟨role,takes,hfield⟩ := fieldOf_name hname
  refine ⟨hsub,_,role,takes,hfield,(mem_plus_characters rfl fun _ => surrogate_notSpace).mpr ⟨hne,hpaired,?_⟩⟩
  intro x hx
  rw [htext x hx]
  rfl

private theorem context_takes (hpaired : Paired text) (htext : ∀x∈text,x≠0x0A) : Conversion.Takes p pair
    (unit 'x') text := by
  refine ⟨by decide,_,_,_,rfl,?_⟩
  exact (mem_star_characters (q:=.lazyStar) rfl (fun _ => surrogate_any) fun _ => trivial).mpr
    ⟨hpaired,fun x hx => decide_eq_true (htext x hx)⟩

private theorem message_takes (hpaired : Paired text) (htext : ∀x∈text,x≠0x0A) : Conversion.Takes p pair
    (unit 'm') text := by
  refine ⟨by decide,_,_,_,rfl,?_⟩
  exact (mem_star_characters (q:=.star) rfl (fun _ => surrogate_any) fun _ => trivial).mpr
    ⟨hpaired,fun x hx => decide_eq_true (htext x hx)⟩

/-- One conversion reads its text, and the loop goes on behind it. -/
theorem compileLoop_field (hp : p.Ascii) (htakes : Conversion.Takes p pair spec text)
    (hbrace : spec=unit 'c' → rest.head?≠some 0x7B) (hread : s.Reads p pair line (none::ahead))
    (h : compileLoop p (specText spec++rest) 0 i s=.ok s') :
    ∃s₁ j,s₁.Reads p pair (line++text) ahead ∧ compileLoop p rest 0 j s₁=.ok s' := by
  obtain ⟨hspec,base,role,takes,hfield,hmem⟩ := htakes
  have hall : (latin1 "pctxm").Forall fun spec => spec∈latin1 "%dDpctTFblMhHLirxXEmn" ∧
    (spec∈argumentSpecs→spec=unit 'c') := by
    decide
  obtain ⟨hknown,hargument⟩ := List.forall_iff_forall_mem.mp hall spec hspec
  obtain ⟨s₁,left,j,hconvert,hrest⟩ :=
    @compileLoop_conversion p s s' rest (Conversion.simple spec text) i hp simple_spelled hknown h
  obtain ⟨hleft,hread'⟩ := convert_field_reads simple_spelled hfield
    (fun harg _ => hbrace (hargument harg)) hread hmem hconvert
  obtain ⟨k,hloop⟩ := hrest hleft
  exact ⟨s₁,k,hread',hloop⟩

/-- A literal waits in the buffer; its doubled percent signs are single there. -/
theorem compileLoop_literal (hp : p.Ascii) (htext : ∀x∈text,isSpace x=true→isAsciiSpace x=true)
    (hread : s.Reads p pair line (text.map some++ahead))
    (h : compileLoop p (escapeLiteral text++rest) 0 i s=.ok s') :
    ∃s₁ j,s₁.Reads p pair (line++text) ahead ∧ compileLoop p rest 0 j s₁=.ok s' := by
  induction text generalizing s line i with
  | nil => exact ⟨s,i,by rwa [List.append_nil],h⟩
  | cons c text ih =>
    have hread' := reads_literal hread (htext c (List.mem_cons_self ..))
    have htail := fun x hx => htext x (List.mem_cons_of_mem _ hx)
    rw [escapeLiteral,List.flatMap_cons,List.append_assoc] at h
    rw [show line++c::text=line++[c]++text by simp]
    split at h
    · rename_i hpercent
      rw [hpercent] at hread'
      obtain ⟨s₁,left,j,hconvert,hrest⟩ := @compileLoop_conversion p s s' _ (Conversion.simple 0x25 [0x25]) i hp
        simple_spelled (by decide : (0x25 : UInt16)∈_) h
      rw [show (Conversion.simple 0x25 [0x25]).spec=unit '%' from rfl,convert,if_pos rfl] at hconvert
      cases hconvert
      obtain ⟨k,hloop⟩ := hrest rfl
      rw [hpercent]
      exact ih htail hread' hloop
    · rename_i hplain
      rw [List.singleton_append,compileLoop,if_pos hplain] at h
      exact ih htail hread' h

/-- A date is read by its own format. -/
theorem compileLoop_date (hp : p.Ascii) {format : Text} (hclosed : ∀x∈format,x≠0x7D ∧ x≠0)
    (hmem : ∀offset t,translateDateFormat p.isLetter format offset=.ok t→text∈Pattern.language p pair t.regex)
    (hread : s.Reads p pair line (none::ahead))
    (h : compileLoop p (latin1 "%d\x7b"++format++latin1 "\x7d"++rest) 0 i s=.ok s') :
    ∃s₁ j,s₁.Reads p pair (line++text) ahead ∧ compileLoop p rest 0 j s₁=.ok s' := by
  let c : Conversion := ⟨false,[],none,unit 'd',some format,text,0⟩
  have hspelled : c.Spelled p := by
    refine ⟨by simp [c],by simp [c],fun _ => rfl,?_⟩
    intro arg harg
    cases harg
    exact ⟨(by decide : unit 'd'∈argumentSpecs),fun x hx => (hclosed x hx).1⟩
  have htext : latin1 "%d\x7b"++format++latin1 "\x7d"=c.text :=
    by simp [c,Conversion.text,Conversion.modifier,Conversion.argText]; rfl
  rw [htext] at h
  obtain ⟨s₁,left,j,hconvert,hrest⟩ := compileLoop_conversion hp hspelled (by decide : unit 'd'∈_) h
  obtain ⟨hleft,t,offset,ht,hpieces,hlit⟩ :=
    convert_date hspelled (Or.inl rfl) (fun _ hnone => by cases hnone) hconvert
  obtain ⟨k,hloop⟩ := hrest hleft
  refine ⟨s₁,k,?_,hloop⟩
  have hapart : Apart format := by
    refine List.Pairwise.isChain (List.pairwise_of_forall_mem_list ?_)
    exact fun x hx _ _ hnul => (hclosed x hx).2 hnul.1
  have happend := reads_append (reads_flush hread) flushLiteral_literalBuf
    (@rendered_mem p pair c t.regex .date false false (hmem offset t ht) fun _ => rfl)
    (field_signs (translateDateFormat_legible ht hapart))
  have hrendered : c.rendered=text := by simp [c,Conversion.rendered]
  rw [hrendered] at happend
  refine ⟨?_,?_,?_⟩
  · obtain ⟨u,hu,hsplit⟩ := happend.split
    refine ⟨u,?_,?_⟩
    · rw [Compilation.record,hpieces]
      exact hu
    · rw [hsplit,hlit]
      exact congrArg _ flushLiteral_literalBuf
  · intro x hx
    rw [hlit] at hx
    cases hx
  · have hclear := happend.clear
    rw [show (s.flushLiteral.append _).literalBuf=[] from flushLiteral_literalBuf] at hclear
    rw [hlit,Compilation.record,hpieces]
    exact hclear

private theorem compileLoop_part (hp : p.Ascii) (hcut : part.Cut) (hrecognised : part.Recognised)
    (hpaired : part.Whole) (hline : ∀x∈part.text,x≠0x0A) (hbrace : part.IsLogger → rest.head?≠some 0x7B)
    (hread : s.Reads p pair line (part.signs++ahead)) (h : compileLoop p (part.spelled++rest) 0 i s=.ok s') :
    ∃s₁ j,s₁.Reads p pair (line++part.text) ahead ∧ compileLoop p rest 0 j s₁=.ok s' := by
  cases part with
  | date format text =>
    obtain ⟨source,n,order,hdate,rfl⟩ := hcut
    obtain ⟨hclosed,hmem⟩ := matchLeadingDate_spec hdate
    exact compileLoop_date hp hclosed hmem hread h
  | literal text => exact compileLoop_literal hp hrecognised hread h
  | bracketed spec inside =>
    have hinside : ∀x∈inside,x≠0x0A := fun x hx => hline x (List.mem_cons_of_mem _ (List.mem_append_left _ hx))
    have htakes : Conversion.Takes p pair spec inside := by
      rcases hcut with rfl | rfl
      · obtain ⟨hne,hword⟩ := hrecognised rfl
        exact word_takes (by decide) hne hpaired hword
      · exact context_takes hpaired hinside
    have hopen := reads_literal (x:=0x5B) hread (by decide)
    change compileLoop p (0x5B::((specText spec++[0x5D])++rest)) 0 i s=.ok s' at h
    rw [compileLoop,if_pos (by decide),List.append_assoc] at h
    have hbracket : spec=unit 'c'→([0x5D]++rest).head?≠some 0x7B := by simp
    obtain ⟨s₁,j,hread₁,h⟩ := compileLoop_field hp htakes hbracket hopen h
    rw [List.singleton_append,compileLoop,if_pos (by decide)] at h
    have hclose := reads_literal (x:=0x5D) hread₁ (by decide)
    refine ⟨_,_,?_,h⟩
    simpa [Part.text] using hclose
  | field spec text =>
    have htakes : Conversion.Takes p pair spec text := by
      rcases hcut with ⟨hspec,hne,hword⟩ | rfl
      · refine word_takes ?_ hne hpaired hword
        rcases hspec with rfl | rfl <;> decide
      · exact message_takes hpaired hline
    exact compileLoop_field hp htakes hbrace hread h

variable (pair) in
/-- The loop follows the parts to the end of the pattern. -/
theorem compileLoop_parts (hp : p.Ascii) (hcut : ∀part∈parts,part.Cut) (hrecognised : ∀part∈parts,part.Recognised)
    (hwhole : ∀part∈parts,part.Whole) (hline : ∀x∈parts.flatMap Part.text,x≠0x0A) (hspell : Spellable parts)
    (hread : s.Reads p pair line (parts.flatMap Part.signs))
    (h : compileLoop p (patternOfParts parts) 0 i s=.ok s') :
    s'.Reads p pair (line++parts.flatMap Part.text) [] := by
  induction parts generalizing s line i with
  | nil =>
    obtain ⟨s₁,left,j,hconvert,hrest⟩ := @compileLoop_conversion p s s' [] (Conversion.simple (unit 'n') []) i hp
      simple_spelled (by decide : unit 'n'∈_) h
    rw [show (Conversion.simple (unit 'n') []).spec=unit 'n' from rfl,convert,if_neg (by decide),
      if_neg (by decide),if_pos rfl] at hconvert
    cases hconvert
    obtain ⟨k,hloop⟩ := hrest rfl
    cases hloop
    rw [List.flatMap_nil,List.append_nil]
    exact reads_flush hread
  | cons part parts ih =>
    rw [patternOfParts,List.flatMap_cons,List.append_assoc] at h
    rw [List.flatMap_cons] at hline
    obtain ⟨s₁,j,hread₁,h⟩ := compileLoop_part hp (hcut _ (List.mem_cons_self ..))
      (hrecognised _ (List.mem_cons_self ..))
      (hwhole _ (List.mem_cons_self ..)) (fun x hx => hline x (List.mem_append_left _ hx)) hspell.1 hread h
    have hlast := ih (fun other hother => hcut other (List.mem_cons_of_mem _ hother))
      (fun other hother => hrecognised other (List.mem_cons_of_mem _ hother))
      (fun other hother => hwhole other (List.mem_cons_of_mem _ hother))
      (fun x hx => hline x (List.mem_append_right _ hx)) hspell.2 hread₁ h
    rwa [List.append_assoc] at hlast

/-- The loop goes on behind a conversion that is converted. -/
theorem compileLoop_forward (hp : p.Ascii) {c : Conversion} (hs : c.Spelled p)
    (hspec : c.spec∈latin1 "%dDpctTFblMhHLirxXEmn")
    (hconvert : ∀j,∃s₁,convert p s (!c.minWidth.isEmpty) c.spec (c.argText++rest) j=.ok (s₁,rest))
    (hrest : ∀i s,∃s',compileLoop p rest 0 i s=.ok s') : ∃s',compileLoop p (c.text++rest) 0 i s=.ok s' := by
  have htext : c.text++rest=0x25::(c.modifier++c.spec::(c.argText++rest)) := by
    simp [Conversion.text]
  have hdash : p.isDigit 0x2D=false := hp.digit _ (by decide)
  have hdot : p.isDigit 0x2E=false := hp.digit _ (by decide)
  have hscan := @scanModifier_modifier (c.argText++rest) c _ hdash hdot hs.minWidth hs.maxWidth
    (isSpecifier_of_mem hp hspec)
  have hlen : (c.modifier++c.spec::(c.argText++rest)).length-rest.length=
    (c.modifier++c.spec::c.argText).length := by
    simp only [List.length_append,List.length_cons]
    omega
  have hsplit : c.modifier++c.spec::(c.argText++rest)=c.modifier++c.spec::c.argText++rest := by simp
  rw [htext,compileLoop,if_neg (by decide),conversion,if_neg (by simp),hscan]
  dsimp only
  obtain ⟨s₁,hs₁⟩ := hconvert (i+1+((c.modifier++c.spec::(c.argText++rest)).length-((c.argText++
    rest).length+1) : ℕ))
  rw [hs₁]
  show ∃s',compileLoop p (c.modifier++c.spec::(c.argText++rest)) _ (i+1) s₁=.ok s'
  rw [hlen,hsplit,compileLoop_skip]
  exact hrest _ s₁

theorem compileLoop_field_ok (hp : p.Ascii) (hspec : spec∈latin1 "pctxm")
    (hbrace : spec=unit 'c' → rest.head?≠some 0x7B)
    (hrest : ∀i s,∃s',compileLoop p rest 0 i s=.ok s') : ∃s',compileLoop p (specText spec++rest) 0 i s=.ok s' := by
  have hall : (latin1 "pctxm").Forall fun spec => spec∈latin1 "%dDpctTFblMhHLirxXEmn" ∧
    (spec∈argumentSpecs→spec=unit 'c') ∧
      (fieldOf spec).isSome=true := by decide
  obtain ⟨hknown,hargument,hfield⟩ := List.forall_iff_forall_mem.mp hall spec hspec
  obtain ⟨⟨base,role,takes⟩,hfield⟩ := Option.isSome_iff_exists.mp hfield
  refine compileLoop_forward hp (c:=.simple spec []) simple_spelled hknown (fun j => ?_) hrest
  obtain ⟨name,hconvert⟩ := convert_field (s:=s) (j:=j) simple_spelled hfield
    (fun harg _ => hbrace (hargument harg))
  exact ⟨_,hconvert⟩

private theorem compileLoop_literal_ok (hp : p.Ascii) (hrest : ∀i s,∃s',compileLoop p rest 0 i s=.ok s') :
    ∃s',compileLoop p (escapeLiteral text++rest) 0 i s=.ok s' := by
  induction text generalizing s i with
  | nil => exact hrest i s
  | cons c text ih =>
    rw [escapeLiteral,List.flatMap_cons,List.append_assoc]
    split
    · refine compileLoop_forward hp (c:=.simple 0x25 []) simple_spelled (by decide : (0x25 : UInt16)∈_)
        (fun j => ?_) fun i s => ih
      exact ⟨_,if_pos rfl⟩
    · rename_i hplain
      rw [List.singleton_append,compileLoop,if_pos hplain]
      exact ih

private theorem compileLoop_date_ok (hp : p.Ascii) {format : Text} (hclosed : ∀x∈format,x≠0x7D ∧ x≠0)
    (hformat : ∀offset,∃t,translateDateFormat p.isLetter format offset=.ok t)
    (hrest : ∀i s,∃s',compileLoop p rest 0 i s=.ok s') :
    ∃s',compileLoop p (latin1 "%d\x7b"++format++latin1 "\x7d"++rest) 0 i s=.ok s' := by
  let c : Conversion := ⟨false,[],none,unit 'd',some format,[],0⟩
  have hspelled : c.Spelled p := by
    refine ⟨by simp [c],by simp [c],fun _ => rfl,?_⟩
    intro arg harg
    cases harg
    exact ⟨(by decide : unit 'd'∈argumentSpecs),fun x hx => (hclosed x hx).1⟩
  have htext : latin1 "%d\x7b"++format++latin1 "\x7d"=c.text :=
    by simp [c,Conversion.text,Conversion.modifier,Conversion.argText]; rfl
  rw [htext]
  refine compileLoop_forward hp hspelled (by decide : unit 'd'∈_) (fun j => ?_) hrest
  have hscan : scanBraceArg (c.argText++rest)=some (c.arg,rest) :=
    scanBraceArg_argText (fun arg harg => (hspelled.arg arg harg).2)
      fun hnone => absurd hnone (Option.some_ne_none _)
  obtain ⟨t,ht⟩ := hformat (j+2)
  rw [convert,if_neg (by decide : unit 'd'≠unit '%'),if_pos (.inl rfl),hscan]
  dsimp only [c]
  rw [ht]
  exact ⟨_,rfl⟩

/-- The pattern of a line's parts has no fault for the compiler to find. -/
theorem compileLoop_ok (hp : p.Ascii) (hcut : ∀part∈parts,part.Cut) (hspell : Spellable parts) :
    ∀i s,∃s',compileLoop p (patternOfParts parts) 0 i s=.ok s' := by
  induction parts with
  | nil =>
    intro i s
    refine @compileLoop_forward p s [] i hp (.simple (unit 'n') []) simple_spelled (by decide : unit 'n'∈_)
      (fun j => ?_) fun i s => ⟨s,rfl⟩
    exact ⟨_,rfl⟩
  | cons part parts ih =>
    intro i s
    have hrest := ih (fun other hother => hcut other (List.mem_cons_of_mem _ hother)) hspell.2
    have hpart := hcut part (List.mem_cons_self ..)
    rw [patternOfParts,List.flatMap_cons,List.append_assoc]
    cases part with
    | date format text =>
      obtain ⟨source,n,order,hdate,-⟩ := hpart
      exact compileLoop_date_ok hp (matchLeadingDate_closed hdate)
        (matchLeadingDate_translates hdate) hrest
    | literal text => exact compileLoop_literal_ok hp hrest
    | bracketed spec inside =>
      show ∃s',compileLoop p (0x5B::((specText spec++[0x5D])++patternOfParts parts)) 0 i s=.ok s'
      rw [compileLoop,if_pos (by decide),List.append_assoc]
      refine compileLoop_field_ok hp (by rcases hpart with rfl | rfl <;> decide) (fun _ => by simp) ?_
      intro i s
      rw [List.singleton_append,compileLoop,if_pos (by decide)]
      exact hrest _ _
    | field spec text =>
      refine compileLoop_field_ok hp ?_ hspell.1 hrest
      rcases hpart with ⟨hspec,-,-⟩ | rfl
      · rcases hspec with rfl | rfl <;> decide
      · decide

private theorem compilePieces_ok (hp : p.Ascii) (h : CutInto line parts) : ∃s,compilePieces p
    (patternOfParts parts)=.ok s := by
  obtain ⟨s,hs⟩ := compileLoop_ok hp h.cut h.spellable 0 .start
  rw [compilePieces,if_neg (by simp [patternOfParts,latin1]),hs]
  exact ⟨_,rfl⟩

theorem CutInto.whole (h : CutInto line parts) (hpaired : Paired line) : ∀part∈parts,part.Whole := by
  intro part hpart
  cases part with
  | date format text => trivial
  | literal text => trivial
  | field spec text => exact h.paired hpaired spec text hpart
  | bracketed spec inside =>
    obtain ⟨left,right,rfl⟩ := List.append_of_mem hpart
    rw [← h.text,List.flatMap_append,List.flatMap_cons] at hpaired
    have hclose : left.flatMap Part.text++(Part.text (.bracketed spec inside)++right.flatMap Part.text)=
        (left.flatMap Part.text++0x5B::inside)++0x5D::right.flatMap Part.text := by simp [Part.text]
    rw [hclose] at hpaired
    exact ((hpaired.split (by decide)).1.split (by decide)).2

/-- Where no NUL of a text stands before an octal digit, none does in what its parts write. -/
theorem clear_parts (h : Apart (parts.flatMap Part.text)) : Pattern.Clear (parts.flatMap Part.signs) := by
  have hall : ∀before : List (Option UInt16),Pattern.Clear (before++(parts.flatMap Part.text).map some)→
      Pattern.Clear (before++parts.flatMap Part.signs) := by
    clear h
    induction parts with
    | nil => exact fun _ => id
    | cons part parts ih =>
      intro before hclear
      rw [List.flatMap_cons,List.map_append,← List.append_assoc] at hclear
      rw [List.flatMap_cons,← List.append_assoc]
      apply ih
      cases part with
      | literal text => exact hclear
      | bracketed spec inside =>
        have hinside : before++(Part.text (.bracketed spec inside)).map some++(parts.flatMap Part.text).map some=
            (before++[some 0x5B])++inside.map some++(some 0x5D::(parts.flatMap Part.text).map some) :=
              by simp [Part.text]
        rw [hinside] at hclear
        have hcut := hclear.cut
        simpa [Part.signs] using hcut
      | date format text =>
        have hcut := hclear.cut
        simpa [Part.signs] using hcut
      | field spec text =>
        have hcut := hclear.cut
        simpa [Part.signs] using hcut
  refine hall [] ?_
  rw [List.nil_append,Pattern.Clear,List.isChain_map]
  exact h.imp fun _ _ hnul htakes => hnul ⟨Option.some_inj.mp htakes.1,htakes.2⟩

variable (pair) in
private theorem record_accepts_parts (hp : p.Ascii) (hcut : CutInto line parts)
    (hrecognised : ∀part∈parts,part.Recognised)
    (hline : ∀x∈line,x≠0x0A) (hpaired : Paired line) (hapart : Apart line)
    (h : compilePieces p (patternOfParts parts)=.ok s) : s.record.Accepts p pair line := by
  rw [compilePieces] at h
  split at h
  · cases h
  · cases hloop : compileLoop p (patternOfParts parts) 0 0 .start with
    | error e =>
      rw [hloop] at h
      cases h
    | ok s₀ =>
      rw [hloop] at h
      cases h
      have hclear : Pattern.Clear (parts.flatMap Part.signs) := clear_parts (by rwa [hcut.text])
      have hread := reads_flush (compileLoop_parts pair hp hcut.cut hrecognised (hcut.whole hpaired)
        (by rwa [hcut.text]) hcut.spellable (reads_start hclear) hloop)
      have hlegible := hread.clear
      rw [flushLiteral_literalBuf,List.map_nil,List.append_nil,List.append_nil] at hlegible
      obtain ⟨u,hu,hsplit⟩ := hread.split
      rw [flushLiteral_literalBuf,List.append_nil,List.nil_append,hcut.text] at hsplit
      left
      rw [hsplit,Pattern.language_asRead hlegible]
      exact hu

end Compiling

/-! ## Digits -/

/-- A digit of the line that the pattern keeps. -/
def Part.IsDigit (isDigit : UInt16→Bool) : Part→Prop
  | .literal text => ∃x∈text,isDigit x=true
  | _ => False

/-- Where no digits were memorised no two of them stand next to each other; `run` of them come before. -/
theorem buildLoop_digits {isDigit : UInt16→Bool} {s : Text} {skip run : ℕ}
    (h : (buildLoop isDigit s skip run).memorizedDigits=false) :
    (buildLoop isDigit s skip run).parts.IsChain (fun a b => ¬(a.IsDigit isDigit ∧ b.IsDigit isDigit)) ∧
      (0 < run→∀part∈(buildLoop isDigit s skip run).parts.head?,¬part.IsDigit isDigit) := by
  induction s generalizing skip run with
  | nil => exact ⟨.nil,by simp [buildLoop]⟩
  | cons c rest ih =>
    cases skip with
    | succ skip => exact ih h
    | zero =>
      rw [buildLoop] at h ⊢
      split at h
      · rename_i inside hrun
        refine ⟨List.isChain_cons.mpr ⟨fun part _ hboth => hboth.1,(ih h).1⟩,?_⟩
        rintro - part ⟨⟩
        exact id
      · obtain ⟨hshort,hkept⟩ := Bool.or_eq_false_iff.mp h
        have hshort := of_decide_eq_false hshort
        obtain ⟨hchain,hhead⟩ := ih hkept
        have hdigit : (Part.literal [c]).IsDigit isDigit ↔ isDigit c=true := by simp [Part.IsDigit]
        constructor
        · refine List.isChain_cons.mpr ⟨?_,hchain⟩
          rintro part hpart ⟨hc,hpart'⟩
          apply hhead ?_ part hpart hpart'
          rw [if_pos (hdigit.mp hc)]
          omega
        · rintro hpos part ⟨⟩ hc
          rw [if_pos (hdigit.mp hc)] at hshort
          omega

private theorem buildLeft_digits {isDigit : UInt16→Bool} {s : Text} {order : DateOrder}
    (h : (buildLeft isDigit s order).memorizedDigits=false) :
    (buildLeft isDigit s order).parts.IsChain (fun a b => ¬(a.IsDigit isDigit ∧ b.IsDigit isDigit)) := by
  rw [buildLeft] at h ⊢
  split at h
  · exact List.isChain_cons.mpr ⟨fun part _ hboth => hboth.1,(buildLoop_digits h).1⟩
  · exact (buildLoop_digits h).1

/-- Each way a line is read is the line cut into parts, none of its digits before the priority kept next
to another. The compiler finds no fault in their pattern; and where the engine takes what it makes of it, and the
parts have the shape that they are compiled to, both expressions match the line. -/
theorem readings_recognise {p : Platform} (hp : p.Ascii) {pair : UInt16→UInt16→Bool} {line : Text}
    {order : DateOrder} {parts : List Part} (h : parts∈readings p.isDigit line order) :
    parts.flatMap Part.text=line ∧
    (∃left word rest,parts=left++.field (unit 'p') word::rest ∧ word∈priorityWords ∧
      left.IsChain fun a b => ¬(a.IsDigit p.isDigit ∧ b.IsDigit p.isDigit)) ∧
    ∃s,compilePieces p (patternOfParts parts)=.ok s ∧
      ((p.compile s.record.text .sensitive).isValid=true→(p.compile s.recordStart.text .sensitive).isValid=true→
        ∃f,PatternCompiler.compile p (patternOfParts parts)=.ok f ∧
          ((∀x∈line,x≠0x0A)→Paired line→Apart line→(∀part∈parts,part.Recognised)→p.Runs pair s.record→
            p.Runs pair s.recordStart→
            (f.recordStartRe.exec line).isSome=true ∧ (f.recordRe.exec line).isSome=true)) := by
  have hcut := readings_cutInto h
  refine ⟨hcut.text,?_,?_⟩
  · obtain ⟨before,word,after,rest,hparts,hmemorized,-,hword,-⟩ := readings_cut h
    exact ⟨_,word,rest,hparts,hword,buildLeft_digits hmemorized⟩
  · obtain ⟨s,hs⟩ := compilePieces_ok hp hcut
    refine ⟨s,hs,fun hrecordValid hstartValid => ?_⟩
    obtain ⟨f,hf⟩ : ∃f,PatternCompiler.compile p (patternOfParts parts)=.ok f := by
      rw [PatternCompiler.compile,hs]
      exact ⟨_,if_neg (by simp [hrecordValid,hstartValid])⟩
    refine ⟨f,hf,fun hline hpaired hapart hrecognised hrunsRecord hrunsStart => ?_⟩
    obtain ⟨s',hs',hrecord,hstart⟩ := compile_ok hf
    obtain rfl := Except.ok.inj (hs'.symm.trans hs)
    have haccepts := record_accepts_parts pair hp hcut hrecognised hline hpaired hapart hs
    rw [hrecord,hstart]
    exact ⟨(hrunsStart line).mpr ⟨hpaired,recordStart_accepts hs haccepts⟩,(hrunsRecord line).mpr
      ⟨hpaired,haccepts⟩⟩

/-- What `[%t] %p %m%n` compiles to. -/
def threadedPieces : Compilation :=
  let word : Pattern := .rep (.cls .notSpace) .plus
  ⟨[⟨compileLiteral (latin1 "["),false,.message,false,[]⟩,makeFieldPiece word .thread false false,
    ⟨compileLiteral (latin1 "] "),false,.message,false,[]⟩,makeFieldPiece word .priority false false,
    ⟨compileLiteral (latin1 " "),false,.message,false,[]⟩,
      makeFieldPiece (.rep (.cls .any) .star) .message false true],
    [],3,{LogFormat.empty with threadGroup := 1,prioGroup := 2,msgGroup := 3}⟩

noncomputable def threadedPlatform : Platform :=
  Platform.ascii.running (fun _ _ => false) [threadedPieces.record,threadedPieces.recordStart]

/-- The line `[a] INFO b` is matched by the pattern it gives. -/
theorem readings_recognise_threaded :
    ∃f,PatternCompiler.compile threadedPlatform (latin1 "[%t] %p %m%n")=.ok f ∧
      (f.recordStartRe.exec (latin1 "[a] INFO b")).isSome=true ∧
      (f.recordRe.exec (latin1 "[a] INFO b")).isSome=true := by
  let parts : List Part := [.bracketed (unit 't') (latin1 "a"),.literal (latin1 " "),
    .field (unit 'p') (latin1 "INFO"),.literal (latin1 " "),.field (unit 'm') (latin1 "b")]
  have hpattern : patternOfParts parts=latin1 "[%t] %p %m%n" := by decide +kernel
  have hparts : parts∈readings isAsciiDigit (latin1 "[a] INFO b") .monthFirst := by decide +kernel
  have hpieces : compilePieces threadedPlatform (latin1 "[%t] %p %m%n")=.ok threadedPieces := by rfl
  have htext : threadedPieces.record.text≠threadedPieces.recordStart.text := by decide +kernel
  have hascii : threadedPlatform.Ascii :=
    ⟨Platform.ascii_ascii.digit,Platform.ascii_ascii.letter,Platform.ascii_ascii.upper⟩
  obtain ⟨-,-,s,hs,hcompiles⟩ := @readings_recognise _ hascii (fun _ _ => false) _ _ _ hparts
  rw [hpattern] at hs hcompiles
  obtain rfl := Except.ok.inj (hs.symm.trans hpieces)
  obtain ⟨f,hf,hmatch⟩ := hcompiles rfl rfl
  refine ⟨f,hf,hmatch (forall_mem_of_all (by decide)) (by decide) (by unfold Apart; decide) ?_ ?_ ?_⟩
  · simp only [parts,List.forall_mem_cons]
    refine ⟨fun _ => ⟨by decide,forall_mem_of_all (by decide)⟩,forall_mem_of_all (by decide),trivial,
      forall_mem_of_all (by decide),trivial,by simp⟩
  · exact running_runs (List.mem_cons_self ..) (by simp [htext.symm])
  · exact running_runs (by simp) (by simp [htext])

end FormatDetector

end Loftail
