import Loftail.Record
import Mathlib.Data.List.Basic

/-! # How a POSIX shell splits a command into words

Tokens are recognised unit by unit. A unit of a word remembers whether it was quoted: what is quoted is
taken as it is, and is open to no expansion. -/
namespace Loftail.Shell

/-- A unit of a word, and whether it was quoted. -/
structure Letter where
  unit : UInt16
  quoted : Bool
  deriving DecidableEq

/-- A word, its quotes removed, or one unit of an operator. -/
inductive Token
  | word (letters : List Letter)
  | operator (unit : UInt16)
  deriving DecidableEq

inductive Mode
  | plain
  | escaped
  | single
  | double
  | doubleEscaped
  | comment
  deriving DecidableEq

structure Lexer where
  mode : Mode
  word : Option (List Letter)
  tokens : List Token
  deriving DecidableEq

def start : Lexer := ⟨.plain,none,[]⟩

/-- Blanks end a word. -/
def isBlank (c : UInt16) : Bool := c=0x20 || c=0x09

/-- The units that operators are made of: a newline and `&();<>|`. -/
def isOperator (c : UInt16) : Bool :=
  c=0x0A || c=0x26 || c=0x28 || c=0x29 || c=0x3B || c=0x3C || c=0x3E || c=0x7C

/-- What a backslash escapes between double quotes: a newline and "$`\ -/
def isDoubleEscape (c : UInt16) : Bool := c=0x22 || c=0x24 || c=0x5C || c=0x60

namespace Lexer

def letter (l : Lexer) (c : UInt16) (quoted : Bool) : Lexer := {l with word := some (l.word.getD []++[⟨c,quoted⟩])}

/-- The word in progress ends. -/
def flush (l : Lexer) : Lexer :=
  match l.word with
  | none => l
  | some w => {l with word := none,tokens := l.tokens++[.word w]}

/-- An operator, which ends a word and a comment. -/
def operator (l : Lexer) (c : UInt16) : Lexer :=
  let l := l.flush
  {l with mode := .plain,tokens := l.tokens++[.operator c]}

def step (l : Lexer) (c : UInt16) : Lexer :=
  match l.mode with
  | .plain =>
    if c=0x27 then {l with mode := .single,word := some (l.word.getD [])}
    else if c=0x22 then {l with mode := .double,word := some (l.word.getD [])}
    else if c=0x5C then {l with mode := .escaped}
    else if isBlank c then l.flush
    else if isOperator c then l.operator c
    else if c=0x23 ∧ l.word=none then {l with mode := .comment}
    else l.letter c false
  | .escaped => if c=0x0A then {l with mode := .plain} else {l.letter c true with mode := .plain}
  | .single => if c=0x27 then {l with mode := .plain} else l.letter c true
  | .double =>
    if c=0x22 then {l with mode := .plain}
    else if c=0x5C then {l with mode := .doubleEscaped}
    else l.letter c (c≠0x24 && c≠0x60)
  | .doubleEscaped =>
    if c=0x0A then {l with mode := .double}
    else if isDoubleEscape c then {l.letter c true with mode := .double}
    else {(l.letter 0x5C true).letter c true with mode := .double}
  | .comment => if c=0x0A then l.operator c else l

end Lexer

def read (text : Text) (l : Lexer) : Lexer := text.foldl Lexer.step l

/-- The tokens of a command; `none` where a quote is not closed. -/
def tokens (command : Text) : Option (List Token) :=
  let l := read command start
  if l.mode=.plain ∨ l.mode=.comment then some l.flush.tokens else none

/-- A word as it stands, none of it quoted. -/
def bare (text : Text) : List Letter := text.map fun c => ⟨c,false⟩

/-- A word that is quoted throughout. -/
def quoted (text : Text) : List Letter := text.map fun c => ⟨c,true⟩

/-- A unit that means itself anywhere in a word that stands bare. -/
def isOrdinary (c : UInt16) : Bool :=
  c≠0x27 && c≠0x22 && c≠0x5C && !isBlank c && !isOperator c && c≠0x23

section Laws
variable {l : Lexer} {text more : Text}

@[simp] theorem read_nil : read [] l=l := rfl

theorem read_append : read (text++more) l=read more (read text l) := List.foldl_append ..

/-- Between single quotes everything but the quote is taken as it is. -/
theorem read_single (h : 0x27∉text) (w : List Letter) (ts : List Token) :
    read text ⟨.single,some w,ts⟩=⟨.single,some (w++quoted text),ts⟩ := by
  induction text generalizing w with
  | nil => simp [quoted]
  | cons c text ih =>
    obtain ⟨hc,htext⟩ := List.ne_and_not_mem_of_not_mem_cons h
    have hstep : Lexer.step ⟨.single,some w,ts⟩ c=⟨.single,some (w++[⟨c,true⟩]),ts⟩ := by
      simp [Lexer.step,Lexer.letter,Ne.symm hc]
    change read text (Lexer.step ⟨.single,some w,ts⟩ c)=_
    rw [hstep,ih htext]
    simp [quoted]

/-- Ordinary units go on a word that stands bare. -/
theorem read_bare (h : ∀c∈text,isOrdinary c=true) (w : List Letter) (ts : List Token) :
    read text ⟨.plain,some w,ts⟩=⟨.plain,some (w++bare text),ts⟩ := by
  induction text generalizing w with
  | nil => simp [bare]
  | cons c text ih =>
    have hc := h c List.mem_cons_self
    have hstep : Lexer.step ⟨.plain,some w,ts⟩ c=⟨.plain,some (w++[⟨c,false⟩]),ts⟩ := by
      simp only [isOrdinary,Bool.and_eq_true,Bool.not_eq_true',decide_eq_true_eq] at hc
      simp [Lexer.step,Lexer.letter,hc]
    change read text (Lexer.step ⟨.plain,some w,ts⟩ c)=_
    rw [hstep,ih fun d hd => h d (List.mem_cons_of_mem _ hd)]
    simp [bare]

/-- A bare word begins with its first unit. -/
theorem read_bare_word (h : ∀c∈text,isOrdinary c=true) (hne : text≠[]) (ts : List Token) :
    read text ⟨.plain,none,ts⟩=⟨.plain,some (bare text),ts⟩ := by
  cases text with
  | nil => exact absurd rfl hne
  | cons c text =>
    have hc := h c List.mem_cons_self
    have hstep : Lexer.step ⟨.plain,none,ts⟩ c=⟨.plain,some [⟨c,false⟩],ts⟩ := by
      simp only [isOrdinary,Bool.and_eq_true,Bool.not_eq_true',decide_eq_true_eq] at hc
      simp [Lexer.step,Lexer.letter,hc]
    change read text (Lexer.step ⟨.plain,none,ts⟩ c)=_
    rw [hstep,read_bare fun d hd => h d (List.mem_cons_of_mem _ hd)]
    rfl

end Laws

end Loftail.Shell
