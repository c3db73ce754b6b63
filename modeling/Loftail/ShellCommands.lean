import Loftail.DateTranslation
import Loftail.ShellWords

/-! # The commands a remote read is made of

A path goes into a command as one quoted word. -/
namespace Loftail.SshExec
open Shell

/-! ## `QString::arg` -/

/-- A part of a format: a unit, or a place marker with its text. -/
inductive Part
  | unit (c : UInt16)
  | place (n : ℕ) (text : Text)
  deriving DecidableEq

def isDigit (c : UInt16) : Bool := 0x30≤c && c≤0x39

def digit (c : UInt16) : ℕ := c.toNat-0x30

/-- The parts of a format; a marker is `%` and one digit or two. -/
def parts : Text→List Part
  | [] => []
  | [c] => [.unit c]
  | [c,d] => if c=0x25 ∧ isDigit d then [.place (digit d) [c,d]] else .unit c::parts [d]
  | c::d::e::t =>
    if c=0x25 ∧ isDigit d then
      if isDigit e then .place (10*digit d+digit e) [c,d,e]::parts t else .place (digit d) [c,d]::parts (e::t)
    else .unit c::parts (d::e::t)

/-- The numbers of a format's markers. -/
def places (ps : List Part) : List ℕ := ps.filterMap fun p =>
  match p with
  | .unit _ => none
  | .place n _ => some n

/-- Which of the arguments a marker stands for: its place among the numbers that occur. -/
def rank (ps : List Part) (n : ℕ) : ℕ := ((List.range n).filter fun m => (places ps).contains m).length

/-- All arguments are put in at once; what is put in is not looked at again. -/
def arg (format : Text) (args : List Text) : Text :=
  (parts format).flatMap fun p =>
    match p with
    | .unit c => [c]
    | .place n text => (args[rank (parts format) n]?).getD text

/-! ## The builders -/

def shellQuote (path : Text) : Text :=
  0x27::path.flatMap (fun c => if c=0x27 then [0x27,0x5C,0x27,0x27] else [c])++[0x27]

def statCommand (path : Text) : Text :=
  arg (latin1 "stat -c '%s %Y' %1 2>/dev/null || stat -f '%z %m' %1") [shellQuote path]

def lsSizeCommand (path : Text) : Text :=
  arg (latin1 "LC_ALL=C BLOCK_SIZE=1 LS_BLOCK_SIZE=1 QUOTING_STYLE=literal ls -lnLd %1") [shellQuote path]

def wcSizeCommand (path : Text) : Text := arg (latin1 "wc -c < %1") [shellQuote path]

/-- `ByteSafety`. -/
inductive Safety
  | raw
  | base64

/-- The first byte of a read, counted from one. -/
def readFrom (offset : ℤ) : ℕ := (max 0 offset+1).toNat

def readCommand (path : Text) (offset length : ℤ) (safety : Safety) : Text :=
  let base := arg (latin1 "tail -c +%1 %2 | head -c %3")
    [number (readFrom offset),shellQuote path,number (max 0 length).toNat]
  match safety with
  | .raw => base
  | .base64 => base++latin1 " | base64"

def streamReadCommand (path : Text) (offset : ℤ) : Text :=
  arg (latin1 "tail -c +%1 %2") [number (readFrom offset),shellQuote path]

def configMarker : Text := latin1 "loftail-cfg"

def configReadCommand (path : Text) : Text := arg (latin1 "cat < %1") [shellQuote path]

def configExistsCommand (path : Text) : Text :=
  arg (latin1 "if test -e %1; then echo %2 1; else echo %2 0; fi") [shellQuote path,configMarker]

def configWriteCommand (path : Text) : Text := arg (latin1 "cat > %1") [shellQuote path]

/-- One variable: assigned, and exported. -/
def exported (v : Text×Text) : Text :=
  v.1++0x3D::shellQuote v.2++0x0A::latin1 "export "++v.1++[0x0A]

/-- CRLF and CR as LF. -/
def normalised : Text→Text
  | 0x0D::0x0A::t => 0x0A::normalised t
  | 0x0D::t => 0x0A::normalised t
  | c::t => c::normalised t
  | [] => []

/-- The script, in a group whose input is closed. -/
def scriptGroup (script : Text) : Text := latin1 "\x7b\n"++normalised script++latin1 "\n\x7d < /dev/null\n"

def restartScriptCommand (script : Text) (vars : List (Text×Text)) : Text :=
  vars.flatMap exported++scriptGroup script

/-- What a script is given: the log's path, and for an archived one the archive and its member. -/
def restartVariables (path : Text) (archived : Bool) (member : Text) : List (Text×Text) :=
  (latin1 "LOGFILE",path)::
    if archived then (latin1 "ARCHIVE",path)::if member=[] then [] else [(latin1 "MEMBER",member)] else []

example : statCommand (latin1 "a %1'") = latin1
    "stat -c '%s %Y' 'a %1'\\''' 2>/dev/null || stat -f '%z %m' 'a %1'\\'''" := by
  decide

end Loftail.SshExec
