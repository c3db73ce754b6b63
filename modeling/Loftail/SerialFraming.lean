import Mathlib.Data.Nat.Digits.Defs
import Loftail.LineSearch
import Loftail.Record

/-! # One framed answer read out of a console's stream -/
namespace Loftail
open LineSearch

def newline : Byte := 0x0A

/-- `isspace` of the C locale. -/
def isBlank (b : Byte) : Bool := b=0x20 || (0x09≤b && b≤0x0D)

def trimEnd (s : Bytes) : Bytes := (s.reverse.dropWhile isBlank).reverse

/-- `QByteArray::trimmed`. -/
def trimBlanks (s : Bytes) : Bytes := trimEnd (s.dropWhile isBlank)

def isDecimal (b : Byte) : Bool := 0x30≤b && b≤0x39

/-- The value of decimal digits; `none` where there are none, or something else. -/
def decimalValue (s : Bytes) : Option ℕ :=
  if s≠[] ∧ s.all isDecimal then some (s.foldl (fun n b => 10*n+(b.toNat-0x30)) 0) else none

def isInt (n : ℤ) : Bool := -0x80000000≤n && n≤0x7FFFFFFF

/-- A sign, and decimal digits. -/
def signedValue : Bytes→Option ℤ
  | 0x2D::s => (decimalValue s).map fun n : ℕ => -(n : ℤ)
  | 0x2B::s => (decimalValue s).map Int.ofNat
  | s => (decimalValue s).map Int.ofNat

/-- `QByteArray::toInt`; `none` where it is not ok. -/
def toInt (s : Bytes) : Option ℤ := (signedValue (trimBlanks s)).filter isInt

/-- `printf '%d'`. -/
def printedNat (n : ℕ) : Bytes :=
  if n=0 then [0x30] else (Nat.digits 10 n).reverse.map fun d => UInt8.ofNat (0x30+d)

def printed (n : ℤ) : Bytes := if n < 0 then 0x2D::printedNat n.natAbs else printedNat n.natAbs

/-- A negative `expected` says that the length is not known. -/
structure SerialFrame where
  token : Bytes
  expected : ℤ

inductive FrameState | incomplete | complete | corrupt
  deriving DecidableEq,Repr

structure FramedAnswer where
  shortPayload : Bool
  state : FrameState
  output : Bytes
  exitCode : ℤ
  consumed : ℕ
  deriving DecidableEq

def beginMarker (token : Bytes) : Bytes := [0x4C,0x46,0x42,0x2D]++token

def endMarker (token : Bytes) : Bytes := [0x4C,0x46,0x45,0x2D]++token

/-- The line from `start` on that starts with the marker, white space aside. A last line that no
newline closes is not one yet. -/
def markerLine (buffer marker : Bytes) (start : ℕ) : Option (ℕ×ℕ) :=
  lineWhere newline (fun line => marker.isPrefixOf (trimBlanks line)) buffer (buffer.length+1) start

def endOfMarkerLine (buffer marker : Bytes) (start : ℕ) : Option ℕ := (markerLine buffer marker start).map (·.2)

/-- The bytes to write for a command. -/
def framedCommand (command : Bytes) (frame : SerialFrame) (keepStdErr : Bool) : Bytes :=
  ascii "printf '\\n%s\\n' "++beginMarker frame.token++ascii "; "++command++
    (if keepStdErr then ascii " 2>&1" else ascii " 2>/dev/null")++ascii "; printf '\\n%s %d\\n' "++
    endMarker frame.token++ascii " \"$?\"\n"

/-- `QByteArray::number` to the base 16. -/
def hex (n : ℕ) : Bytes :=
  if n=0 then [0x30] else (Nat.digits 16 n).reverse.map fun d => UInt8.ofNat (if d < 10 then 0x30+d else 0x57+d)

/-- The token of a session's run: the session's own random value and a counter. -/
def frameToken (tokenBase frameCounter : ℕ) : Bytes := hex tokenBase++hex frameCounter

/-- Where the payload ends, if that is known before the end marker's line is, and from where
that line is searched. -/
structure PayloadBound where
  short : Bool
  payloadEnd : Option ℕ
  searchFrom : ℕ

/-- `none` where the frame is not closed yet. -/
def payloadBound (buffer : Bytes) (frame : SerialFrame) (payloadStart : ℕ) : Option PayloadBound :=
  if frame.expected < 0 then some ⟨false,none,payloadStart⟩
  else
    let fullEnd := payloadStart+frame.expected.toNat
    let terminator := newline::endMarker frame.token
    let full : PayloadBound := ⟨false,some fullEnd,fullEnd⟩
    if fullEnd+terminator.length≤buffer.length ∧ mid buffer fullEnd terminator.length=terminator then some full
    else
      match (indexOf terminator buffer payloadStart).filter fun pos =>
        (endOfMarkerLine buffer (endMarker frame.token) (pos+1)).isSome with
      | none => if buffer.length < fullEnd+terminator.length then none else some full
      | some pos => if pos < fullEnd then some ⟨true,none,payloadStart⟩ else some full

/-- The end of a payload up to the end marker's line: without the frame's own newline, and on a
scanned answer without a carriage return before it. -/
def scannedEnd (buffer : Bytes) (frame : SerialFrame) (payloadStart statusLineStart : ℕ) : ℕ :=
  if payloadStart < statusLineStart ∧ buffer[statusLineStart-1]?=some newline then
    let payloadEnd := statusLineStart-1
    if frame.expected < 0 ∧ payloadStart < payloadEnd ∧ buffer[payloadEnd-1]?=some 0x0D then payloadEnd-1
    else payloadEnd
  else statusLineStart

/-- The answer, up to the end marker's line. -/
def answerAt (buffer : Bytes) (frame : SerialFrame) (payloadStart : ℕ) (bound : PayloadBound) : FramedAnswer :=
  match markerLine buffer (endMarker frame.token) bound.searchFrom with
  | none => ⟨bound.short,.incomplete,[],0,0⟩
  | some (statusLineStart,statusLineEnd) =>
    let payloadEnd := bound.payloadEnd.getD (scannedEnd buffer frame payloadStart statusLineStart)
    if statusLineStart < payloadEnd then ⟨bound.short,.corrupt,[],0,statusLineEnd⟩
    else
      let line := trimBlanks (mid buffer statusLineStart (statusLineEnd-statusLineStart))
      let status := trimBlanks (line.drop (endMarker frame.token).length)
      let output := mid buffer payloadStart (payloadEnd-payloadStart)
      match toInt status with
      | some code => ⟨bound.short,.complete,output,code,statusLineEnd⟩
      | none => ⟨bound.short,.corrupt,output,-1,statusLineEnd⟩

def readFramedAnswer (buffer : Bytes) (frame : SerialFrame) : FramedAnswer :=
  match endOfMarkerLine buffer (beginMarker frame.token) 0 with
  | none => ⟨false,.incomplete,[],0,0⟩
  | some payloadStart =>
    match payloadBound buffer frame payloadStart with
    | none => ⟨false,.incomplete,[],0,0⟩
    | some bound => answerAt buffer frame payloadStart bound

/-- What the far end prints for a framed command. -/
def framed (token payload : Bytes) (code : ℤ) : Bytes :=
  newline::(beginMarker token++newline::(payload++newline::(endMarker token++0x20::printed code++[newline])))

/-- No line of a text starts with the marker, white space aside. -/
def Unmarked (marker text : Bytes) : Prop := ∀line∈text.splitOn newline,¬marker<+:trimBlanks line

instance (marker text : Bytes) : Decidable (Unmarked marker text) :=
  inferInstanceAs (Decidable (∀line∈text.splitOn newline,¬marker<+:trimBlanks line))

/-- The payloads a framing tells from the frame: any of the expected length, or else none that
holds the end marker's line. A scanned one does not end in a carriage return. -/
def SerialFrame.Admits (frame : SerialFrame) (payload : Bytes) : Prop :=
  frame.expected=payload.length ∨
    ((payload.length : ℤ) < frame.expected ∧ Unmarked (endMarker frame.token) payload) ∨
    (frame.expected < 0 ∧ Unmarked (endMarker frame.token) payload ∧ payload.getLast?≠some 0x0D)

end Loftail
