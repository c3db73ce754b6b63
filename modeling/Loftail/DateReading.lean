import Mathlib.Data.List.DropRight
import Loftail.PatternLanguage
import Loftail.TimestampParser

/-! # Where the token reader stops

Each code of a format reads with its own rule, whatever its expression matched. It stops where the
expression's part of the text ends exactly where what follows makes it. -/
namespace Loftail
open RegularLanguage RegularLanguage.Re TimestampParser

def startsWith (q : UInt16→Bool) : Text→Bool
  | [] => false
  | c::_ => q c

def isDot (c : UInt16) : Bool := c=0x2E

/-- What a token leaves unread, whether or not it knows the name it read. -/
def readToken (p : Platform) (tok : DateToken) (text : Text) : Option Text :=
  match tok.kind with
  | .year4 => (readInt p 4 text).map Prod.snd
  | .millis => (readInt p 3 text).map Prod.snd
  | .epochSeconds | .skipDigits => (readInt p tok.width text).map Prod.snd
  | .millisFrac =>
    ((readInt p 3 text).map Prod.snd).bind fun r =>
      let r := if startsWith isDot r then r.drop 1 else r
      if startsWith p.isDigit r then (readInt p 6 r).map Prod.snd else some r
  | .monthName | .skipWord => if (readWord p tok text).1=[] then none else some (readWord p tok text).2
  | .amPm =>
    match (readWord p tok text).1 with
    | [a,m] =>
      if p.toUpper m≠0x4D || (p.toUpper a≠0x41 && p.toUpper a≠0x50) then none else some (readWord p tok text).2
    | _ => none
  | .utcOffset => (readOffset p text).map Prod.snd
  | .literal =>
    match text with
    | [] => none
    | c::cs =>
      if tok.literal=0x20 then if isSpace c then some (cs.dropWhile isSpace) else none
      else if c=tok.literal then some cs else none
  | _ => (readInt p 2 text).map Prod.snd

/-- A word stops past its dot, or before what is neither a letter nor a dot it would take. -/
def wordStops (p : Platform) (tok : DateToken) (piece rest : Text) : Bool :=
  (piece.all p.isLetter && !startsWith p.isLetter rest && (tok.literalDotFollows || !startsWith isDot rest)) ||
    (!tok.literalDotFollows && decide (piece.getLast?=some 0x2E) && piece.dropLast.all p.isLetter)

/-- Whether the reader of a token stops at the end of a piece of the text. -/
def stops (p : Platform) (tok : DateToken) (piece rest : Text) : Bool :=
  match tok.kind with
  | .monthName | .skipWord | .amPm => wordStops p tok piece rest
  | .millisFrac =>
    let fraction := piece.drop 3
    let digits := if startsWith isDot fraction then fraction.drop 1 else fraction
    (digits.length=6 || !startsWith p.isDigit rest) && (fraction≠[] || !startsWith isDot rest)
  | .utcOffset => true
  | .literal => tok.literal≠0x20 || !startsWith isSpace rest
  | _ => (piece.dropWhile fun c => c=0x20).length=tok.width || !startsWith p.isDigit rest

section Readers
variable {p : Platform} {pair : UInt16→UInt16→Bool} {tok : DateToken} {s t rest piece : Text} {w : ℕ}
  {q : UInt16→Bool}

private theorem asciiDigit_lt {c : UInt16} (h : isAsciiDigit c=true) : c<0x80 := by
  simp only [isAsciiDigit,Bool.and_eq_true,decide_eq_true_eq,UInt16.le_iff_toNat_le,UInt16.lt_iff_toNat_lt] at h ⊢
  simp at h ⊢
  omega

theorem Platform.Ascii.isDigit (hp : p.Ascii) {c : UInt16} (h : isAsciiDigit c=true) : p.isDigit c=true := by
  rw [hp.digit c (asciiDigit_lt h),h]

theorem takeWhile_eq_nil : s.takeWhile q=[] ↔ startsWith q s=false := by
  cases s with
  | nil => simp [startsWith]
  | cons c s =>
    cases hq : q c <;> simp [startsWith,hq]

theorem dropWhile_eq_self : s.dropWhile q=s ↔ startsWith q s=false := by
  cases s with
  | nil => simp [startsWith]
  | cons c s =>
    simp only [startsWith]
    cases hq : q c with
    | false => simp [hq]
    | true =>
      have hlen := (List.dropWhile_sublist q (l:=s)).length_le
      simp only [List.dropWhile_cons,hq,if_true,Bool.true_eq_false,iff_false]
      intro h
      have hl := congrArg List.length h
      simp only [List.length_cons] at hl
      omega

end Readers

/-! ## The codes -/

/-- What the expression of a code matched is what its reader reads, exactly where that stops. -/
def DateItem.Exact (p : Platform) (pair : UInt16→UInt16→Bool) (item : DateItem) : Prop :=
  ∀(piece rest : Text),piece∈Pattern.language p pair item.regex →
    (readToken p item.token (piece++rest)=some rest ↔ stops p item.token piece rest=true)

section Codes
variable {p : Platform} {pair : UInt16→UInt16→Bool} {tok : DateToken} {s rest piece : Text} {w : ℕ} {c : UInt16}

end Codes

end Loftail
