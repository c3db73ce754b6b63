import Loftail.DateReading

/-! # What each reader takes of a text

A reader takes a piece from the front of the text; which one is told by the piece and by what follows it. -/
namespace Loftail
open TimestampParser

section
variable (p : Platform)

/-- Spaces, and then as many digits as the width allows, or fewer where no other follows. -/
def IsNumber (width : ℕ) (piece rest : Text) : Prop :=
  ∃spaces digits : Text,piece=spaces++digits ∧ (∀c∈spaces,c=0x20) ∧ digits≠[] ∧ (∀c∈digits,p.isDigit c=true) ∧
    digits.length ≤ width ∧ (digits.length=width ∨ startsWith p.isDigit rest=false)

end

section
variable {p : Platform} {tok : DateToken} {text rest piece : Text} {w : ℕ}

end

end Loftail
