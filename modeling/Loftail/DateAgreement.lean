import Loftail.DatePieces

/-! # Whether a format's expression and its tokens agree on a text -/
namespace Loftail
open RegularLanguage RegularLanguage.Re TimestampParser

/-- A text in pieces, one for each item, and what is left of it; `R` is told what follows the piece. -/
inductive Divides {ι : Type} (R : ι→Text→Text→Prop) : List ι→Text→Text→Prop
  | nil {left : Text} : Divides R [] left left
  | cons {item : ι} {items : List ι} {piece rest left : Text} (h : R item piece rest) (tail :
    Divides R items rest left) :
      Divides R (item::items) (piece++rest) left

namespace TimestampParser
variable (p : Platform) (tp : TimestampParser)

end TimestampParser

section
variable {ι κ : Type} {R R' : ι→Text→Text→Prop} {items items' : List ι} {text left rest : Text}

theorem Divides.mono (h : ∀item∈items,∀piece rest,R item piece rest→R' item piece rest)
    (hd : Divides R items text left) : Divides R' items text left := by
  induction hd with
  | nil => exact .nil
  | cons hr _ ih =>
    apply Divides.cons (h _ (List.mem_cons_self ..) _ _ hr)
    exact ih fun item hitem => h item (List.mem_cons_of_mem _ hitem)

theorem Divides.map {f : ι→κ} {R' : κ→Text→Text→Prop} (hd : Divides (fun item => R' (f item)) items text left) :
    Divides R' (items.map f) text left := by
  induction hd with
  | nil => exact .nil
  | cons h _ ih => exact .cons h ih

end

variable {p : Platform} {pair : UInt16→UInt16→Bool} {tp : TimestampParser} {tok : DateToken} {s s' : Parts}
  {text r left : Text} {tokens : List DateToken} {t : DateTranslation}

end Loftail
