import Mathlib.Data.Int.Notation
import Mathlib.Data.List.Basic

/-! # Matches with the records either side of them, in one forward pass -/
namespace Loftail

/-- What carries across calls of the emitter. -/
structure ContextState where
  lastEmitted : ℤ
  lastMatch : ℤ
  sinceMatch : ℕ
  deriving DecidableEq

namespace ContextState

def initial : ContextState := ⟨-1,-1,0⟩

end ContextState

/-- One emitted row: a source ordinal, and whether it is context. -/
abbrev Emitted := ℕ×Bool

/-- The leading window: up to `before` in-bound rows under `r`, all above `lastEmitted`. -/
def leadWindow (inBound : ℕ→Bool) (lastEmitted : ℤ) : ℕ→ℕ→List ℕ
  | _,0 => []
  | before,q+1 =>
    if (q : ℤ)>lastEmitted ∧ 0<before then
      if inBound q then leadWindow inBound lastEmitted (before-1) q++[q]
      else leadWindow inBound lastEmitted before q
    else []

/-- The body of the emitter's loop. -/
def emitRow (inBound isMatch : ℕ→Bool) (before after : ℕ) (st : ContextState) (r : ℕ) :
    ContextState×List Emitted :=
  if !inBound r then (st,[])
  else if isMatch r then
    (⟨r,r,0⟩,(leadWindow inBound st.lastEmitted before r).map (fun q => (q,true))++[(r,false)])
  else if st.lastMatch≥0 ∧ st.sinceMatch<after then (⟨r,st.lastMatch,st.sinceMatch+1⟩,[(r,true)])
  else (st,[])

/-- The emitter over rows in their order. -/
def emitRows (inBound isMatch : ℕ→Bool) (before after : ℕ) : ContextState→List ℕ → ContextState×List Emitted
  | st,[] => (st,[])
  | st,r::rs =>
    let here := emitRow inBound isMatch before after st r
    let rest := emitRows inBound isMatch before after here.1 rs
    (rest.1,here.2++rest.2)

/-- Rows `first` up to, not including, `stop`. -/
def emitWithContext (first stop before after : ℕ) (st : ContextState) (inBound isMatch : ℕ→Bool) :
    ContextState×List Emitted :=
  emitRows inBound isMatch before after st (List.range' first (stop-first))

end Loftail
