import Loftail.Filter
import Loftail.RecordIndex

/-! # Ordered rules and what each does -/
namespace Loftail

/-- The actions a rule may carry. -/
structure HighlightActions where
  color : Bool
  digest : Bool
  tab : Bool
  notify : Bool
  deriving DecidableEq,Inhabited

namespace HighlightActions

/-- `a & b`. -/
def inter (a b : HighlightActions) : HighlightActions :=
  ⟨a.color && b.color,a.digest && b.digest,a.tab && b.tab,a.notify && b.notify⟩

/-- `a & ~b`. -/
def diff (a b : HighlightActions) : HighlightActions :=
  ⟨a.color && !b.color,a.digest && !b.digest,a.tab && !b.tab,a.notify && !b.notify⟩

def any (a : HighlightActions) : Bool := a.color || a.digest || a.tab || a.notify

def digestOnly : HighlightActions := ⟨false,true,false,false⟩

def tabNotify : HighlightActions := ⟨false,false,true,true⟩

/-- `kLiveActions`. -/
def live : HighlightActions := ⟨false,true,true,true⟩

end HighlightActions

structure HighlightRule where
  enabled : Bool
  criteria : MatchCriteria
  actions : HighlightActions

/-- The first matching rule of each action, or -1. -/
structure ActionMatch where
  color : ℤ
  digest : ℤ
  tab : ℤ
  notify : ℤ
  deriving DecidableEq

structure HighlighterSet where
  rules : List HighlightRule
  resolved : List FilterSet

namespace HighlighterSet

def resolve (hs : HighlighterSet) (idx : RecordIndex) (format : LogFormat) (displayZone : Zone) : HighlighterSet :=
  {hs with resolved := hs.rules.map (fun r =>
    r.criteria.resolve idx.loggers idx.threads format displayZone .doesNotMatch .keep)}

def anyEnabled (hs : HighlighterSet) (actions : HighlightActions) : Bool :=
  hs.rules.any (fun r => r.enabled && (r.actions.inter actions).any && r.criteria.anyActive)

/-- The resolved axes of a rule; past the resolved ones a rule is inert. -/
def axes (hs : HighlighterSet) (i : ℕ) : FilterSet := hs.resolved.getD i .inert

/-- A rule's axes on a record: an inactive set matches nothing. -/
def axesMatch (p : Platform) (hs : HighlighterSet) (i : ℕ) (r : Record) (message : Text) : Bool :=
  (hs.axes i).anyActive && (hs.axes i).accepts p r message

/-- Whether rule `i` matches on its own terms. -/
def ruleMatches (p : Platform) (hs : HighlighterSet) (i : ℕ) (r : Record) (message : Text) : Bool :=
  match hs.rules[i]? with
  | some rule => rule.enabled && hs.axesMatch p i r message
  | none => false

def answer (offered : Bool) (i : ℕ) (old : ℤ) : ℤ := if offered then i else old

/-- First match wins, for each wanted action apart. -/
def matchFrom (p : Platform) (hs : HighlighterSet) (r : Record) (message : Text) :
    ℕ→List HighlightRule→HighlightActions→ActionMatch→ActionMatch
  | _,[],_,out => out
  | i,rule::rules,remaining,out =>
    if !remaining.any then out else
      let offers := rule.actions.inter remaining
      if rule.enabled && offers.any && hs.axesMatch p i r message then
        matchFrom p hs r message (i+1) rules (remaining.diff offers)
          ⟨answer offers.color i out.color,answer offers.digest i out.digest,answer offers.tab i out.tab,
            answer offers.notify i out.notify⟩
      else matchFrom p hs r message (i+1) rules remaining out

def matchActions (p : Platform) (hs : HighlighterSet) (r : Record) (wanted : HighlightActions) (message : Text) :
    ActionMatch :=
  matchFrom p hs r message 0 hs.rules wanted ⟨-1,-1,-1,-1⟩

end HighlighterSet

end Loftail
