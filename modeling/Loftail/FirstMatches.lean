import Loftail.Highlight
import Mathlib.Data.List.TakeDrop
import Mathlib.Data.Nat.Basic

/-! # One pass for all actions

The rules are walked once for every action that is wanted, and the message is decoded when a rule
first asks for it. -/
namespace Loftail

/-- `HighlightAction`. -/
inductive HighlightAction | color | digest | tab | notify
  deriving DecidableEq,Repr

namespace HighlightAction

def carried : HighlightAction→HighlightActions→Bool
  | color,as => as.color
  | digest,as => as.digest
  | tab,as => as.tab
  | notify,as => as.notify

/-- The action alone. -/
def only (a : HighlightAction) : HighlightActions := ⟨a=color,a=digest,a=tab,a=notify⟩

private theorem carried_only (a : HighlightAction) : a.carried a.only=true := by cases a <;> rfl

theorem carried_inter (a : HighlightAction) (x y : HighlightActions) : a.carried
    (x.inter y)=(a.carried x && a.carried y) := by
  cases a <;> rfl

theorem carried_diff (a : HighlightAction) (x y : HighlightActions) : a.carried
    (x.diff y)=(a.carried x && !a.carried y) := by
  cases a <;> rfl

theorem any_iff (x : HighlightActions) : x.any=true ↔ ∃a : HighlightAction,a.carried x=true := by
  constructor
  · intro h
    simp only [HighlightActions.any,Bool.or_eq_true] at h
    obtain ((h | h) | h) | h := h
    · exact ⟨color,h⟩
    · exact ⟨digest,h⟩
    · exact ⟨tab,h⟩
    · exact ⟨notify,h⟩
  · rintro ⟨a,ha⟩
    cases a <;> simp only [carried] at ha <;> simp [HighlightActions.any,ha]

end HighlightAction

def ActionMatch.forAction (m : ActionMatch) : HighlightAction→ℤ
  | .color => m.color
  | .digest => m.digest
  | .tab => m.tab
  | .notify => m.notify

/-- The message once it is decoded, and the rules it was decoded for. -/
structure MessageMemo where
  message : Option Text
  decodedFor : List ℕ

namespace MessageMemo

def empty : MessageMemo := ⟨none,[]⟩

/-- The message, decoded now if it is not at hand; `msg n` is what the call after `n` others answers. -/
def read (m : MessageMemo) (msg : ℕ→Text) (i : ℕ) : Text×MessageMemo :=
  match m.message with
  | some text => (text,m)
  | none => (msg m.decodedFor.length,⟨some (msg m.decodedFor.length),m.decodedFor++[i]⟩)

end MessageMemo

namespace HighlighterSet

/-- One rule's axes on a record, the text axis last. -/
def testAxes (p : Platform) (hs : HighlighterSet) (i : ℕ) (r : Record) (msg : ℕ→Text) (memo : MessageMemo) :
    Bool×MessageMemo :=
  let fs := hs.axes i
  if !fs.anyActive || !fs.acceptsIntegerAxes r then (false,memo)
  else if fs.text.active then
    let (text,memo) := memo.read msg i
    (fs.acceptsText p text,memo)
  else (true,memo)

/-- The pass from rule `i` on, over what is still to be answered. -/
def passFrom (p : Platform) (hs : HighlighterSet) (r : Record) (msg : ℕ→Text) :
    ℕ→List HighlightRule→HighlightActions→ActionMatch→MessageMemo→ActionMatch×MessageMemo
  | _,[],_,out,memo => (out,memo)
  | i,rule::rules,remaining,out,memo =>
    if !remaining.any then (out,memo)
    else if !rule.enabled then passFrom p hs r msg (i+1) rules remaining out memo
    else
      let offers := rule.actions.inter remaining
      if !offers.any then passFrom p hs r msg (i+1) rules remaining out memo
      else
        let test := hs.testAxes p i r msg memo
        if test.1 then
          passFrom p hs r msg (i+1) rules (remaining.diff offers)
            ⟨answer offers.color i out.color,answer offers.digest i out.digest,answer offers.tab i out.tab,
              answer offers.notify i out.notify⟩ test.2
        else passFrom p hs r msg (i+1) rules remaining out test.2

/-- `matchActions` with its message callable. -/
def matchActionsWith (p : Platform) (hs : HighlighterSet) (r : Record) (wanted : HighlightActions) (msg : ℕ→Text) :
    ActionMatch×MessageMemo :=
  if !wanted.any then (⟨-1,-1,-1,-1⟩,.empty) else passFrom p hs r msg 0 hs.rules wanted ⟨-1,-1,-1,-1⟩ .empty

/-- `match`: the one action. -/
def matchAction (p : Platform) (hs : HighlighterSet) (r : Record) (a : HighlightAction) (msg : ℕ→Text) : ℤ :=
  (hs.matchActionsWith p r a.only msg).1.forAction a

/-- Whether rule `i`, looked at alone, answers an action. -/
def answersAction (p : Platform) (hs : HighlighterSet) (r : Record) (message : Text) (a : HighlightAction)
    (i : ℕ) : Bool :=
  match hs.rules[i]? with
  | some rule => rule.enabled && a.carried rule.actions && hs.axesMatch p i r message
  | none => false

/-- The scan of the whole list for one action alone: its first rule, or -1. -/
def firstMatch (p : Platform) (hs : HighlighterSet) (r : Record) (message : Text) (a : HighlightAction) : ℤ :=
  match (List.range hs.rules.length).find? (hs.answersAction p r message a) with
  | some i => i
  | none => -1

section Pass
variable {p : Platform} {hs : HighlighterSet} {r : Record} {message : Text} {a : HighlightAction}

/-- Rule `i` is the first to answer an action. -/
def Wins (p : Platform) (hs : HighlighterSet) (r : Record) (message : Text) (a : HighlightAction) (i : ℕ) : Prop :=
  hs.answersAction p r message a i=true ∧ ∀j < i,hs.answersAction p r message a j=false

private theorem Wins.lt {i : ℕ} (h : Wins p hs r message a i) : i<hs.rules.length := by
  by_contra hge
  have hnone : hs.rules[i]?=none := List.getElem?_eq_none (not_lt.mp hge)
  simpa [answersAction,hnone] using h.1

theorem Wins.firstMatch {i : ℕ} (h : Wins p hs r message a i) : hs.firstMatch p r message a=i := by
  have hfind : (List.range hs.rules.length).find? (hs.answersAction p r message a)=some i := by
    rw [List.find?_range_eq_some]
    exact ⟨h.1,List.mem_range.mpr h.lt,fun j hj => by simp [h.2 j hj]⟩
  rw [HighlighterSet.firstMatch,hfind]

private theorem firstMatch_none (h : ∀j<hs.rules.length,hs.answersAction p r message a j=false) :
    hs.firstMatch p r message a=-1 := by
  have hfind : (List.range hs.rules.length).find? (hs.answersAction p r message a)=none := by
    rw [List.find?_eq_none]
    intro j hj
    simp [h j (List.mem_range.mp hj)]
  rw [HighlighterSet.firstMatch,hfind]

/-- A rule the message is decoded for: nothing but its text axis is left to say whether it decides an
action that no rule before it answers. -/
def CouldDecide (p : Platform) (hs : HighlighterSet) (r : Record) (wanted : HighlightActions) (message : Text)
    (i : ℕ) : Prop :=
  ∃rule a,hs.rules[i]?=some rule ∧ rule.enabled=true ∧ a.carried wanted=true ∧ a.carried rule.actions=true ∧
    (hs.axes i).acceptsIntegerAxes r=true ∧ (hs.axes i).text.active=true ∧
    ∀j < i,hs.answersAction p r message a j=false

/-- The pass up to rule `i`: what is still wanted was answered by no rule so far, what is answered was
answered by its first rule, and the message was decoded for one rule at most. -/
structure Passed (p : Platform) (hs : HighlighterSet) (r : Record) (wanted : HighlightActions)
    (msg : ℕ→Text) (i : ℕ) (remaining : HighlightActions) (out : ActionMatch) (memo : MessageMemo) : Prop where
  open_ : ∀a : HighlightAction,a.carried remaining=true→a.carried wanted=true ∧ out.forAction a=-1 ∧
    ∀j < i,hs.answersAction p r (msg 0) a j=false
  unwanted : ∀a : HighlightAction,a.carried wanted=false → out.forAction a=-1
  answered : ∀a : HighlightAction,a.carried wanted=true→a.carried remaining=false→
    ∃k,Wins p hs r (msg 0) a k ∧ out.forAction a=k
  memo : memo.message=none ∧ memo.decodedFor=[] ∨
    memo.message=some (msg 0) ∧ ∃k,memo.decodedFor=[k] ∧ CouldDecide p hs r wanted (msg 0) k

variable {wanted remaining : HighlightActions} {msg : ℕ→Text} {i : ℕ} {out : ActionMatch} {memo : MessageMemo}

theorem Passed.start (p : Platform) (hs : HighlighterSet) (r : Record) (wanted : HighlightActions) (msg : ℕ→Text) :
    Passed p hs r wanted msg 0 wanted ⟨-1,-1,-1,-1⟩ .empty where
  open_ a ha := ⟨ha,by cases a <;> rfl,fun j hj => absurd hj (Nat.not_lt_zero j)⟩
  unwanted a _ := by cases a <;> rfl
  answered a ha hno := by simp [ha] at hno
  memo := Or.inl ⟨rfl,rfl⟩

/-- A rule that answers nothing that is open is passed over. -/
theorem Passed.skip (h : Passed p hs r wanted msg i remaining out memo)
    (hno : ∀a : HighlightAction,a.carried remaining=true→hs.answersAction p r (msg 0) a i=false) :
    Passed p hs r wanted msg (i+1) remaining out memo where
  open_ a ha := by
    obtain ⟨hwanted,hout,hbefore⟩ := h.open_ a ha
    refine ⟨hwanted,hout,fun j hj => ?_⟩
    obtain hj | rfl := Nat.lt_succ_iff_lt_or_eq.mp hj
    · exact hbefore j hj
    · exact hno a ha
  unwanted := h.unwanted
  answered := h.answered
  memo := h.memo

/-- The memo after a rule's axes were tested, and what they said. -/
theorem Passed.test (h : Passed p hs r wanted msg i remaining out memo) {rule : HighlightRule}
    (hrule : hs.rules[i]?=some rule)
    (henabled : rule.enabled=true) (hoffer : (rule.actions.inter remaining).any=true) :
    (hs.testAxes p i r msg memo).1=hs.axesMatch p i r (msg 0) ∧
      Passed p hs r wanted msg i remaining out (hs.testAxes p i r msg memo).2 := by
  obtain ⟨a,ha⟩ := (HighlightAction.any_iff _).mp hoffer
  rw [HighlightAction.carried_inter,Bool.and_eq_true] at ha
  obtain ⟨hwanted,-,hbefore⟩ := h.open_ a ha.2
  unfold testAxes axesMatch FilterSet.accepts
  dsimp only
  cases hany : (hs.axes i).anyActive with
  | false => exact ⟨rfl,h⟩
  | true =>
    cases hint : (hs.axes i).acceptsIntegerAxes r with
    | false => exact ⟨rfl,h⟩
    | true =>
      cases htext : (hs.axes i).text.active with
      | false => exact ⟨rfl,h⟩
      | true =>
        have hcould : CouldDecide p hs r wanted (msg 0) i := ⟨rule,a,hrule,henabled,hwanted,ha.1,hint,htext,hbefore⟩
        obtain ⟨hnone,hnil⟩ | ⟨hsome,hone⟩ := h.memo
        · have hread : memo.read msg i=(msg 0,⟨some (msg 0),[i]⟩) := by
            simp [MessageMemo.read,hnone,hnil]
          simp only [hread,Bool.not_true,Bool.or_self,Bool.false_eq_true,if_false,if_true,
            Bool.true_and,Bool.false_or]
          exact ⟨trivial,h.open_,h.unwanted,h.answered,Or.inr ⟨rfl,i,rfl,hcould⟩⟩
        · have hread : memo.read msg i=(msg 0,memo) := by
            simp [MessageMemo.read,hsome]
          simp only [hread,Bool.not_true,Bool.or_self,Bool.false_eq_true,if_false,if_true,
            Bool.true_and,Bool.false_or]
          exact ⟨trivial,h⟩

theorem forAction_answer (offers : HighlightActions) (i : ℕ) (out : ActionMatch) (a : HighlightAction) :
    (ActionMatch.mk (answer offers.color i out.color) (answer offers.digest i out.digest)
      (answer offers.tab i out.tab)
      (answer offers.notify i out.notify)).forAction a=if a.carried offers then (i : ℤ) else out.forAction a := by
  cases a <;> rfl

/-- A rule that matches answers what it offers. -/
theorem Passed.take (h : Passed p hs r wanted msg i remaining out memo) {rule : HighlightRule}
    (hrule : hs.rules[i]?=some rule) (henabled : rule.enabled=true) (hmatch : hs.axesMatch p i r (msg 0)=true) :
    Passed p hs r wanted msg (i+1) (remaining.diff (rule.actions.inter remaining))
      ⟨answer (rule.actions.inter remaining).color i out.color,answer
        (rule.actions.inter remaining).digest i out.digest,
        answer (rule.actions.inter remaining).tab i out.tab,answer
        (rule.actions.inter remaining).notify i out.notify⟩ memo := by
  have hanswers : ∀a : HighlightAction,hs.answersAction p r (msg 0) a i=a.carried rule.actions := by
    intro a
    simp [answersAction,hrule,henabled,hmatch]
  constructor
  · intro a ha
    rw [HighlightAction.carried_diff,HighlightAction.carried_inter,Bool.and_eq_true] at ha
    obtain ⟨hwanted,hout,hbefore⟩ := h.open_ a ha.1
    have hnot : a.carried rule.actions=false := by simpa [ha.1] using ha.2
    refine ⟨hwanted,?_,fun j hj => ?_⟩
    · rw [forAction_answer,HighlightAction.carried_inter,hnot]
      exact hout
    · obtain hj | rfl := Nat.lt_succ_iff_lt_or_eq.mp hj
      · exact hbefore j hj
      · rw [hanswers,hnot]
  · intro a ha
    have hclosed : a.carried remaining=false := by
      by_contra hc
      rw [(h.open_ a (by simpa using hc)).1] at ha
      cases ha
    rw [forAction_answer,HighlightAction.carried_inter,hclosed,Bool.and_false]
    exact h.unwanted a ha
  · intro a ha hno
    rw [forAction_answer,HighlightAction.carried_inter]
    rw [HighlightAction.carried_diff,HighlightAction.carried_inter] at hno
    cases hc : a.carried remaining with
    | false =>
      rw [Bool.and_false]
      exact h.answered a ha hc
    | true =>
      have hcarried : a.carried rule.actions=true := by simpa [hc] using hno
      rw [hcarried]
      refine ⟨i,⟨?_,(h.open_ a hc).2.2⟩,rfl⟩
      rw [hanswers,hcarried]
  · exact h.memo

/-- The pass to its end: what is left open then no rule answers. -/
theorem Passed.run {rules : List HighlightRule} (hrules : hs.rules.drop i=rules)
    (h : Passed p hs r wanted msg i remaining out memo) :
    ∃left,Passed p hs r wanted msg hs.rules.length left (passFrom p hs r msg i rules remaining out memo).1
      (passFrom p hs r msg i rules remaining out memo).2 := by
  induction rules generalizing i remaining out memo with
  | nil =>
    refine ⟨remaining,?_⟩
    have hlen : hs.rules.length ≤ i := List.drop_eq_nil_iff.mp hrules
    exact ⟨fun a ha => ⟨(h.open_ a ha).1,(h.open_ a ha).2.1,fun j hj => (h.open_ a ha).2.2 j (hj.trans_le hlen)⟩,
      h.unwanted,h.answered,h.memo⟩
  | cons rule rules ih =>
    have hrule : hs.rules[i]?=some rule := by
      rw [← List.head?_drop,hrules]
      rfl
    have hrest : hs.rules.drop (i+1)=rules := by
      rw [← List.tail_drop,hrules]
      rfl
    rw [passFrom]
    by_cases hopen : remaining.any=true
    · simp only [hopen,Bool.not_true,Bool.false_eq_true,if_false]
      cases henabled : rule.enabled with
      | false => exact ih hrest (h.skip fun a _ => by simp [answersAction,hrule,henabled])
      | true =>
        cases hoffer : (rule.actions.inter remaining).any with
        | false =>
          refine ih hrest (h.skip fun a ha => ?_)
          have hnot : a.carried (rule.actions.inter remaining)≠true := by
            intro hc
            rw [(HighlightAction.any_iff _).mpr ⟨a,hc⟩] at hoffer
            cases hoffer
          rw [HighlightAction.carried_inter,ha,Bool.and_true] at hnot
          simp [answersAction,hrule,hnot]
        | true =>
          obtain ⟨htest,hpassed⟩ := h.test hrule henabled hoffer
          cases hmatch : hs.axesMatch p i r (msg 0) with
          | true =>
            simp only [htest,hmatch,Bool.not_true,Bool.false_eq_true,if_false,if_true]
            exact ih hrest (hpassed.take hrule henabled hmatch)
          | false =>
            simp only [htest,hmatch,Bool.not_true,Bool.false_eq_true,if_false]
            exact ih hrest (hpassed.skip fun a _ => by simp [answersAction,hrule,hmatch])
    · -- Everything wanted is answered: the early exit.
      have hclosed : ∀a : HighlightAction,a.carried remaining=false := by
        intro a
        by_contra hc
        exact hopen ((HighlightAction.any_iff _).mpr ⟨a,by simpa using hc⟩)
      simp only [hopen,Bool.not_false,if_true]
      refine ⟨remaining,fun a ha => ?_,h.unwanted,h.answered,h.memo⟩
      rw [hclosed a] at ha
      cases ha

/-- The memo holds the message, or nothing was decoded yet. -/
def AtHand (msg : ℕ→Text) (memo : MessageMemo) : Prop :=
  memo.message=none ∧ memo.decodedFor=[] ∨ memo.message=some (msg 0)

private theorem testAxes_atHand (h : AtHand msg memo) : (hs.testAxes p i r msg memo).1=hs.axesMatch p i r (msg 0) ∧
    AtHand msg (hs.testAxes p i r msg memo).2 := by
  have hread : (memo.read msg i).1=msg 0 ∧ AtHand msg (memo.read msg i).2 := by
    obtain ⟨hnone,hnil⟩ | hsome := h
    · rw [MessageMemo.read,hnone,hnil]
      exact ⟨rfl,Or.inr rfl⟩
    · rw [MessageMemo.read,hsome]
      exact ⟨rfl,Or.inr hsome⟩
  unfold testAxes axesMatch FilterSet.accepts
  dsimp only
  cases (hs.axes i).anyActive <;> cases (hs.axes i).acceptsIntegerAxes r <;> cases (hs.axes i).text.active
  case true.true.true => simpa [hread.1] using hread.2
  all_goals exact ⟨rfl,h⟩

/-- The memo changes no answer: the pass is the one over a message at hand. -/
theorem passFrom_matchFrom (rules : List HighlightRule) (h : AtHand msg memo) :
    (passFrom p hs r msg i rules remaining out memo).1=matchFrom p hs r (msg 0) i rules remaining out := by
  induction rules generalizing i remaining out memo with
  | nil => rfl
  | cons rule rules ih =>
    rw [passFrom,matchFrom]
    split
    · rfl
    · obtain ⟨htest,hmemo⟩ := @testAxes_atHand p hs r msg i memo h
      dsimp only
      cases rule.enabled with
      | false => exact ih h
      | true =>
        cases (rule.actions.inter remaining).any with
        | false => exact ih h
        | true =>
          rw [htest]
          cases hs.axesMatch p i r (msg 0) with
          | false => exact ih hmemo
          | true => exact ih hmemo

theorem matchActionsWith_fst (p : Platform) (hs : HighlighterSet) (r : Record) (wanted : HighlightActions)
    (msg : ℕ→Text) :
    (hs.matchActionsWith p r wanted msg).1=hs.matchActions p r wanted (msg 0) := by
  have hrun := @passFrom_matchFrom p hs r wanted msg 0 ⟨-1,-1,-1,-1⟩ .empty hs.rules (Or.inl ⟨rfl,rfl⟩)
  rw [matchActions,← hrun,matchActionsWith]
  split
  · rename_i hno
    cases hs.rules with
    | nil => rfl
    | cons rule rules => rw [passFrom,if_pos hno]
  · rfl

end Pass

/-- The one pass answers each action as a scan for it alone would, whatever the order of the rules, and
decodes the message once at most, for a rule that could still decide an action. -/
theorem matchActions_firstMatch (p : Platform) (hs : HighlighterSet) (r : Record) (msg : ℕ→Text) :
    (∀wanted a,(hs.matchActionsWith p r wanted msg).1.forAction a=
      if a.carried wanted then hs.firstMatch p r (msg 0) a else -1) ∧
    (∀a,hs.matchAction p r a msg=hs.firstMatch p r (msg 0) a) ∧
    ∀wanted,(hs.matchActionsWith p r wanted msg).2.decodedFor.length≤1 ∧
      ∀i∈(hs.matchActionsWith p r wanted msg).2.decodedFor,CouldDecide p hs r wanted (msg 0) i := by
  have hpass : ∀wanted,∃left,Passed p hs r wanted msg hs.rules.length left (hs.matchActionsWith p r wanted msg).1
      (hs.matchActionsWith p r wanted msg).2 := by
    intro wanted
    have hrun := Passed.run (i:=0) rfl (Passed.start p hs r wanted msg)
    unfold matchActionsWith
    split
    · rename_i hno
      refine ⟨wanted,fun a ha => ?_,fun a _ => by cases a <;> rfl,fun a ha hc => ?_,Or.inl ⟨rfl,rfl⟩⟩
      · rw [(HighlightAction.any_iff _).mpr ⟨a,ha⟩] at hno
        cases hno
      · rw [ha] at hc
        cases hc
    · exact hrun
  have hanswer : ∀wanted a,(hs.matchActionsWith p r wanted msg).1.forAction a=
      if a.carried wanted then hs.firstMatch p r (msg 0) a else -1 := by
    intro wanted a
    obtain ⟨left,h⟩ := hpass wanted
    cases hwanted : a.carried wanted with
    | false => exact h.unwanted a hwanted
    | true =>
      cases hleft : a.carried left with
      | true =>
        obtain ⟨-,hout,hnone⟩ := h.open_ a hleft
        rw [hout,if_pos rfl,firstMatch_none hnone]
      | false =>
        obtain ⟨k,hwins,hout⟩ := h.answered a hwanted hleft
        rw [hout,if_pos rfl,hwins.firstMatch]
  refine ⟨hanswer,fun a => ?_,fun wanted => ?_⟩
  · rw [matchAction,hanswer,if_pos a.carried_only]
  · obtain ⟨left,h⟩ := hpass wanted
    obtain ⟨-,hnil⟩ | ⟨-,k,hone,hcould⟩ := h.memo
    · rw [hnil]
      simp
    · rw [hone]
      refine ⟨le_rfl,fun i hi => ?_⟩
      obtain rfl := List.mem_singleton.mp hi
      exact hcould

end HighlighterSet

end Loftail
