import Loftail.ResolvedRules

/-! # What a batch alerts of

Alerts look at the records a batch begins, once, as the batch leaves them. All but the last
of them are complete then, and what is said of a complete record stays said. -/
namespace Loftail

/-- The actions that alert. -/
inductive AlertAction | tab | notify
  deriving DecidableEq,Repr

namespace AlertAction

def carried : AlertAction→HighlightActions→Bool
  | tab,as => as.tab
  | notify,as => as.notify

def winner : AlertAction→ActionMatch→ℤ
  | tab,m => m.tab
  | notify,m => m.notify

def count : AlertAction→BatchAlerts→ℕ
  | tab,b => b.tabMatches
  | notify,b => b.notifyMatches

variable (a : AlertAction)

theorem carried_inter (x y : HighlightActions) : a.carried (x.inter y)=(a.carried x && a.carried y) := by
  cases a <;> rfl

theorem carried_diff (x y : HighlightActions) : a.carried (x.diff y)=(a.carried x && !a.carried y) := by
  cases a <;> rfl

theorem any_of_carried {x : HighlightActions} (h : a.carried x=true) : x.any=true := by
  cases a <;> simp [carried] at h <;> simp [HighlightActions.any,h]

end AlertAction

namespace HighlighterSet

variable {p : Platform} {hs : HighlighterSet} {r : Record} {message : Text}

theorem winner_answers (a : AlertAction) (offers : HighlightActions) (i : ℕ) (out : ActionMatch) :
    a.winner ⟨answer offers.color i out.color,answer offers.digest i out.digest,answer offers.tab i out.tab,
      answer offers.notify i out.notify⟩=if a.carried offers then (i : ℤ) else a.winner out := by
  cases a <;> rfl

/-- Rule `j` of a list whose first rule is rule `i` answers an action. -/
def Answers (p : Platform) (hs : HighlighterSet) (r : Record) (message : Text) (a : AlertAction)
    (rules : List HighlightRule) (i : ℕ) : Prop :=
  ∃j rule,rules[j]?=some rule ∧ rule.enabled=true ∧ a.carried rule.actions=true ∧
    hs.axesMatch p (i+j) r message=true

private theorem answers_cons (a : AlertAction) (rule : HighlightRule) (rules : List HighlightRule) (i : ℕ) :
    Answers p hs r message a (rule::rules) i ↔
      (rule.enabled=true ∧ a.carried rule.actions=true ∧ hs.axesMatch p i r message=true) ∨
        Answers p hs r message a rules (i+1) := by
  constructor
  · rintro ⟨j,found,hj,h⟩
    cases j with
    | zero =>
      obtain rfl : rule=found := by simpa using hj
      exact Or.inl h
    | succ j => exact Or.inr ⟨j,found,by simpa using hj,by rwa [Nat.add_right_comm,Nat.add_assoc]⟩
  · rintro (h | ⟨j,found,hj,h⟩)
    · exact ⟨0,rule,rfl,h⟩
    · exact ⟨j+1,found,by simpa using hj,by rwa [← Nat.add_assoc,Nat.add_right_comm]⟩

/-- An action has a winner if it had one, or is wanted and answered by a rule. -/
theorem matchFrom_winner (a : AlertAction) (rules : List HighlightRule) (i : ℕ) (remaining : HighlightActions)
    (out : ActionMatch) : 0≤a.winner (matchFrom p hs r message i rules remaining out) ↔ 0≤a.winner out ∨
      a.carried remaining=true ∧ Answers p hs r message a rules i := by
  induction rules generalizing i remaining out with
  | nil => simp [matchFrom,Answers]
  | cons rule rules ih =>
    rw [matchFrom,answers_cons]
    cases hwanted : a.carried remaining with
    | false =>
      split
      · simp
      · dsimp only
        split
        · simp [ih,winner_answers,AlertAction.carried_inter,AlertAction.carried_diff,hwanted]
        · simp [ih,hwanted]
    | true =>
      rw [if_neg (by simp [a.any_of_carried hwanted])]
      dsimp only
      cases hoffered : a.carried rule.actions with
      | false =>
        split <;> simp [ih,winner_answers,AlertAction.carried_inter,AlertAction.carried_diff,hwanted,hoffered]
      | true =>
        -- The rule offers the action, so only whether it matches is left.
        have hany : (rule.actions.inter remaining).any=true :=
          a.any_of_carried (by rw [AlertAction.carried_inter,hoffered,hwanted,Bool.and_self])
        rw [hany,Bool.and_true]
        split
        · rename_i hmatch
          rw [Bool.and_eq_true] at hmatch
          simp [ih,winner_answers,AlertAction.carried_inter,hwanted,hoffered,hmatch.1,hmatch.2]
        · rename_i hmatch
          rw [Bool.and_eq_true] at hmatch
          simp only [ih,hwanted,true_and]
          constructor
          · rintro (h | h)
            · exact Or.inl h
            · exact Or.inr (Or.inr h)
          · rintro (h | ⟨h₁,h₂⟩ | h)
            · exact Or.inl h
            · exact absurd ⟨h₁,h₂⟩ hmatch
            · exact Or.inr h

end HighlighterSet

namespace Document

variable {d : Document}

/-- Whether rule `i` carries an action. -/
def alertRule (d : Document) (a : AlertAction) (i : ℕ) : Bool :=
  match d.highlighters.rules[i]? with
  | some rule => a.carried rule.actions
  | none => false

/-- A row to alert of: in the run bound, and matched by a rule that carries the action. -/
def alertsOf (d : Document) (a : AlertAction) (row : ℕ) : Bool :=
  d.inRunBound (d.recordAt row) &&
    (List.range d.highlighters.rules.length).any (fun i => d.alertRule a i && d.ruleMatchesRow i row)

private theorem winner_iff (d : Document) (a : AlertAction) (row : ℕ) :
    decide (0≤a.winner (d.highlighters.matchActions d.platform (d.recordAt row) .tabNotify
      (d.messageText (d.recordAt row))))=
      (List.range d.highlighters.rules.length).any (fun i => d.alertRule a i && d.ruleMatchesRow i row) := by
  have hnone : ¬0≤a.winner ⟨-1,-1,-1,-1⟩ := by cases a <;> simp [AlertAction.winner]
  have hwanted : a.carried .tabNotify=true := by cases a <;> rfl
  rw [HighlighterSet.matchActions,Bool.eq_iff_iff,decide_eq_true_eq,HighlighterSet.matchFrom_winner,
    List.any_eq_true]
  simp only [hnone,hwanted,true_and,false_or,HighlighterSet.Answers,Nat.zero_add,List.mem_range,Bool.and_eq_true]
  constructor
  · rintro ⟨j,rule,hj,he,hc,hm⟩
    exact ⟨j,(List.getElem?_eq_some_iff.mp hj).1,by simp [alertRule,hj,hc],
      by simp [ruleMatchesRow,HighlighterSet.ruleMatches,hj,he,hm]⟩
  · rintro ⟨j,hj,hc,hm⟩
    have hr := List.getElem?_eq_getElem hj
    simp only [alertRule,ruleMatchesRow,HighlighterSet.ruleMatches,hr,Bool.and_eq_true] at hc hm
    exact ⟨j,_,hr,hm.1,hc,hm.2⟩

/-- With no enabled rule that carries the action there is nothing to alert of. -/
theorem alertsOf_anyEnabled (h : RulesResolved d) {a : AlertAction} {row : ℕ} (ha : d.alertsOf a row=true) :
    d.highlighters.anyEnabled .live=true ∧ d.highlighters.anyEnabled .tabNotify=true := by
  obtain ⟨i,-,hi⟩ := List.any_eq_true.mp ((Bool.and_eq_true _ _).mp ha).2
  obtain ⟨hcarried,hmatch⟩ := (Bool.and_eq_true _ _).mp hi
  obtain ⟨rule,hrule,henabled,hactive⟩ := h.ruleMatchesRow hmatch
  have hc : a.carried rule.actions=true := by simpa [alertRule,hrule] using hcarried
  have hany (actions : HighlightActions) (hw : a.carried actions=true) : d.highlighters.anyEnabled actions=true :=
    List.any_eq_true.mpr ⟨rule,List.mem_of_getElem? hrule,by
      rw [henabled,hactive,a.any_of_carried (by rw [AlertAction.carried_inter,hc,hw,Bool.and_self]),
        Bool.and_self,Bool.and_self]⟩
  exact ⟨hany _ (by cases a <;> rfl),hany _ (by cases a <;> rfl)⟩

end Document

namespace LiveController

variable {c : LiveController}

/-- What a batch reports with its `ingested`; a batch without records sends none. -/
def batchAlerts (c : LiveController) (more : Bytes) : BatchAlerts :=
  let d := c.document.appendBytes more
  match d.indexer.scanAppendedTail d.source d.startOffset d.index.loggers d.index.threads with
  | some (tail,_,_) => if tail.isEmpty then .none else (c.tick more).lastAlerts
  | none => .none

/-- The rows a batch counts towards an action. -/
def alertedRows (a : AlertAction) (c : LiveController) (more : Bytes) : List ℕ :=
  let d := (c.tick more).document
  (List.range' c.document.index.records.length (d.index.records.length-c.document.index.records.length)).filter
    fun row => d.inRunBound (d.recordAt row) && decide (0≤a.winner
      (d.highlighters.matchActions d.platform (d.recordAt row) .tabNotify (d.messageText (d.recordAt row))))

theorem alertedRows_eq (a : AlertAction) (c : LiveController) (more : Bytes) : alertedRows a c more=
    (List.range' c.document.index.records.length
      ((c.tick more).document.index.records.length-c.document.index.records.length)).filter
        ((c.tick more).document.alertsOf a) :=
  List.filter_congr fun row _ => by rw [Document.winner_iff]; rfl

/-- The figure a batch reports is the number of rows it counts: the gates shut out none. -/
theorem batchAlerts_count (hp : Placed c.document.source c.document.index.records) (a : AlertAction)
    (more : Bytes) :
    a.count (c.batchAlerts more)=(alertedRows a c more).length := by
  obtain ⟨tail,l,t,hscan,h⟩ := c.tick_cases more
  have hs := hscan.scan
  rcases h with ⟨rfl,he⟩ | ⟨hne,he⟩
  · have hrec : c.document.index.records=[] := hscan.records_of_tail_nil hp (List.prefix_append _ _)
    have hrec' : (c.tick more).document.index.records=[] := by
      rw [he]
      exact hrec
    have hz : a.count .none=0 := by cases a <;> rfl
    simp [batchAlerts,hs,alertedRows,hrec,hrec',hz]
  · have hres : (c.tick more).document.RulesResolved := by
      refine tick_resolved hp ?_
      rw [he,runMatchActions_index,ingested_index,Document.ingestIndex_records]
      simp [hne]
    have hdoc := congrArg LiveController.document he
    rw [runMatchActions_document] at hdoc
    have hreport : c.batchAlerts more=(c.tick more).lastAlerts := by
      cases tail with
      | nil => exact absurd rfl hne
      | cons r rs => simp [batchAlerts,hs]
    have hcount : countMatches (ingested (c.document.appendBytes more) tail l t)
      c.document.index.records.length a.winner=
        (alertedRows a c more).length := by
      rw [alertedRows,← List.countP_eq_length_filter,hdoc]
      rfl
    -- A shut gate has no row behind it.
    have hshut (h : (c.tick more).document.highlighters.anyEnabled .live=false ∨
        (c.tick more).document.highlighters.anyEnabled .tabNotify=false) : (alertedRows a c more).length=0 := by
      rw [List.length_eq_zero_iff,alertedRows_eq]
      refine List.filter_eq_nil_iff.mpr fun row _ hrow => ?_
      obtain ⟨h₁,h₂⟩ := Document.alertsOf_anyEnabled hres hrow
      rcases h with h | h
      · rw [h₁] at h
        cases h
      · rw [h₂] at h
        cases h
    have hnone : a.count .none=0 := by cases a <;> rfl
    rw [hdoc] at hshut
    rw [hreport,he]
    unfold runMatchActions
    dsimp only at hshut ⊢
    split
    · rename_i hlive
      rw [hnone,hshut (Or.inl (by simpa using hlive))]
    · split
      · rw [← hcount]
        cases a <;> rfl
      · rename_i htab
        rw [hnone,hshut (Or.inr (by simpa using htab))]

/-- Everything a session keeps that the axes and the rules lean on. -/
structure Kept (c : LiveController) : Prop where
  consistent : c.Consistent
  bounds : c.document.BoundsSettled
  interned : c.AllInterned

theorem Kept.tick (h : c.Kept) (more : Bytes) : (c.tick more).Kept :=
  ⟨h.consistent.tick more,tick_boundsSettled h.bounds more,tick_interned h.interned more⟩

theorem session_kept (c : LiveController) (content : Bytes) (actions : List Action) :
    ((c.reopened content).session actions).Kept :=
  ⟨(c.reopened_consistent content).session actions,session_boundsSettled (c.reopened_boundsSettled content) actions,
    session_interned (c.reopened_interned content) actions⟩

/-- What is said of a record that is complete is said of it after the next batch. -/
theorem tick_alertsOf (hk : c.Kept) (hr : c.document.RulesResolved) (a : AlertAction) (more : Bytes) {row : ℕ}
    (hrow : row+1<c.document.index.records.length) :
    (c.tick more).document.alertsOf a row=c.document.alertsOf a row := by
  have hp := hk.consistent.placed
  have hlt : row<c.document.index.records.length := by omega
  unfold Document.alertsOf Document.alertRule
  rw [tick_inRunBound hk.consistent hk.bounds more hlt,tick_rules]
  simp only [tick_ruleMatchesRow hp hk.interned hr more hlt (tick_recordAt hp hrow more)]

/-- And after any number of them. -/
theorem run_alertsOf (hk : c.Kept) (hr : c.document.RulesResolved) (a : AlertAction) (chunks : List Bytes) {row : ℕ}
    (hrow : row+1<c.document.index.records.length) :
    (c.run chunks).document.alertsOf a row=c.document.alertsOf a row := by
  induction chunks generalizing c with
  | nil => rfl
  | cons m ms ih =>
    have hlen := c.tick_length m hk.consistent.placed
    have hres : (c.tick m).document.RulesResolved :=
      tick_resolved hk.consistent.placed (List.ne_nil_of_length_pos (by omega))
    exact (ih (hk.tick m) hres (by omega)).trans (tick_alertsOf hk hr a m hrow)

/-- The alerts of all batches together. -/
def alertTotal (a : AlertAction) : LiveController→List Bytes→ℕ
  | _,[] => 0
  | c,m::ms => a.count (c.batchAlerts m)+alertTotal a (c.tick m) ms

/-- The rows all batches count, batch after batch. -/
def alertedIn (a : AlertAction) : LiveController→List Bytes→List ℕ
  | _,[] => []
  | c,m::ms => alertedRows a c m++alertedIn a (c.tick m) ms

/-- The trailing record of every batch that begins one is to be alerted of then if it is in
its final form. -/
def TrailingForeseen (a : AlertAction) (final : Document) : LiveController→List Bytes→Prop
  | _,[] => True
  | c,m::ms => (∀row,c.document.index.records.length≤row → row+1=(c.tick m).document.index.records.length →
      (c.tick m).document.alertsOf a row=final.alertsOf a row) ∧ TrailingForeseen a final (c.tick m) ms

private theorem alertTotal_eq (hc : c.Consistent) (a : AlertAction) (chunks : List Bytes) :
    alertTotal a c chunks=(alertedIn a c chunks).length := by
  induction chunks generalizing c with
  | nil => rfl
  | cons m ms ih =>
    rw [alertTotal,alertedIn,List.length_append,batchAlerts_count hc.placed,ih (hc.tick m)]

private theorem run_length (hc : c.Consistent) (chunks : List Bytes) :
    c.document.index.records.length≤(c.run chunks).document.index.records.length := by
  induction chunks generalizing c with
  | nil => exact le_rfl
  | cons m ms ih => exact (c.tick_length m hc.placed).trans (ih (hc.tick m))

private theorem mem_alertedIn (hc : c.Consistent) {a : AlertAction} {chunks : List Bytes} {row : ℕ}
    (h : row∈alertedIn a c chunks) : c.document.index.records.length≤row := by
  induction chunks generalizing c with
  | nil => simp [alertedIn] at h
  | cons m ms ih =>
    rcases List.mem_append.mp h with h | h
    · exact (List.mem_range'_1.mp (List.mem_filter.mp h).1).1
    · exact (c.tick_length m hc.placed).trans (ih (hc.tick m) h)

/-- Two choices from one list are one choice exactly if they agree on its members. -/
theorem filter_eq_iff {xs : List ℕ} {p q : ℕ→Bool} : xs.filter p=xs.filter q ↔ ∀x∈xs,p x=q x := by
  refine ⟨fun h x hx => ?_,List.filter_congr⟩
  have hmem : x∈xs.filter p ↔ x∈xs.filter q := by rw [h]
  rw [List.mem_filter,List.mem_filter,and_iff_right hx,and_iff_right hx] at hmem
  exact Bool.eq_iff_iff.mpr hmem

private theorem append_eq_iff {xs ys xs' ys' : List ℕ} {n : ℕ} (hx : ∀x∈xs,x<n) (hx' : ∀x∈xs',x<n) (hy : ∀y∈ys,n≤y)
    (hy' : ∀y∈ys',n≤y) : xs++ys=xs'++ys' ↔ xs=xs' ∧ ys=ys' := by
  refine ⟨fun h => ?_,fun ⟨h,h'⟩ => by rw [h,h']⟩
  have hlow (xs ys : List ℕ) (hx : ∀x∈xs,x<n) (hy : ∀y∈ys,n≤y) : (xs++ys).filter (·<n)=xs := by
    rw [List.filter_append,List.filter_eq_self.mpr fun x hm => by simpa using hx x hm,
      List.filter_eq_nil_iff.mpr fun y hm => by simpa using hy y hm,List.append_nil]
  have hfront : xs=xs' := by rw [← hlow xs ys hx hy,h,hlow xs' ys' hx' hy']
  exact ⟨hfront,by rwa [hfront,List.append_cancel_left_eq] at h⟩

/-- The rows counted are those to be alerted of at the end exactly if no trailing record misled. -/
theorem alertedIn_iff (hk : c.Kept) (a : AlertAction) (chunks : List Bytes) :
    alertedIn a c chunks=(List.range' c.document.index.records.length
        ((c.run chunks).document.index.records.length-c.document.index.records.length)).filter
          ((c.run chunks).document.alertsOf a) ↔
      TrailingForeseen a (c.run chunks).document c chunks := by
  induction chunks generalizing c with
  | nil => simp [alertedIn,TrailingForeseen,run]
  | cons m ms ih =>
    have hc := hk.consistent
    have hlen := c.tick_length m hc.placed
    have hlen' : (c.tick m).document.index.records.length≤(c.run (m::ms)).document.index.records.length :=
      run_length (hc.tick m) ms
    have hrange := List.range'_append_1 (s:=c.document.index.records.length)
      (m:=(c.tick m).document.index.records.length-c.document.index.records.length)
      (n:=(c.run (m::ms)).document.index.records.length-(c.tick m).document.index.records.length)
    rw [Nat.add_sub_cancel' hlen,show (c.tick m).document.index.records.length-c.document.index.records.length+
      ((c.run (m::ms)).document.index.records.length-(c.tick m).document.index.records.length)=
        (c.run (m::ms)).document.index.records.length-c.document.index.records.length by omega] at hrange
    have hfirst (row : ℕ) (hrow : row∈List.range' c.document.index.records.length
        ((c.tick m).document.index.records.length-c.document.index.records.length)) :
        c.document.index.records.length≤row ∧ row<(c.tick m).document.index.records.length := by
      have := List.mem_range'_1.mp hrow
      omega
    have hrest (rows : List ℕ) (hrows : rows⊆List.range' (c.tick m).document.index.records.length
        ((c.run (m::ms)).document.index.records.length-(c.tick m).document.index.records.length)) :
        ∀row∈rows,(c.tick m).document.index.records.length≤row := fun row hrow =>
          (List.mem_range'_1.mp (hrows hrow)).1
    rw [alertedIn,TrailingForeseen,alertedRows_eq,← hrange,List.filter_append,append_eq_iff
      (n:=(c.tick m).document.index.records.length)
      (fun row hrow => (hfirst row (List.mem_filter.mp hrow).1).2)
        (fun row hrow => (hfirst row (List.mem_filter.mp hrow).1).2)
      (fun row hrow => mem_alertedIn (hc.tick m) hrow) (hrest _ (List.filter_subset_self _)),filter_eq_iff]
    refine and_congr ⟨fun h row hle hlast => h row (List.mem_range'_1.mpr ⟨hle,by omega⟩),fun h row hrow => ?_⟩
      (ih (hk.tick m))
    obtain ⟨hle,hlt⟩ := hfirst row hrow
    -- All but the last row of the batch are complete.
    rcases Nat.lt_or_eq_of_le (Nat.succ_le_of_lt hlt) with hcomplete | hlast
    · have hres : (c.tick m).document.RulesResolved :=
        tick_resolved hc.placed (List.ne_nil_of_length_pos (by omega))
      exact (run_alertsOf (hk.tick m) hres a ms hcomplete).symm
    · exact h row hle hlast

/-- Over all batches of a file that grows, each record begun by one of them is counted once
exactly if it is to be alerted of in its final form, and the figures add up to their number,
if and only if every batch that ends in a record it begins finds that record then, as far as
the action goes, what it is to be in the end. -/
theorem session_alerts (c : LiveController) (content : Bytes) (actions : List Action) (chunks : List Bytes)
    (a : AlertAction) :
    let opened := (c.reopened content).session actions
    let final := (opened.run chunks).document
    let due := (List.range' opened.document.index.records.length
      (final.index.records.length-opened.document.index.records.length)).filter (final.alertsOf a)
    (alertedIn a opened chunks=due ∧ alertTotal a opened chunks=due.length) ↔
      TrailingForeseen a final opened chunks := by
  intro opened final due
  have hk := session_kept c content actions
  rw [← alertedIn_iff hk]
  refine ⟨fun h => h.1,fun h => ⟨h,?_⟩⟩
  rw [alertTotal_eq hk.consistent,h]

/-- A rule that marks the tab for every record with `ab` in it. -/
def abMarksTab : HighlighterSet :=
  ⟨[⟨true,{MatchCriteria.none with text := ⟨true,false,.set .ascii (latin1 "ab") false .sensitive⟩},
    ⟨false,false,true,false⟩⟩],[]⟩

/-- Half a line, then the other half and a record of its own: nothing is ever counted. -/
theorem session_alerts_split_line :
    let opened := (⟨{Document.bracketed with highlighters := abMarksTab},.none⟩ : LiveController).reopened []
    let final := (opened.run [ascii "[a",ascii "b\n[c\n"]).document
    alertTotal .tab opened [ascii "[a",ascii "b\n[c\n"]≠
      ((List.range' opened.document.index.records.length
        (final.index.records.length-opened.document.index.records.length)).filter
          (final.alertsOf .tab)).length := by decide

end LiveController

end Loftail
