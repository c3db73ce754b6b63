import Loftail.LiveFilter

/-! # Rules, resolved again as names are interned

A name keeps its id as the tables grow, so a rule says the same of a record whose ids were
given out before. -/
namespace Loftail

namespace InternTable

private theorem idOf_eq_some {t : InternTable} {s : Text} {id : ℕ} (hid : id<t.names.length) :
    t.idOf s=some id ↔ s=t.name id := by
  have hname : t.name id=t.names[id] := by simp [name,List.getD_eq_getElem?_getD,hid]
  rw [idOf,hname]
  constructor
  · intro h
    split at h
    · rename_i hs
      have hidx : t.names.idxOf s=id := Option.some.inj h
      simp [← hidx]
    · cases h
  · rintro rfl
    rw [if_pos (List.getElem_mem hid),List.Nodup.idxOf_getElem t.nodup]

end InternTable

namespace MatchCriteria

theorem mem_resolveIds {t : InternTable} {names : List Text} {id : ℕ} (hid : id<t.names.length) :
    id∈resolveIds t names ↔ t.name id∈names := by
  simp only [resolveIds,List.mem_filterMap,InternTable.idOf_eq_some hid]
  exact ⟨fun ⟨s,hs,he⟩ => he ▸ hs,fun h => ⟨_,h,rfl⟩⟩

theorem resolveIds_contains {t u : InternTable} (h : t.Extends u) {names : List Text} {id : ℕ}
    (hid : id<t.names.length) :
    (resolveIds u names).contains id=(resolveIds t names).contains id := by
  have hid' : id<u.names.length := Nat.lt_of_lt_of_le hid h.length_le
  rw [Bool.eq_iff_iff,List.contains_iff_mem,List.contains_iff_mem,mem_resolveIds hid,mem_resolveIds hid',h.name hid]

variable {l l' t t' : InternTable}

/-- Grown tables resolve to axes that say the same of a record interned before. -/
theorem resolve_accepts (c : MatchCriteria) (hl : l.Extends l') (ht : t.Extends t') {r : Record}
    (hr : r.Interned l t)
    (p : Platform) (f : LogFormat) (z : Zone) (absent : AbsentField) (noOps : NoOpAxes) (message : Text) :
    (c.resolve l' t' f z absent noOps).accepts p r message=(c.resolve l t f z absent noOps).accepts p
    r message := by
  have hlogger : (c.resolve l' t' f z absent noOps).acceptsLogger r=
    (c.resolve l t f z absent noOps).acceptsLogger r := by
    simp only [FilterSet.acceptsLogger,FilterSet.axis,resolve,resolveIds_contains hl hr.1]
  have hthread : (c.resolve l' t' f z absent noOps).acceptsThread r=
    (c.resolve l t f z absent noOps).acceptsThread r := by
    simp only [FilterSet.acceptsThread,FilterSet.axis,resolve,resolveIds_contains ht hr.2]
  simp only [FilterSet.accepts,FilterSet.acceptsIntegerAxes,hlogger,hthread]
  rfl

/-- Resolving turns no axis on. -/
theorem resolve_anyActive {c : MatchCriteria} {f : LogFormat} {z : Zone} {absent : AbsentField} {noOps : NoOpAxes}
    (h : (c.resolve l t f z absent noOps).anyActive=true) : c.anyActive=true := by
  simp only [FilterSet.anyActive,resolve,Bool.or_eq_true,Bool.and_eq_true] at h
  simp only [anyActive,Bool.or_eq_true]
  rcases h with (((h | h) | h) | h) | h
  · exact Or.inl (Or.inl (Or.inl (Or.inl h.1)))
  · exact Or.inl (Or.inl (Or.inl (Or.inr h.1)))
  · exact Or.inl (Or.inl (Or.inr h.1.1))
  · exact Or.inl (Or.inr h.1)
  · exact Or.inr h

end MatchCriteria

namespace Document

/-- The rules' ids are those of the tables as they are. -/
def RulesResolved (d : Document) : Prop := d.resolveHighlighters.highlighters=d.highlighters

/-- A rule's axes once its ids are those of the tables. -/
theorem RulesResolved.axes {d : Document} (h : RulesResolved d) (i : ℕ) : d.highlighters.axes i=
    match d.highlighters.rules[i]? with
    | some rule => rule.criteria.resolve d.index.loggers d.index.threads d.format d.displayZone .doesNotMatch .keep
    | none => .inert := by
  have hres : d.highlighters.resolved=d.resolveHighlighters.highlighters.resolved := by rw [h]
  rw [HighlighterSet.axes,hres]
  simp only [resolveHighlighters,HighlighterSet.resolve,List.getD_eq_getElem?_getD,List.getElem?_map]
  cases d.highlighters.rules[i]? <;> rfl

/-- A rule that matches is enabled and asks for something. -/
theorem RulesResolved.ruleMatchesRow {d : Document} (h : RulesResolved d) {i row : ℕ}
    (hm : d.ruleMatchesRow i row=true) :
    ∃rule,d.highlighters.rules[i]?=some rule ∧ rule.enabled=true ∧ rule.criteria.anyActive=true := by
  unfold Document.ruleMatchesRow HighlighterSet.ruleMatches at hm
  cases hr : d.highlighters.rules[i]? with
  | none => simp [hr] at hm
  | some rule =>
    simp only [hr,HighlighterSet.axesMatch,h.axes,Bool.and_eq_true] at hm
    exact ⟨rule,rfl,hm.1,MatchCriteria.resolve_anyActive hm.2.1⟩

end Document

namespace LiveController

variable {c : LiveController}

/-- Every record's ids are those of the tables. -/
def AllInterned (c : LiveController) : Prop :=
  ∀r∈c.document.index.records,r.Interned c.document.index.loggers c.document.index.threads

/-- The tables only grow. -/
theorem tick_tables (c : LiveController) (more : Bytes) :
    c.document.index.loggers.Extends (c.tick more).document.index.loggers ∧
      c.document.index.threads.Extends (c.tick more).document.index.threads := by
  obtain ⟨tail,l,t,hscan,⟨-,he⟩ | ⟨-,he⟩⟩ := c.tick_cases more
  · rw [he]
    exact ⟨hscan.loggers,hscan.threads⟩
  · rw [he,runMatchActions_index,ingested_index,Document.ingestIndex_loggers,Document.ingestIndex_threads]
    exact ⟨hscan.loggers,hscan.threads⟩

theorem tick_interned (h : c.AllInterned) (more : Bytes) : (c.tick more).AllInterned := by
  obtain ⟨tail,l,t,hscan,⟨-,he⟩ | ⟨-,he⟩⟩ := c.tick_cases more
  · intro r hr
    rw [he] at hr ⊢
    exact (h r hr).extend hscan.loggers hscan.threads
  · intro r hr
    rw [he,runMatchActions_index,ingested_index] at hr ⊢
    rw [Document.ingestIndex_records] at hr
    rw [Document.ingestIndex_loggers,Document.ingestIndex_threads]
    rcases List.mem_append.mp hr with hr | hr
    · exact (h r (List.dropLast_subset _ hr)).extend hscan.loggers hscan.threads
    · exact hscan.interned r hr

theorem act_interned (h : c.AllInterned) (a : Action) : (c.act a).AllInterned := by
  by_cases ha : ∃m,a=.append m
  · obtain ⟨m,rfl⟩ := ha
    exact tick_interned h m
  · have hk := c.keepsRuns_act (a:=a) (fun m hm => ha ⟨m,hm⟩)
    rw [AllInterned,hk.index]
    exact h

theorem session_interned (h : c.AllInterned) (actions : List Action) : (c.session actions).AllInterned := by
  induction actions generalizing c with
  | nil => exact h
  | cons a as ih => exact ih (act_interned h a)

theorem reopened_interned (c : LiveController) (content : Bytes) : (c.reopened content).AllInterned :=
  (c.document.rescan_spec content).2.2.1.interned

@[simp] theorem tick_rules (c : LiveController) (more : Bytes) :
    (c.tick more).document.highlighters.rules=c.document.highlighters.rules := by
  obtain ⟨tail,l,t,-,⟨-,he⟩ | ⟨-,he⟩⟩ := c.tick_cases more
  · rw [he]
    rfl
  · rw [he,runMatchActions_document]
    simp only [ingested]
    rw [Document.ingestView_eq,Document.ingestRuns_eq]
    rfl

/-- A batch with records in it resolves the rules. -/
theorem tick_resolved (hp : Placed c.document.source c.document.index.records) {more : Bytes}
    (h : (c.tick more).document.index.records≠[]) : (c.tick more).document.RulesResolved := by
  obtain ⟨tail,l,t,hscan,⟨rfl,he⟩ | ⟨-,he⟩⟩ := c.tick_cases more
  · refine absurd ?_ h
    rw [he]
    exact hscan.records_of_tail_nil hp (List.prefix_append _ _)
  · rw [he,runMatchActions_document]
    rfl

/-- A rule says of a row before the provisional one what it said. -/
theorem tick_ruleMatchesRow (hp : Placed c.document.source c.document.index.records) (hi : c.AllInterned)
    (hr : c.document.RulesResolved) (more : Bytes) {row : ℕ} (hrow : row<c.document.index.records.length)
    (hrec : (c.tick more).document.recordAt row=c.document.recordAt row) (i : ℕ) :
    (c.tick more).document.ruleMatchesRow i row=c.document.ruleMatchesRow i row := by
  have hne : (c.tick more).document.index.records≠[] := by
    have := c.tick_length more hp
    exact List.ne_nil_of_length_pos (by omega)
  have hset := c.tick_toSetup more
  have htables := c.tick_tables more
  have hmsg : (c.tick more).document.messageText (c.document.recordAt row)=
      c.document.messageText (c.document.recordAt row) :=
    Document.messageText_congr hset (tick_recordBytes hp hrow more)
  unfold Document.ruleMatchesRow HighlighterSet.ruleMatches HighlighterSet.axesMatch
  rw [hrec,hmsg,(tick_resolved hp hne).axes,hr.axes,tick_rules,hset]
  cases c.document.highlighters.rules[i]? with
  | none => rfl
  | some rule =>
    simp only
    rw [MatchCriteria.resolve_accepts rule.criteria htables.1 htables.2 (hi _ (recordAt_mem hrow))]
    rfl

end LiveController

end Loftail
