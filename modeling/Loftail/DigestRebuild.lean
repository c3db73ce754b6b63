import Loftail.ResolvedRules

/-! # The rebuilt digest: the newest match of every rule

One walk back over the records answers all rules at once and stops when none is left to
answer. Rule by rule it finds what a search for that rule alone finds. -/
namespace Loftail

/-- The newest row under a row that has a property, or -1. -/
def newestWhere (p : ℕ→Bool) : ℕ→ℤ
  | 0 => -1
  | row+1 => if p row then row else newestWhere p row

theorem newestWhere_congr {p q : ℕ→Bool} {n : ℕ} (h : ∀row<n,p row=q row) : newestWhere p n=newestWhere q n := by
  induction n with
  | zero => rfl
  | succ n ih => rw [newestWhere,newestWhere,h n (Nat.lt_succ_self n),ih fun row hrow =>
    h row (hrow.trans (Nat.lt_succ_self n))]

theorem newestWhere_none {p : ℕ→Bool} {n : ℕ} (h : ∀row<n,p row=false) : newestWhere p n= -1 := by
  induction n with
  | zero => rfl
  | succ n ih =>
    rw [newestWhere,if_neg (by simp [h n (Nat.lt_succ_self n)]),ih fun row hrow =>
      h row (hrow.trans (Nat.lt_succ_self n))]

theorem newestWhere_of_none {p : ℕ→Bool} {n row : ℕ} (h : newestWhere p n= -1) (hrow : row<n) : p row=false := by
  induction n with
  | zero => omega
  | succ n ih =>
    rw [newestWhere] at h
    split at h
    · omega
    · rename_i hp
      rcases Nat.lt_succ_iff_lt_or_eq.mp hrow with hlt | rfl
      · exact ih h hlt
      · simpa using hp

theorem newestWhere_spec (p : ℕ→Bool) (n : ℕ) :
    newestWhere p n= -1 ∨ ∃row : ℕ,newestWhere p n=row ∧ row<n ∧ p row=true := by
  induction n with
  | zero => exact Or.inl rfl
  | succ n ih =>
    rw [newestWhere]
    split
    · exact Or.inr ⟨n,rfl,Nat.lt_succ_self n,by assumption⟩
    · rcases ih with h | ⟨row,h,hlt,hp⟩
      · exact Or.inl h
      · exact Or.inr ⟨row,h,hlt.trans (Nat.lt_succ_self n),hp⟩

/-- The newest row is one from `a` on, if there is one there. -/
theorem newestWhere_split (p : ℕ→Bool) {a n : ℕ} (h : a≤n) : newestWhere p n=
    if newestWhere (fun row => decide (a≤row) && p row) n= -1 then newestWhere p a
    else newestWhere (fun row => decide (a≤row) && p row) n := by
  induction n with
  | zero =>
    obtain rfl : a=0 := Nat.le_zero.mp h
    rfl
  | succ n ih =>
    rcases Nat.lt_or_eq_of_le h with hlt | rfl
    · have hle : a≤n := Nat.lt_succ_iff.mp hlt
      have hn : ¬((n : ℤ)= -1) := by omega
      rw [newestWhere,newestWhere,decide_eq_true hle,Bool.true_and]
      cases p n with
      | true => simp only [if_true,if_neg hn]
      | false => exact ih hle
    · rw [newestWhere_none (p:=fun row => decide (n+1≤row) && p row) fun row hrow => by
        rw [decide_eq_false (by omega),Bool.false_and]]
      rfl

namespace Document

variable {d : Document}

/-- Whether rule `i` is one the walk has to answer. -/
def digestLive (d : Document) (i : ℕ) : Bool :=
  match d.highlighters.rules[i]? with
  | some rule => rule.enabled && rule.actions.digest && rule.criteria.anyActive
  | none => false

theorem RulesResolved.digestLive (h : RulesResolved d) {i row : ℕ} (hd : d.digestRule i=true)
    (hm : d.ruleMatchesRow i row=true) : d.digestLive i=true := by
  obtain ⟨rule,hrule,henabled,hactive⟩ := h.ruleMatchesRow hm
  have hdigest : rule.actions.digest=true := by simpa [digestRule,hrule] using hd
  simp [Document.digestLive,hrule,henabled,hactive,hdigest]

theorem digestLive_anyEnabled {i : ℕ} (h : d.digestLive i=true) :
    d.highlighters.anyEnabled .digestOnly=true ∧ d.highlighters.anyEnabled .live=true := by
  unfold digestLive at h
  split at h
  · rename_i rule hrule
    have hmem := List.mem_of_getElem? hrule
    simp only [Bool.and_eq_true] at h
    exact ⟨List.any_eq_true.mpr ⟨rule,hmem,by simp [h.1.1,h.1.2,h.2,HighlightActions.inter,HighlightActions.any,
        HighlightActions.digestOnly]⟩,
      List.any_eq_true.mpr ⟨rule,hmem,by simp [h.1.1,h.1.2,h.2,HighlightActions.inter,HighlightActions.any,
        HighlightActions.live]⟩⟩
  · cases h

/-- What one rule's own search finds: nothing, or a row it matches. -/
theorem findBack_spec (d : Document) (i row fence : ℕ) : d.findBack i row fence= -1 ∨
    ∃found : ℕ,d.findBack i row fence=found ∧ found<row ∧ d.ruleMatchesRow i found=true := by
  induction row generalizing fence with
  | zero => exact Or.inl rfl
  | succ row ih =>
    have hstep (fence : ℕ) : d.findBack i row fence= -1 ∨
        ∃found : ℕ,d.findBack i row fence=found ∧ found<row+1 ∧ d.ruleMatchesRow i found=true := by
      rcases ih fence with h | ⟨found,h,hlt,hm⟩
      · exact Or.inl h
      · exact Or.inr ⟨found,h,hlt.trans (Nat.lt_succ_self row),hm⟩
    unfold findBack
    split
    · exact hstep fence
    · cases fence with
      | zero => exact Or.inl rfl
      | succ fence =>
        dsimp only
        split
        · exact Or.inr ⟨row,rfl,Nat.lt_succ_self row,by assumption⟩
        · exact hstep fence

/-- Where the fence is not reached a search finds the newest match in the run bound. -/
theorem findBack_newest {i row fence : ℕ}
    (h : (List.range row).countP (fun r => d.inRunBound (d.recordAt r))≤fence) :
    d.findBack i row fence=newestWhere (fun r => d.inRunBound (d.recordAt r) && d.ruleMatchesRow i r) row := by
  induction row generalizing fence with
  | zero => rfl
  | succ row ih =>
    rw [List.range_succ,List.countP_append,List.countP_singleton] at h
    unfold findBack newestWhere
    cases hb : d.inRunBound (d.recordAt row) with
    | false =>
      simp only [hb,Bool.not_false,Bool.false_and,Bool.false_eq_true,if_true,if_false] at h ⊢
      exact ih h
    | true =>
      simp only [hb,if_true] at h
      cases fence with
      | zero => omega
      | succ fence =>
        simp only [Bool.not_true,Bool.true_and,Bool.false_eq_true,if_false]
        rw [ih (by omega)]

/-! The walk. -/

/-- The rules, from rule `i` on, that the walk has yet to answer. -/
def unanswered (d : Document) : ℕ→List ℤ→ℕ
  | _,[] => 0
  | i,s::slots => (if decide (s<0) && d.digestLive i then 1 else 0)+d.unanswered (i+1) slots

/-- Whether a row answers rule `i`. -/
def answersSlot (d : Document) (row i : ℕ) (s : ℤ) : Bool := decide
    (s<0) && d.digestRule i && d.ruleMatchesRow i row

theorem RulesResolved.live_of_answers (h : RulesResolved d) {row i : ℕ} {s : ℤ} (ha : d.answersSlot row i s=true) :
    (decide (s<0) && d.digestLive i)=true := by
  simp only [answersSlot,Bool.and_eq_true] at ha ⊢
  exact ⟨ha.1.1,h.digestLive ha.1.2 ha.2⟩

private theorem answerRow_cons (d : Document) (row i : ℕ) (s : ℤ) (slots : List ℤ) (outstanding : ℕ) :
    d.answerRow row i (s::slots) outstanding=if outstanding=0 then (s::slots,0) else
      let rest := d.answerRow row (i+1) slots (if d.answersSlot row i s then outstanding-1 else outstanding)
      ((if d.answersSlot row i s then (row : ℤ) else s)::rest.1,rest.2) := rfl

/-- With no rule left to answer no slot is answered. -/
theorem RulesResolved.answered (h : RulesResolved d) {i row : ℕ} {slots : List ℤ} (hz : d.unanswered i slots=0) :
    slots.mapIdx (fun j s => if d.answersSlot row (i+j) s then (row : ℤ) else s)=slots := by
  induction slots generalizing i with
  | nil => rfl
  | cons s slots ih =>
    rw [unanswered] at hz
    have hno : d.answersSlot row i s=false := by
      cases ha : d.answersSlot row i s with
      | false => rfl
      | true =>
        rw [if_pos (h.live_of_answers ha)] at hz
        omega
    have ih := ih (i:=i+1) (by omega)
    simp only [List.mapIdx_cons,Nat.add_zero,hno,Bool.false_eq_true,if_false,List.cons.injEq,true_and]
    simpa only [Nat.add_assoc,Nat.add_comm 1] using ih

/-- One row of the walk answers the slots it answers, and counts those down. -/
theorem RulesResolved.answerRow (h : RulesResolved d) (row : ℕ) {i outstanding : ℕ} {slots : List ℤ}
    (ho : d.unanswered i slots≤outstanding) :
    (d.answerRow row i slots outstanding).1=slots.mapIdx (fun j s => if d.answersSlot row (i+j) s then
      (row : ℤ) else s) ∧
      d.unanswered i (d.answerRow row i slots outstanding).1+outstanding≤
        (d.answerRow row i slots outstanding).2+d.unanswered i slots := by
  induction slots generalizing i outstanding with
  | nil => simp [Document.answerRow,unanswered]
  | cons s slots ih =>
    have hshift : slots.mapIdx (fun j s => if d.answersSlot row (i+(j+1)) s then (row : ℤ) else s)=
        slots.mapIdx (fun j s => if d.answersSlot row (i+1+j) s then (row : ℤ) else s) := by
      simp only [Nat.add_assoc,Nat.add_comm 1]
    rw [answerRow_cons]
    split
    · rename_i hz
      subst hz
      have hz : d.unanswered i (s::slots)=0 := by omega
      exact ⟨(h.answered hz).symm,by simp [hz]⟩
    · rename_i hpos
      rw [unanswered] at ho
      rw [List.mapIdx_cons,Nat.add_zero,hshift]
      cases ha : d.answersSlot row i s with
      | true =>
        have hl := h.live_of_answers ha
        rw [if_pos hl] at ho
        obtain ⟨ih₁,ih₂⟩ := @ih (i+1) (outstanding-1) (by omega)
        have hrow : ¬((row : ℤ)<0) := by omega
        simp only [if_true,ih₁,unanswered,hl,hrow,decide_false,Bool.false_and,Bool.false_eq_true,if_false,true_and]
        rw [ih₁] at ih₂
        omega
      | false =>
        obtain ⟨ih₁,ih₂⟩ := @ih (i+1) outstanding (by omega)
        simp only [Bool.false_eq_true,if_false,ih₁,unanswered,true_and]
        rw [ih₁] at ih₂
        omega

/-- A rule that is not to be answered has no match. -/
theorem RulesResolved.findBack_dead (h : RulesResolved d) {i row fence : ℕ} (hd : d.digestRule i=true)
    (hl : d.digestLive i=false) : d.findBack i row fence= -1 := by
  rcases d.findBack_spec i row fence with hn | ⟨found,-,-,hm⟩
  · exact hn
  · rw [h.digestLive hd hm] at hl
    cases hl

private theorem unanswered_zero {i j : ℕ} {slots : List ℤ} {s : ℤ} (hz : d.unanswered i slots=0)
    (hs : slots[j]?=some s) (hneg : s<0) : d.digestLive (i+j)=false := by
  induction slots generalizing i j with
  | nil => simp at hs
  | cons x xs ih =>
    rw [unanswered] at hz
    cases j with
    | zero =>
      obtain rfl : x=s := by simpa using hs
      by_contra hl
      rw [Nat.add_zero,Bool.not_eq_false] at hl
      rw [hl,decide_eq_true hneg] at hz
      simp only [Bool.and_self,if_true] at hz
      omega
    | succ j =>
      have ih := ih (i:=i+1) (j:=j) (by omega) (by simpa using hs)
      rwa [Nat.add_right_comm,Nat.add_assoc] at ih

/-- Open slots for which there is nothing to find stay open. -/
theorem mapIdx_unfound {slots : List ℤ} (hneg : ∀s∈slots,s<0→s= -1) {f : ℕ→ℤ} {p : ℕ→Bool}
    (hf : ∀(i : ℕ) (s : ℤ),slots[i]?=some s→s<0→p i=true→f i= -1) :
    slots.mapIdx (fun i s => if decide (s<0) && p i then f i else s)=slots := by
  refine List.ext_getElem (by simp) fun i hi hi' => ?_
  have hs := hneg _ (List.getElem_mem hi')
  rw [List.getElem_mapIdx]
  split
  · rename_i hopen
    simp only [Bool.and_eq_true,decide_eq_true_eq] at hopen
    rw [hf i _ (List.getElem?_eq_getElem hi') hopen.1 hopen.2,hs hopen.1]
  · rfl

/-- The walk finds for each slot that is open what a search for its rule finds. -/
theorem RulesResolved.walkBack (h : RulesResolved d) {row fence outstanding : ℕ} {slots : List ℤ}
    (hneg : ∀s∈slots,s<0→s= -1) (ho : d.unanswered 0 slots≤outstanding) :
    d.walkBack row fence slots outstanding=
      slots.mapIdx (fun i s => if decide (s<0) && d.digestRule i then d.findBack i row fence else s) := by
  induction row generalizing fence outstanding slots with
  | zero =>
    exact (mapIdx_unfound (f:=fun i => d.findBack i 0 fence) hneg fun _ _ _ _ _ => rfl).symm
  | succ row ih =>
    unfold Document.walkBack
    split
    · rename_i hz
      subst hz
      refine (mapIdx_unfound hneg fun i s hs hs' hd => h.findBack_dead hd ?_).symm
      have hl := unanswered_zero (i:=0) (Nat.le_zero.mp ho) hs hs'
      rwa [Nat.zero_add] at hl
    · cases hb : d.inRunBound (d.recordAt row) with
      | false =>
        have hfind (i : ℕ) : d.findBack i (row+1) fence=d.findBack i row fence := by
          conv_lhs => unfold findBack
          simp [hb]
        simp only [Bool.not_false,if_true,hfind]
        exact ih hneg ho
      | true =>
        simp only [Bool.not_true,Bool.false_eq_true,if_false]
        cases fence with
        | zero =>
          refine (mapIdx_unfound hneg fun i s _ _ _ => ?_).symm
          unfold findBack
          simp [hb]
        | succ fence =>
          obtain ⟨hrow,hleft⟩ := h.answerRow row ho
          have hfind (i : ℕ) : d.findBack i (row+1) (fence+1)=
              if d.ruleMatchesRow i row then (row : ℤ) else d.findBack i row fence := by
            conv_lhs => unfold findBack
            simp [hb]
          have hneg' : ∀s∈(d.answerRow row 0 slots outstanding).1,s<0→s= -1 := by
            intro s hs hs'
            rw [hrow,List.mem_mapIdx] at hs
            obtain ⟨j,hj,hs⟩ := hs
            split at hs
            · omega
            · exact hneg s (hs ▸ List.getElem_mem hj) hs'
          dsimp only
          rw [ih hneg' (by omega),hrow,List.mapIdx_mapIdx]
          congr 1
          funext i s
          have hrow' : ¬((row : ℤ)<0) := by omega
          simp only [Function.comp,answersSlot,Nat.zero_add,hfind]
          by_cases hs : s<0
          · cases d.digestRule i <;> cases d.ruleMatchesRow i row <;> simp [hs,hrow']
          · simp [hs]

/-- The newest match of rule `i`, or -1; only digest rules have one. -/
def newest (d : Document) (i : ℕ) : ℤ :=
    if d.digestRule i then d.findLastMatchBefore i d.index.records.length else -1

/-- The newest match of every rule. -/
def newestSlots (d : Document) : List ℤ := d.highlighters.rules.mapIdx (fun i _ => d.newest i)

private theorem unanswered_blank (rules : List HighlightRule) {i : ℕ}
    (h : ∀j,d.highlighters.rules[i+j]?=rules[j]?) :
    d.unanswered i (rules.map (fun _ => (-1 : ℤ)))=
      rules.countP (fun r => r.enabled && r.actions.digest && r.criteria.anyActive) := by
  induction rules generalizing i with
  | nil => rfl
  | cons r rs ih =>
    have hr := h 0
    have hrest := ih (i:=i+1) fun j => by simpa [Nat.add_assoc,Nat.add_comm 1] using h (j+1)
    rw [List.map_cons,unanswered,hrest,List.countP_cons]
    simp only [Nat.add_zero,List.getElem?_cons_zero] at hr
    simp [digestLive,hr,Nat.add_comm]

/-- The newest matches depend on the bound, the records and the rules alone. -/
theorem newestSlots_congr {e : Document} (hrules : e.highlighters.rules=d.highlighters.rules)
    (hlen : e.index.records.length=d.index.records.length)
    (hb : ∀row,e.inRunBound (e.recordAt row)=d.inRunBound (d.recordAt row))
    (hm : ∀i row,e.ruleMatchesRow i row=d.ruleMatchesRow i row) : e.newestSlots=d.newestSlots := by
  have hfind (i row fence : ℕ) : e.findBack i row fence=d.findBack i row fence := by
    induction row generalizing fence with
    | zero => rfl
    | succ row ih =>
      unfold findBack
      simp only [hb,hm,ih]
  have hnewest (i : ℕ) : e.newest i=d.newest i := by
    have hrule : e.digestRule i=d.digestRule i := by rw [digestRule,digestRule,hrules]
    simp only [newest,hrule,findLastMatchBefore,hfind,hlen]
  simp only [newestSlots,hrules,hnewest]

/-- Where no rule asks for a digest, no rule has a newest match. -/
theorem newestSlots_dead (h : d.index.records≠[]→RulesResolved d) (hl : ∀i,d.digestLive i=false) :
    d.newestSlots=d.highlighters.rules.map (fun _ => (-1 : ℤ)) := by
  refine List.ext_getElem (by simp [newestSlots]) fun i hi hi' => ?_
  simp only [newestSlots,List.getElem_map,List.getElem_mapIdx,newest]
  split
  · rename_i hd
    by_cases hrec : d.index.records=[]
    · simp [findLastMatchBefore,hrec,findBack]
    · exact (h hrec).findBack_dead hd (hl i)
  · rfl

/-- A rebuild finds every rule's newest match. -/
theorem rebuildDigest_slots (h : d.index.records≠[]→RulesResolved d) :
    d.rebuildDigest.digestLast=d.newestSlots := by
  have hpublish (e : Document) (force : Bool) : (e.publishDigest force).digestLast=e.digestLast := by
    rw [publishDigest_eq]
  unfold rebuildDigest
  dsimp only
  split
  · rename_i hgate
    rw [hpublish,newestSlots_dead h fun i => ?_]
    by_contra hl
    rw [(digestLive_anyEnabled (Bool.not_eq_false _ ▸ hl)).1] at hgate
    cases hgate
  · rw [hpublish]
    dsimp only
    have hwalk : d.walkBack d.index.records.length kDigestLookback (d.highlighters.rules.map (fun _ => (-1 : ℤ)))
        (d.highlighters.rules.countP (fun r => r.enabled && r.actions.digest && r.criteria.anyActive))=
          (d.highlighters.rules.map (fun _ => (-1 : ℤ))).mapIdx (fun i s => if decide (s<0) && d.digestRule i then
            d.findBack i d.index.records.length kDigestLookback else s) := by
      by_cases hrec : d.index.records=[]
      · rw [hrec,List.length_nil]
        exact (@mapIdx_unfound (d.highlighters.rules.map (fun _ => (-1 : ℤ))) (by simp)
          (fun i => d.findBack i 0 kDigestLookback) _ fun _ _ _ _ _ => rfl).symm
      · exact (h hrec).walkBack (by simp) (unanswered_blank _ fun j => by simp).le
    rw [hwalk]
    refine List.ext_getElem (by simp [newestSlots]) fun i hi hi' => ?_
    simp only [newestSlots,List.getElem_mapIdx,List.getElem_map,newest,findLastMatchBefore,Nat.min_self]
    simp

/-- Where the run bound holds no more records than the walk looks at, the newest match is
the newest match of all. -/
theorem newest_eq {i : ℕ} (h : (List.range d.index.records.length).countP
    (fun r => d.inRunBound (d.recordAt r))≤kDigestLookback) :
    d.newest i=newestWhere (fun r => d.inRunBound (d.recordAt r) && d.digestRule i && d.ruleMatchesRow i r)
      d.index.records.length := by
  unfold newest
  split
  · rename_i hd
    rw [findLastMatchBefore,Nat.min_self,findBack_newest h]
    simp [hd]
  · rename_i hd
    exact (newestWhere_none fun row _ => by simp [hd]).symm

end Document

end Loftail
