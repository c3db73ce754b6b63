import Loftail.DigestRebuild

/-! # The digest after a batch

What is shown stays what the slots name, whatever they name. The slots stay the newest
matches as long as no batch completes a match in the record before it. -/
namespace Loftail

namespace Document

variable {d e : Document}

/-! The published rows. -/

private theorem mem_refill {p : ℕ→Bool} {os cs : List ℕ} {o : ℕ} (h : o∈refill p os cs) : o∈os ∨ o∈cs := by
  induction os generalizing cs with
  | nil => simp [refill] at h
  | cons x xs ih =>
    unfold refill at h
    split at h
    · cases cs with
      | nil =>
        rcases List.mem_cons.mp h with rfl | h
        · exact Or.inl (by simp)
        · exact (ih h).imp (by simp +contextual) id
      | cons y ys =>
        rcases List.mem_cons.mp h with rfl | h
        · exact Or.inr (by simp)
        · exact (ih h).imp (by simp +contextual) (by simp +contextual)
    · rcases List.mem_cons.mp h with rfl | h
      · exact Or.inl (by simp)
      · exact (ih h).imp (by simp +contextual) id

/-- Every published row is named by a slot. -/
theorem mem_digestOrdinals {o : ℕ} (h : o∈d.digestOrdinals) : (o : ℤ)∈d.digestLast := by
  have hrows : o∈((d.digestLast.filter (fun s => decide (0 ≤ s))).map Int.toNat) := by
    have hsub := List.destutter_sublist (·≠·)
      (((d.digestLast.filter (fun s => decide (0 ≤ s))).map Int.toNat).insertionSort (·≤·))
    rcases mem_refill h with h | h
    · exact (List.mem_insertionSort _).mp (hsub.subset h)
    · exact (List.mem_insertionSort _).mp (hsub.subset (List.mem_filter.mp ((List.mem_insertionSort _).mp h)).1)
  obtain ⟨s,hs,rfl⟩ := List.mem_map.mp hrows
  obtain ⟨hs,hnn⟩ := List.mem_filter.mp hs
  have hnn : 0 ≤ s := by simpa using hnn
  rwa [Int.toNat_of_nonneg hnn]

private theorem refill_congr {p q : ℕ→Bool} {os : List ℕ} (h : ∀o∈os,p o=q o) (cs : List ℕ) :
    refill p os cs=refill q os cs := by
  induction os generalizing cs with
  | nil => rfl
  | cons x xs ih =>
    have hxs : ∀o∈xs,p o=q o := fun o ho => h o (by simp [ho])
    unfold refill
    rw [h x (by simp)]
    split
    · cases cs with
      | nil => simp [ih hxs]
      | cons y ys => simp [ih hxs]
    · rw [ih hxs]

/-- The rows published depend on the records at the rows named. -/
theorem digestOrdinals_congr (hlast : e.digestLast=d.digestLast)
    (hrec : ∀o : ℕ,(o : ℤ)∈d.digestLast→e.recordAt o=d.recordAt o) : e.digestOrdinals=d.digestOrdinals := by
  have hnamed : ∀o∈(((d.digestLast.filter (fun s => decide (0 ≤ s))).map Int.toNat).insertionSort
    (·≤·)).destutter (·≠·),e.recordAt o=d.recordAt o := by
    intro o ho
    have ho := (List.mem_insertionSort _).mp ((List.destutter_sublist _ _).subset ho)
    obtain ⟨s,hs,rfl⟩ := List.mem_map.mp ho
    obtain ⟨hs,hnn⟩ := List.mem_filter.mp hs
    refine hrec _ ?_
    rwa [Int.toNat_of_nonneg (by simpa using hnn)]
  unfold digestOrdinals
  dsimp only
  rw [hlast]
  have hplace : ∀o∈(((d.digestLast.filter (fun s => decide (0 ≤ s))).map Int.toNat).insertionSort
    (·≤·)).destutter (·≠·),e.placeable o=d.placeable o := fun o ho => by simp only [placeable,hnamed o ho]
  rw [List.filter_congr hplace,refill_congr hplace]
  congr 1
  unfold byTimestamp
  have hsort := List.map_insertionSort (r:=fun a b => (e.recordAt a).timestamp≤(e.recordAt b).timestamp)
    (s:=fun a b => (d.recordAt a).timestamp≤(d.recordAt b).timestamp) id
    ((((d.digestLast.filter (fun s => decide (0 ≤ s))).map Int.toNat).insertionSort (·≤·)).destutter
      (·≠·) |>.filter d.placeable)
    fun a ha b hb => by
      rw [hnamed a (List.mem_filter.mp ha).1,hnamed b (List.mem_filter.mp hb).1]
      rfl
  simpa using hsort

theorem setVisible_congr {records records' : List Record} {rows : List ℕ}
    (h : ∀o∈rows,records'.getD o default=records.getD o default) :
    FilteredIndex.setVisible records' rows []=.setVisible records rows [] := by
  have hmap : rows.map (fun s => records'.getD s default)=rows.map (fun s => records.getD s default) :=
    List.map_congr_left h
  simp only [FilteredIndex.setVisible,hmap]

/-- The digest shows the rows its slots name, as they are. -/
structure DigestPublished (d : Document) : Prop where
  digest : d.digest=.setVisible d.index.records d.digestOrdinals []
  range : ∀s∈d.digestLast,s<d.index.records.length
  live : ∀i s,d.digestLast[i]?=some s→0 ≤ s→d.digestLive i=true
  length : d.digestLast=[] ∨ d.digestLast.length=d.highlighters.rules.length

@[simp] theorem publishDigest_digestLast (d : Document) (force : Bool) :
    (d.publishDigest force).digestLast=d.digestLast := by
  rw [publishDigest_eq]

@[simp] theorem publishDigest_index (d : Document) (force : Bool) : (d.publishDigest force).index=d.index := by
  rw [publishDigest_eq]

@[simp] theorem publishDigest_highlighters (d : Document) (force : Bool) :
    (d.publishDigest force).highlighters=d.highlighters := by rw [publishDigest_eq]

@[simp] theorem publishDigest_ordinals (d : Document) (force : Bool) :
    (d.publishDigest force).digestOrdinals=d.digestOrdinals := by
  rw [publishDigest_eq]
  rfl

/-- Publishing shows the rows named, where what is kept for showing the right rows is right. -/
theorem publishDigest_digest (d : Document) (force : Bool)
    (h : force=false→d.digestOrdinals=d.digest.visible→d.digest=.setVisible d.index.records d.digestOrdinals []) :
    (d.publishDigest force).digest=.setVisible d.index.records d.digestOrdinals [] := by
  unfold publishDigest
  split
  · rename_i hkeep
    simp only [Bool.and_eq_true,Bool.not_eq_true',decide_eq_true_eq] at hkeep
    exact h hkeep.1 hkeep.2
  · rfl

theorem publishDigest_published {force : Bool}
    (h : force=false→d.digestOrdinals=d.digest.visible→d.digest=.setVisible d.index.records d.digestOrdinals [])
    (hrange : ∀s∈d.digestLast,s<d.index.records.length)
    (hlive : ∀i s,d.digestLast[i]?=some s→0 ≤ s→d.digestLive i=true)
    (hlength : d.digestLast=[] ∨ d.digestLast.length=d.highlighters.rules.length) :
    DigestPublished (d.publishDigest force) where
  digest := by
    rw [publishDigest_digest d force h,publishDigest_index,publishDigest_ordinals]
  range := by simpa using hrange
  live := by
    rw [publishDigest_digestLast]
    have hl (i : ℕ) : (d.publishDigest force).digestLive i=d.digestLive i := by
      simp only [digestLive,publishDigest_highlighters]
    simpa only [hl] using hlive
  length := by simpa using hlength

/-! The slots after a batch. -/

/-- A row that counts for rule `i`: in the run bound and matched by it. -/
def digestMatch (d : Document) (i row : ℕ) : Bool :=
  d.inRunBound (d.recordAt row) && d.digestRule i && d.ruleMatchesRow i row

/-- The newest row from `first` on that counts for rule `i`, or -1. -/
def newestFrom (d : Document) (first i stop : ℕ) : ℤ := newestWhere
    (fun row => decide (first≤row) && d.digestMatch i row) stop

theorem mapIdx_self (slots : List ℤ) : slots.mapIdx (fun _ s => s)=slots := List.ext_getElem (by simp) (by simp)

private theorem advanceRow_eq (d : Document) (slots : List ℤ) (changed : Bool) (row : ℕ) :
    (d.advanceRow (slots,changed) row).1=slots.mapIdx (fun i s => if d.digestMatch i row then (row : ℤ) else s) ∧
      ((d.advanceRow (slots,changed) row).2=false→changed=false ∧ (d.advanceRow (slots,changed) row).1=slots) := by
  unfold advanceRow
  split
  · rename_i hb
    have hno (i : ℕ) : d.digestMatch i row=false := by simp [digestMatch,by simpa using hb]
    exact ⟨by simp [hno,mapIdx_self],fun h => ⟨h,rfl⟩⟩
  · rename_i hb
    have hadv (i : ℕ) (s : ℤ) : (if d.advances row i s then (row : ℤ) else s)=
        if d.digestMatch i row then (row : ℤ) else s := by
      have hb : d.inRunBound (d.recordAt row)=true := by simpa using hb
      by_cases hs : s=row
      · simp [advances,hs]
      · simp [advances,digestMatch,hs,hb]
    refine ⟨by simp only [hadv],fun h => ?_⟩
    simp only [Bool.or_eq_false_iff] at h
    refine ⟨h.1,List.ext_getElem (by simp) fun i hi hi' => ?_⟩
    have hall := List.any_eq_false.mp h.2 (d.advances row i slots[i]) (List.mem_mapIdx.mpr ⟨i,hi',rfl⟩)
    rw [List.getElem_mapIdx,if_neg (by simpa using hall)]

/-- The new rows advance each slot to the newest of them that counts for its rule. -/
theorem foldl_advanceRow (d : Document) (slots : List ℤ) (changed : Bool) (first k : ℕ) :
    ((List.range' first k).foldl d.advanceRow (slots,changed)).1=slots.mapIdx (fun i s =>
        if d.newestFrom first i (first+k)= -1 then s else d.newestFrom first i (first+k)) ∧
      (((List.range' first k).foldl d.advanceRow (slots,changed)).2=false→
        changed=false ∧ ((List.range' first k).foldl d.advanceRow (slots,changed)).1=slots) := by
  induction k with
  | zero =>
    have hnone (i : ℕ) : d.newestFrom first i first= -1 := newestWhere_none fun row hrow => by
      rw [decide_eq_false (by omega),Bool.false_and]
    simp [hnone,mapIdx_self]
  | succ k ih =>
    obtain ⟨ih₁,ih₂⟩ := ih
    rw [List.range'_concat,List.foldl_append,List.foldl_cons,List.foldl_nil,Nat.one_mul]
    obtain ⟨h₁,h₂⟩ := d.advanceRow_eq ((List.range' first k).foldl d.advanceRow (slots,changed)).1
      ((List.range' first k).foldl d.advanceRow (slots,changed)).2 (first+k)
    rw [Prod.mk.eta] at h₁ h₂
    refine ⟨?_,fun hf => ?_⟩
    · rw [h₁,ih₁,List.mapIdx_mapIdx]
      congr 1
      funext i s
      have hrow : ¬(((first+k : ℕ) : ℤ)= -1) := by omega
      have hstep : d.newestFrom first i (first+(k+1))=
          if d.digestMatch i (first+k) then ((first+k : ℕ) : ℤ) else d.newestFrom first i (first+k) := by
        rw [← Nat.add_assoc,newestFrom,newestWhere]
        simp [newestFrom]
      simp only [Function.comp,hstep]
      cases d.digestMatch i (first+k) with
      | true => rw [if_pos rfl,if_pos rfl,if_neg hrow]
      | false => rfl
    · obtain ⟨hc,hs⟩ := h₂ hf
      obtain ⟨hc',hs'⟩ := ih₂ hc
      exact ⟨hc',hs.trans hs'⟩

/-- A document `e` a batch has come to, `d` before it; the digest has not been looked at yet. -/
structure Arrived (d e : Document) (changed : Bool) : Prop where
  digest : e.digest=d.digest
  digestLast : e.digestLast=d.digestLast
  rules : e.highlighters.rules=d.highlighters.rules
  length : d.index.records.length≤e.index.records.length
  front : ∀row,row+1<d.index.records.length→e.recordAt row=d.recordAt row
  last : changed=false→∀row<d.index.records.length,e.recordAt row=d.recordAt row
  fresh : changed=true→0<d.index.records.length
  resolved : RulesResolved e

/-! What is published stays right, whatever the slots say. -/

theorem newest_spec (hr : d.index.records≠[]→RulesResolved d) (i : ℕ) :
    d.newest i= -1 ∨ (0≤d.newest i ∧ d.newest i<d.index.records.length ∧ d.digestLive i=true) := by
  unfold newest
  split
  · rename_i hd
    rcases d.findBack_spec i (min d.index.records.length d.index.records.length) kDigestLookback with hn |
      ⟨row,hrow,hlt,hm⟩
    · exact Or.inl hn
    · have hne : d.index.records≠[] := List.ne_nil_of_length_pos (by omega)
      refine Or.inr ⟨?_,?_,(hr hne).digestLive hd hm⟩ <;> rw [findLastMatchBefore,hrow] <;> omega
  · exact Or.inl rfl

/-- A rebuild is the publication of the newest matches. -/
theorem rebuildDigest_publish (hr : d.index.records≠[]→RulesResolved d) :
    d.rebuildDigest={d with digestLast := d.newestSlots}.publishDigest false := by
  have hslots := rebuildDigest_slots hr
  unfold rebuildDigest at hslots ⊢
  dsimp only at hslots ⊢
  split
  · rename_i hgate
    rw [if_pos hgate,publishDigest_digestLast] at hslots
    rw [← hslots]
  · rename_i hgate
    rw [if_neg hgate,publishDigest_digestLast] at hslots
    rw [← hslots]

theorem rebuildDigest_published (hr : d.index.records≠[]→RulesResolved d)
    (h : ({d with digestLast := d.newestSlots} : Document).digestOrdinals=d.digest.visible→
      d.digest=.setVisible d.index.records ({d with digestLast := d.newestSlots} : Document).digestOrdinals []) :
    DigestPublished d.rebuildDigest := by
  rw [rebuildDigest_publish hr]
  refine publishDigest_published (fun _ => h) (fun s hs => ?_) (fun i s hs hnn => ?_)
    (Or.inr (by simp [newestSlots]))
  · obtain ⟨i,hi,rfl⟩ := List.mem_mapIdx.mp hs
    rcases newest_spec hr i with hn | ⟨-,hlt,-⟩
    · rw [hn]
      simp only
      omega
    · exact hlt
  · have hs : d.newest i=s := by
      simp only [newestSlots,List.getElem?_mapIdx] at hs
      cases hrule : d.highlighters.rules[i]? with
      | none => simp [hrule] at hs
      | some rule => simpa [hrule] using hs
    rcases newest_spec hr i with hn | ⟨-,-,hl⟩
    · omega
    · exact hl

namespace Arrived

variable {changed : Bool}

theorem digestLive (h : Arrived d e changed) (i : ℕ) : e.digestLive i=d.digestLive i := by
  simp only [Document.digestLive,h.rules]

/-- A digest that is kept shows what it has to, where the records it shows have been left. -/
theorem kept (h : Arrived d e changed) (hp : DigestPublished d) {slots : List ℤ}
    (hvis : ({e with digestLast := slots} : Document).digestOrdinals=e.digest.visible)
    (hrec : ∀o∈({e with digestLast := slots} : Document).digestOrdinals,e.recordAt o=d.recordAt o) :
    e.digest=.setVisible e.index.records ({e with digestLast := slots} : Document).digestOrdinals [] := by
  have hd : e.digest=.setVisible d.index.records d.digestOrdinals [] := h.digest.trans hp.digest
  have hords : ({e with digestLast := slots} : Document).digestOrdinals=d.digestOrdinals := by
    rw [hvis,hd]
    rfl
  rw [hords] at hrec ⊢
  rw [hd]
  exact (setVisible_congr hrec).symm

/-- A slot after a batch: a new row, or what looking at it again makes of it. -/
theorem updatedSlots_eq (h : Arrived d e changed) (recheck : Bool) (row : ℕ) :
    (e.updatedSlots d.index.records.length recheck row).1=d.digestLast.mapIdx (fun i s =>
        if e.newestFrom d.index.records.length i e.index.records.length= -1 then
        (if recheck then e.recheckSlot row i s else s)
        else e.newestFrom d.index.records.length i e.index.records.length) ∧
      ((e.updatedSlots d.index.records.length recheck row).2=false→
        (recheck && d.digestLast.any (fun s => decide (s=(row : ℤ))))=false ∧
          (e.updatedSlots d.index.records.length recheck row).1=d.digestLast) := by
  obtain ⟨h₁,h₂⟩ := e.foldl_advanceRow (if recheck then d.digestLast.mapIdx (e.recheckSlot row) else d.digestLast)
    (recheck && d.digestLast.any (fun s => decide (s=(row : ℤ)))) d.index.records.length
    (e.index.records.length-d.index.records.length)
  rw [Nat.add_sub_cancel' h.length] at h₁
  unfold updatedSlots
  dsimp only
  rw [h.digestLast]
  refine ⟨?_,fun hf => ?_⟩
  · rw [h₁]
    cases recheck with
    | false => rfl
    | true =>
      rw [if_pos rfl,List.mapIdx_mapIdx]
      rfl
  · obtain ⟨hn,hs⟩ := h₂ hf
    refine ⟨hn,hs.trans ?_⟩
    cases recheck with
    | false => rfl
    | true =>
      refine List.ext_getElem (by simp) fun i hi hi' => ?_
      have hne : d.digestLast[i]≠(row : ℤ) := by
        have hany := List.any_eq_false.mp ((Bool.true_and _).symm.trans hn) _ (List.getElem_mem hi')
        simpa using hany
      simp [recheckSlot,hne]

/-- Which old row a new slot can name. -/
theorem slot_old (h : Arrived d e changed) {recheck : Bool} {row o : ℕ} (ho : o<d.index.records.length)
    (hs : (o : ℤ)∈(e.updatedSlots d.index.records.length recheck row).1) :
    ∃i s,d.digestLast[i]?=some s ∧ (if recheck then e.recheckSlot row i s else s)=(o : ℤ) := by
  rw [(h.updatedSlots_eq recheck row).1] at hs
  obtain ⟨i,hi,hs⟩ := List.mem_mapIdx.mp hs
  refine ⟨i,_,List.getElem?_eq_getElem hi,?_⟩
  split at hs
  · exact hs
  · rcases newestWhere_spec (fun r => decide (d.index.records.length≤r) && e.digestMatch i r)
      e.index.records.length with
      hn | ⟨r,hr,-,hp⟩
    · exact absurd hn (by assumption)
    · simp only [Bool.and_eq_true,decide_eq_true_eq] at hp
      rw [newestFrom,hr] at hs
      omega

private theorem recheckSlot_lt (h : Arrived d e changed) (hrange : ∀s∈d.digestLast,s<d.index.records.length) {i : ℕ}
    (hi : i<d.digestLast.length) (recheck : Bool) :
    (if recheck then e.recheckSlot (d.index.records.length-1) i d.digestLast[i] else d.digestLast[i])<
      e.index.records.length := by
  have hlt := hrange _ (List.getElem_mem hi)
  have hlen := h.length
  have hkept : d.digestLast[i]<(e.index.records.length : ℤ) := by omega
  cases recheck with
  | false => exact hkept
  | true =>
    rw [if_pos rfl,recheckSlot]
    split
    · exact hkept
    · split
      · exact hkept
      · rcases e.findBack_spec i (min (d.index.records.length-1) e.index.records.length)
          kDigestLookback with hn | ⟨o,ho,hlt',-⟩
        · rw [findLastMatchBefore,hn]
          omega
        · rw [findLastMatchBefore,ho]
          omega

theorem slot_lt (h : Arrived d e changed) (hrange : ∀s∈d.digestLast,s<d.index.records.length)
    {recheck : Bool} {i : ℕ} (hi : i<d.digestLast.length) :
    (if e.newestFrom d.index.records.length i e.index.records.length= -1 then
        (if recheck then e.recheckSlot (d.index.records.length-1) i d.digestLast[i] else d.digestLast[i])
      else e.newestFrom d.index.records.length i e.index.records.length)<e.index.records.length := by
  split
  · exact h.recheckSlot_lt hrange hi recheck
  · rcases newestWhere_spec (fun r => decide (d.index.records.length≤r) && e.digestMatch i r)
      e.index.records.length with
      hn | ⟨r,hr,hlt,-⟩
    · exact absurd hn (by assumption)
    · rw [newestFrom,hr]
      exact_mod_cast hlt

private theorem slot_live (h : Arrived d e changed) (hp : DigestPublished d) {recheck : Bool} {row i : ℕ} {s : ℤ}
    (hs : d.digestLast[i]?=some s)
    (hnn : 0≤(if e.newestFrom d.index.records.length i e.index.records.length= -1 then
        (if recheck then e.recheckSlot row i s else s)
      else e.newestFrom d.index.records.length i e.index.records.length)) : e.digestLive i=true := by
  split at hnn
  · -- An old slot: it was live when it was filled.
    refine (h.digestLive i).trans (hp.live i s hs ?_)
    by_contra hneg
    cases recheck with
    | false => exact hneg hnn
    | true =>
      rw [if_pos rfl,recheckSlot,if_pos (by omega)] at hnn
      exact hneg hnn
  · rcases newestWhere_spec (fun r => decide (d.index.records.length≤r) && e.digestMatch i r)
      e.index.records.length with
      hn | ⟨r,-,-,hm⟩
    · exact absurd hn (by assumption)
    · simp only [digestMatch,Bool.and_eq_true] at hm
      exact h.resolved.digestLive hm.2.1.2 hm.2.2

/-- The update of a published digest publishes. -/
theorem published_update (h : Arrived d e changed) (hp : DigestPublished d) :
    DigestPublished (e.updateDigestAfterAppend d.index.records.length changed (d.index.records.length-1)) := by
  unfold updateDigestAfterAppend
  dsimp only
  split
  · -- No rule asks for a digest any more.
    refine publishDigest_published (fun _ hvis => h.kept hp hvis fun o ho => ?_) (by simp; omega)
      (fun i s hs hnn => ?_)
      (Or.inr (by simp))
    · have ho := mem_digestOrdinals ho
      simp at ho
    · simp only [List.getElem?_map,Option.map_eq_some_iff] at hs
      obtain ⟨_,_,rfl⟩ := hs
      omega
  split
  · -- Nothing has been published yet.
    rename_i hlen
    have hnil : d.digestLast=[] := by
      rw [h.digestLast,h.rules] at hlen
      exact hp.length.resolve_right hlen
    refine rebuildDigest_published (fun _ => h.resolved) fun hvis => h.kept hp hvis fun o ho => ?_
    have hd : e.digest.visible=d.digestOrdinals := by
      rw [h.digest,hp.digest]
      rfl
    rw [hvis,hd] at ho
    have ho := mem_digestOrdinals ho
    simp [hnil] at ho
  · rename_i hlen
    have hlen' := not_not.mp hlen
    set recheck := changed && decide (d.index.records.length-1<e.index.records.length) with hrecheck
    have hre (hc : changed=true) : recheck=true := by
      have := h.fresh hc
      have := h.length
      simp only [hrecheck,hc,Bool.true_and,decide_eq_true_eq]
      omega
    obtain ⟨hslots,hsame⟩ := h.updatedSlots_eq recheck (d.index.records.length-1)
    -- A record before the last is as it was, and so is the last of a batch that changed none.
    have hold (o : ℕ) (ho : o<d.index.records.length) (hbase : changed=true → o≠d.index.records.length-1) :
        e.recordAt o=d.recordAt o := by
      cases hc : changed with
      | false => exact h.last hc o ho
      | true => exact h.front o (by have := hbase hc; omega)
    split
    · refine publishDigest_published (fun hforce hvis => h.kept hp hvis fun o ho => ?_) (fun s hs => ?_)
        (fun i s hs hnn => ?_) ?_
      · have hnamed := mem_digestOrdinals ho
        have hd : e.digest.visible=d.digestOrdinals := by
          rw [h.digest,hp.digest]
          rfl
        rw [hvis,hd] at ho
        have hlt : o<d.index.records.length := by exact_mod_cast hp.range _ (mem_digestOrdinals ho)
        refine hold o hlt fun hc hbase => ?_
        -- The re-read record is still named: its copy was forced out.
        obtain ⟨i,s,hi,hs⟩ := h.slot_old hlt hnamed
        rw [hre hc,if_pos rfl,recheckSlot] at hs
        split at hs
        · rename_i hne
          rw [hs,hbase] at hne
          exact hne rfl
        · rename_i hnamed'
          have hsrow : s=((d.index.records.length-1 : ℕ) : ℤ) := not_not.mp hnamed'
          split at hs
          · rename_i hstill
            have hstale := List.any_eq_false.mp (show _=false by
              simpa only [staleRow,hre hc,Bool.true_and] using hforce)
                (decide (s=((d.index.records.length-1 : ℕ) : ℤ)) &&
                e.inRunBound (e.recordAt (d.index.records.length-1)) && e.ruleMatchesRow i
                  (d.index.records.length-1))
              (by
                rw [h.digestLast]
                exact List.mem_mapIdx.mpr ⟨i,(List.getElem?_eq_some_iff.mp hi).1,by
                  rw [(List.getElem?_eq_some_iff.mp hi).2]⟩)
            rw [Bool.and_eq_true] at hstill
            simp [hsrow,hstill.1,hstill.2] at hstale
          · rcases e.findBack_spec i (min (d.index.records.length-1) e.index.records.length) kDigestLookback with
              hn | ⟨found,hf,hlt',-⟩
            · rw [findLastMatchBefore,hn] at hs
              omega
            · rw [findLastMatchBefore,hf] at hs
              omega
      · rw [hslots] at hs
        obtain ⟨i,hi,rfl⟩ := List.mem_mapIdx.mp hs
        exact h.slot_lt hp.range hi
      · rw [hslots,List.getElem?_mapIdx] at hs
        obtain ⟨s₀,hs₀,rfl⟩ := Option.map_eq_some_iff.mp hs
        exact h.slot_live hp hs₀ hnn
      · exact Or.inr (by rw [hslots,List.length_mapIdx,← h.digestLast,hlen'])
    · rename_i hquiet
      obtain ⟨hn,hs⟩ := hsame (by simpa using hquiet)
      have hords : ({e with digestLast := d.digestLast} : Document).digestOrdinals=d.digestOrdinals := by
        refine digestOrdinals_congr rfl fun o ho => hold o (by exact_mod_cast hp.range _ ho) fun hc hbase => ?_
        rw [hre hc,Bool.true_and] at hn
        have hany := List.any_eq_false.mp hn _ ho
        simp [hbase] at hany
      rw [hs]
      refine ⟨?_,fun s hs => (hp.range s hs).trans_le (by exact_mod_cast h.length),fun i s hs hnn => ?_,?_⟩
      · refine h.kept hp ?_ fun o ho => ?_
        · rw [hords,h.digest,hp.digest]
          rfl
        · have ho := mem_digestOrdinals ho
          refine hold o (by exact_mod_cast hp.range _ ho) fun hc hbase => ?_
          rw [hre hc,Bool.true_and] at hn
          have hany := List.any_eq_false.mp hn _ ho
          simp [hbase] at hany
      · exact (h.digestLive i).trans (hp.live i s hs hnn)
      · exact Or.inr (by rw [← h.digestLast,hlen'])

/-- The records before the batch say of rule `i` what they said; a match that the last of them
has come to is not the newest. -/
structure Foreseen (d e : Document) (changed : Bool) (i : ℕ) : Prop where
  front : ∀row,row+1<d.index.records.length→e.digestMatch i row=d.digestMatch i row
  last : changed=false→∀row<d.index.records.length,e.digestMatch i row=d.digestMatch i row
  newer : ∀row,row+1=d.index.records.length→e.digestMatch i row=true→d.digestMatch i row=false→
    ∃next,row<next ∧ next<e.index.records.length ∧ e.digestMatch i next=true

/-- Then a slot that named the newest match names it after the batch. -/
theorem slot_newest (h : Arrived d e changed) {i : ℕ} (hf : Foreseen d e changed i)
    (hcount : (List.range e.index.records.length).countP (fun r => e.inRunBound (e.recordAt r))≤kDigestLookback)
    {recheck : Bool} (hre : changed=true → recheck=true) (hre' : recheck=true → changed=true) :
    (if e.newestFrom d.index.records.length i e.index.records.length= -1 then
        (if recheck then e.recheckSlot (d.index.records.length-1) i
          (newestWhere (d.digestMatch i) d.index.records.length)
          else newestWhere (d.digestMatch i) d.index.records.length)
      else e.newestFrom d.index.records.length i e.index.records.length)=newestWhere
      (e.digestMatch i) e.index.records.length := by
  rw [newestWhere_split (e.digestMatch i) h.length]
  change _=if e.newestFrom d.index.records.length i e.index.records.length= -1 then _ else
    e.newestFrom d.index.records.length i e.index.records.length
  split
  · rename_i hnone
    cases hc : changed with
    | false =>
      rw [if_neg (by intro hr; rw [hre' hr] at hc; cases hc)]
      exact newestWhere_congr fun row hrow => (hf.last hc row hrow).symm
    | true =>
      obtain ⟨base,hbase⟩ := Nat.exists_eq_succ_of_ne_zero (h.fresh hc).ne'
      rw [Nat.succ_eq_add_one] at hbase
      have hlen := h.length
      rw [if_pos (hre hc),hbase,Nat.add_sub_cancel,newestWhere,newestWhere]
      have hfront : newestWhere (d.digestMatch i) base=newestWhere (e.digestMatch i) base :=
        newestWhere_congr fun row hrow => (hf.front row (by omega)).symm
      cases hd : d.digestMatch i base with
      | false =>
        -- A match completed by this batch would have a newer one in it.
        have he : e.digestMatch i base=false := by
          by_contra he
          obtain ⟨next,hlt,hnext,hm⟩ := hf.newer base hbase.symm (Bool.not_eq_false _ ▸ he) hd
          have hno := newestWhere_of_none hnone hnext
          simp only [hm,Bool.and_true,decide_eq_false_iff_not] at hno
          omega
        have hne : newestWhere (d.digestMatch i) base≠(base : ℤ) := by
          rcases newestWhere_spec (d.digestMatch i) base with hn | ⟨r,hr,hlt,-⟩ <;> omega
        simp only [he,Bool.false_eq_true,if_false]
        rw [recheckSlot,if_pos hne,hfront]
      | true =>
        simp only [if_true]
        have hrule : e.digestRule i=true := by
          simp only [digestMatch,Bool.and_eq_true] at hd
          simpa only [digestRule,h.rules] using hd.1.2
        rw [recheckSlot,if_neg (not_not.mpr rfl)]
        have hmatch : e.digestMatch i base=(e.inRunBound (e.recordAt base) && e.ruleMatchesRow i base) := by
          simp [digestMatch,hrule]
        rw [hmatch]
        split
        · rfl
        · rw [findLastMatchBefore,Nat.min_eq_left (by omega),findBack_newest]
          · exact newestWhere_congr fun row _ => by simp [digestMatch,hrule]
          · refine le_trans ?_ hcount
            exact ((List.range_sublist.mpr (by omega)).countP_le)
  · rfl

/-- The slots after the update are those of a rebuild. -/
theorem update_newest (h : Arrived d e changed) (hd : d.digestLast=d.newestSlots)
    (hcount : (List.range e.index.records.length).countP (fun r => e.inRunBound (e.recordAt r))≤kDigestLookback)
    (hcount' : (List.range d.index.records.length).countP (fun r => d.inRunBound (d.recordAt r))≤kDigestLookback)
    (hf : ∀i,Foreseen d e changed i) :
    (e.updateDigestAfterAppend d.index.records.length changed (d.index.records.length-1)).digestLast=
    e.newestSlots := by
  unfold updateDigestAfterAppend
  dsimp only
  split
  · rename_i hgate
    rw [publishDigest_digestLast,newestSlots_dead (fun _ => h.resolved) fun i => ?_]
    by_contra hl
    rw [(digestLive_anyEnabled (Bool.not_eq_false _ ▸ hl)).1] at hgate
    cases hgate
  split
  · exact rebuildDigest_slots fun _ => h.resolved
  · have hlast (recheck : Bool) (hre : changed=true → recheck=true) (hre' : recheck=true → changed=true) :
        (e.updatedSlots d.index.records.length recheck (d.index.records.length-1)).1=e.newestSlots := by
      rw [(h.updatedSlots_eq recheck _).1,hd]
      refine List.ext_getElem (by simp [newestSlots,h.rules]) fun i hi hi' => ?_
      simp only [newestSlots,List.getElem_mapIdx,newest_eq hcount,newest_eq hcount']
      exact h.slot_newest (hf i) hcount hre hre'
    have hrecheck : changed=true → (changed && decide (d.index.records.length-1<e.index.records.length))=true := by
      intro hc
      have := h.fresh hc
      have := h.length
      simp only [hc,Bool.true_and,decide_eq_true_eq]
      omega
    have hlast := hlast _ hrecheck fun hr => ((Bool.and_eq_true _ _).mp hr).1
    split
    · rw [publishDigest_digestLast]
      exact hlast
    · exact hlast

end Arrived

end Document

end Loftail
