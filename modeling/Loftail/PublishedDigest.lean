import Loftail.DigestUpdate
import Loftail.KeyedSort

/-! # The order of the published digest

The rows that can be placed in time are sorted around those that cannot. A publication is skipped
where the rows are the ones already shown. -/
namespace Loftail

namespace Document

variable {d e : Document}

/-- Refilling changes the placeable slots alone, and to what it is given. -/
theorem refill_spec {p : ℕ→Bool} {os cs : List ℕ} (hlen : cs.length=(os.filter p).length) (hcs : ∀c∈cs,p c=true) :
    (refill p os cs).filter p=cs ∧ (refill p os cs).filter (fun o => !p o)=os.filter (fun o => !p o) ∧
      ∀(k : ℕ) (o : ℕ),os[k]?=some o→p o=false → (refill p os cs)[k]?=some o := by
  induction os generalizing cs with
  | nil =>
    obtain rfl := List.length_eq_zero_iff.mp hlen
    exact ⟨rfl,rfl,fun k o ho => by simp at ho⟩
  | cons x os ih =>
    cases hx : p x with
    | true =>
      rw [List.filter_cons_of_pos hx] at hlen
      obtain ⟨c,cs,rfl⟩ := List.exists_cons_of_ne_nil (List.ne_nil_of_length_eq_add_one hlen)
      obtain ⟨hplaced,hothers,hat⟩ := ih (Nat.succ_injective hlen) fun c hc => hcs c (List.mem_cons_of_mem _ hc)
      have hc := hcs c List.mem_cons_self
      rw [refill,if_pos hx,List.filter_cons_of_pos hc,List.filter_cons_of_neg (by simp [hc]),hplaced,hothers,
        List.filter_cons_of_neg (by simp [hx])]
      refine ⟨rfl,rfl,fun k o ho hp => ?_⟩
      cases k with
      | zero =>
        obtain rfl : x=o := by simpa using ho
        rw [hx] at hp
        cases hp
      | succ k => exact hat k o ho hp
    | false =>
      rw [List.filter_cons_of_neg (by simp [hx])] at hlen
      obtain ⟨hplaced,hothers,hat⟩ := ih hlen hcs
      have hstep : refill p (x::os) cs=x::refill p os cs := by
        conv_lhs => unfold refill
        rw [if_neg (by simp [hx])]
      rw [hstep,List.filter_cons_of_neg (by simp [hx]),List.filter_cons_of_pos (by simp [hx]),
        List.filter_cons_of_pos (by simp [hx]),hplaced,hothers]
      refine ⟨rfl,rfl,fun k o ho hp => ?_⟩
      cases k with
      | zero => exact ho
      | succ k => exact hat k o ho hp

/-- The rows the slots name, each once, in the order of the file. -/
def filledRows (d : Document) : List ℕ :=
  (((d.digestLast.filter (fun s => decide (0 ≤ s))).map Int.toNat).insertionSort (·≤·)).destutter (·≠·)

theorem filledRows_dedup (d : Document) :
    d.filledRows=(((d.digestLast.filter (fun s => decide (0 ≤ s))).map Int.toNat).insertionSort (·≤·)).dedup :=
  (List.pairwise_insertionSort (·≤·) _).destutter_eq_dedup

private theorem mem_filledRows {o : ℕ} : o∈d.filledRows ↔ (o : ℤ)∈d.digestLast := by
  rw [filledRows_dedup,List.mem_dedup,List.mem_insertionSort,List.mem_map]
  constructor
  · rintro ⟨s,hs,rfl⟩
    obtain ⟨hs,hnn⟩ := List.mem_filter.mp hs
    rwa [Int.toNat_of_nonneg (by simpa using hnn)]
  · intro ho
    exact ⟨o,List.mem_filter.mpr ⟨ho,by simp⟩,rfl⟩

theorem filledRows_ascend (d : Document) : d.filledRows.Pairwise (·<·) := by
  have hle : d.filledRows.Pairwise (·≤·) := (List.pairwise_insertionSort (·≤·) _).sublist
    (List.destutter_sublist _ _)
  have hne : d.filledRows.Pairwise (·≠·) := by
    rw [filledRows_dedup]
    exact List.nodup_dedup _
  exact (hle.and hne).imp fun h => lt_of_le_of_ne h.1 h.2

/-- Rows that are the distinct ordinals of the filled slots: one that has no timestamp stands at the rank
its ordinal has, the others in the order of timestamps and then of the file. -/
structure DigestOrdered (d : Document) (rows : List ℕ) : Prop where
  nodup : rows.Nodup
  mem : ∀o,o∈rows ↔ (o : ℤ)∈d.digestLast
  ranked : ∀o∈rows,d.placeable o=false → rows[(rows.filter (·<o)).length]?=some o
  timed : (rows.filter d.placeable).Pairwise (KeyedSort.Before fun o => (d.recordAt o).timestamp)

private theorem digestOrdinals_ordered (d : Document) : DigestOrdered d d.digestOrdinals := by
  have hsorted := List.perm_insertionSort (fun a b => (d.recordAt a).timestamp ≤ (d.recordAt b).timestamp)
    (d.filledRows.filter d.placeable)
  obtain ⟨hplaced,hothers,hat⟩ := @refill_spec d.placeable d.filledRows _ hsorted.length_eq
    fun c hc => (List.mem_filter.mp (hsorted.mem_iff.mp hc)).2
  have hords : d.digestOrdinals=refill d.placeable d.filledRows
    (d.byTimestamp (d.filledRows.filter d.placeable)) := rfl
  have hperm : d.digestOrdinals.Perm d.filledRows := by
    refine (List.filter_append_perm d.placeable _).symm.trans ?_
    rw [hords,byTimestamp,hplaced,hothers]
    exact (hsorted.append_right _).trans (List.filter_append_perm d.placeable _)
  constructor
  · exact hperm.nodup_iff.mpr (d.filledRows_ascend.imp ne_of_lt)
  · intro o
    rw [hperm.mem_iff,mem_filledRows]
  · intro o ho hp
    rw [(hperm.filter _).length_eq]
    exact hat _ o (KeyedSort.rank_getElem d.filledRows_ascend (hperm.mem_iff.mp ho)) hp
  · rw [hords,byTimestamp,hplaced]
    exact KeyedSort.insertionSort_before (d.filledRows_ascend.filter _)

/-! A digest kept up. -/

/-- The shown rows are those the slots name in this order, and none of them is out of the index. -/
structure RowsPublished (d : Document) : Prop where
  visible : d.digest.visible=d.digestOrdinals
  range : ∀s∈d.digestLast,s<d.index.records.length

private theorem publishDigest_visible (d : Document) (force : Bool) :
    (d.publishDigest force).digest.visible=(d.publishDigest force).digestOrdinals := by
  rw [publishDigest_ordinals]
  unfold publishDigest
  split
  · rename_i hkeep
    simp only [Bool.and_eq_true,decide_eq_true_eq] at hkeep
    exact hkeep.2.symm
  · rfl

theorem publishDigest_rows {force : Bool} (h : ∀s∈d.digestLast,s<d.index.records.length) :
    RowsPublished (d.publishDigest force) where
  visible := d.publishDigest_visible force
  range := by
    rw [publishDigest_digestLast,publishDigest_index]
    exact h

private theorem newestSlots_range (h : d.index.records≠[]→RulesResolved d) :
    ∀s∈d.newestSlots,s<d.index.records.length := by
  intro s hs
  obtain ⟨i,-,rfl⟩ := List.mem_mapIdx.mp hs
  obtain hnone | ⟨-,hlt,-⟩ := newest_spec h i
  · rw [hnone]
    omega
  · exact hlt

/-- A rebuild shows the rows it found, whatever was shown before. -/
theorem rebuildDigest_rows (h : d.index.records≠[]→RulesResolved d) : RowsPublished d.rebuildDigest := by
  rw [rebuildDigest_publish h]
  exact publishDigest_rows (newestSlots_range h)

/-- So does an update, of rows that were shown. -/
theorem Arrived.rows_update {changed : Bool} (h : Arrived d e changed) (hrows : RowsPublished d) :
    RowsPublished (e.updateDigestAfterAppend d.index.records.length changed (d.index.records.length-1)) := by
  unfold updateDigestAfterAppend
  dsimp only
  split
  · refine publishDigest_rows fun s hs => ?_
    obtain ⟨-,-,rfl⟩ := List.mem_map.mp hs
    exact (by decide : (-1 : ℤ) < 0).trans_le (Int.natCast_nonneg _)
  split
  · exact rebuildDigest_rows fun _ => h.resolved
  · obtain ⟨hslots,hsame⟩ := h.updatedSlots_eq
      (changed && decide (d.index.records.length-1 < e.index.records.length))
      (d.index.records.length-1)
    split
    · refine publishDigest_rows fun s hs => ?_
      rw [hslots] at hs
      obtain ⟨i,hi,rfl⟩ := List.mem_mapIdx.mp hs
      exact h.slot_lt hrows.range hi
    · -- No slot was touched, and none names a record that was replaced.
      rename_i hquiet
      obtain ⟨hnamed,hs⟩ := hsame (by simpa using hquiet)
      have hrecords : ∀o : ℕ,(o : ℤ)∈d.digestLast→e.recordAt o=d.recordAt o := by
        intro o ho
        have hlt : o < d.index.records.length := by exact_mod_cast hrows.range _ ho
        cases hc : changed with
        | false => exact h.last hc o hlt
        | true =>
          apply h.front
          have hlen := h.length
          have hcheck : (changed && decide (d.index.records.length-1 < e.index.records.length))=true := by
            rw [hc,Bool.true_and,decide_eq_true_eq]
            omega
          rw [hcheck,Bool.true_and] at hnamed
          have hother := List.any_eq_false.mp hnamed _ ho
          simp only [decide_eq_true_eq,Nat.cast_inj] at hother
          omega
      have hords : ({e with digestLast := d.digestLast} : Document).digestOrdinals=d.digestOrdinals :=
        digestOrdinals_congr rfl hrecords
      rw [hs]
      constructor
      · exact (congrArg FilteredIndex.visible h.digest).trans (hrows.visible.trans hords.symm)
      · exact fun s hs => (hrows.range s hs).trans_le (by exact_mod_cast h.length)

/-- A digest from its opening on: rebuilt and updated while the index grows. `told` where no rebuild came
upon a trailing record that had been replaced. -/
inductive DigestKept : Bool→Document→Prop
  | opened {d : Document} (hlast : d.digestLast=[]) (hdigest : d.digest=.setVisible d.index.records [] []) :
    DigestKept true d
  | rebuilt {d e : Document} {told changed : Bool} (h : DigestKept told d) (harrived : Arrived d e changed) :
      DigestKept (told && !changed) e.rebuildDigest
  | updated {d e : Document} {told changed : Bool} (h : DigestKept told d) (harrived : Arrived d e changed) :
      DigestKept told (e.updateDigestAfterAppend d.index.records.length changed (d.index.records.length-1))

namespace DigestKept

variable {told : Bool}

theorem rows (h : DigestKept told d) : RowsPublished d := by
  induction h with
  | opened hlast hdigest =>
    constructor
    · rw [hdigest]
      simp [digestOrdinals,hlast,FilteredIndex.setVisible,refill]
    · rw [hlast]
      exact fun s hs => by cases hs
  | rebuilt h harrived ih => exact rebuildDigest_rows fun _ => harrived.resolved
  | updated h harrived ih => exact harrived.rows_update ih

/-- Unless a rebuild came upon a replaced record, what is shown is what the index holds. -/
theorem published (h : DigestKept told d) (htold : told=true) : DigestPublished d := by
  induction h with
  | opened hlast hdigest =>
    refine ⟨?_,?_,?_,Or.inl hlast⟩
    · rw [hdigest]
      simp [digestOrdinals,hlast,refill]
    · rw [hlast]
      exact fun s hs => by cases hs
    · rw [hlast]
      exact fun i s hs => by simp at hs
  | rebuilt h harrived ih =>
    rw [Bool.and_eq_true,Bool.not_eq_true'] at htold
    obtain ⟨htold,hsame⟩ := htold
    have hp := ih htold
    refine rebuildDigest_published (fun _ => harrived.resolved) fun hvisible =>
      harrived.kept hp hvisible fun o ho => ?_
    rw [hvisible,harrived.digest,hp.digest] at ho
    exact harrived.last hsame o (by exact_mod_cast hp.range _ (mem_digestOrdinals ho))
  | updated h harrived ih => exact harrived.published_update (ih htold)

/-- In every state of a digest that is kept up its rows are in order, and unless a rebuild came upon a
replaced record every copy is what the index holds. -/
theorem digest_ordered (h : DigestKept told d) : DigestOrdered d d.digest.visible ∧
    (told=true→d.digest.compact.records=d.digest.visible.map d.recordAt) := by
  constructor
  · rw [h.rows.visible]
    exact d.digestOrdinals_ordered
  · intro htold
    rw [(h.published htold).digest]
    rfl

/-- A log of one error of so many lines, and a rule that lists errors. -/
def oneError (lines : ℕ) : Document := {Document.bracketed with
    index := {RecordIndex.empty with records := [⟨0,0,2*lines,0,0,lines,.error⟩]}
    highlighters := ⟨[⟨true,{MatchCriteria.none with priorityEnabled := true,minPriority := .error},
      .digestOnly⟩],[]⟩
  : Document}.resolveHighlighters

/-- The digest of the error after its first line. -/
def shownError : Document := (oneError 1).rebuildDigest

/-- The error has grown a line, and the digest has not been looked at. -/
def grownError : Document := {oneError 2 with digest := shownError.digest,digestLast := shownError.digestLast}

theorem kept_shownError : DigestKept true shownError := by
  have harrived : Arrived (oneError 1) (oneError 1) false :=
    ⟨rfl,rfl,rfl,le_rfl,fun _ _ => rfl,fun _ _ _ => rfl,fun h => (by cases h),rfl⟩
  exact .rebuilt (.opened rfl rfl) harrived

theorem arrived_grownError : Arrived shownError grownError true where
  digest := rfl
  digestLast := rfl
  rules := rfl
  length := by decide
  front row hrow := absurd (Nat.lt_of_succ_lt_succ hrow) (Nat.not_lt_zero row)
  last h := by cases h
  fresh _ := by decide
  resolved := rfl

/-- The update shows the error with both its lines. -/
theorem digest_ordered_grown : ∃d,DigestKept true d ∧ d.index.records≠shownError.index.records ∧
    d.digest.compact.records=d.digest.visible.map d.recordAt :=
  ⟨_,.updated kept_shownError arrived_grownError,
    by decide,(digest_ordered (.updated kept_shownError arrived_grownError)).2 rfl⟩

/-- A rebuild in its place goes on showing the first alone. -/
theorem digest_ordered_untold : ¬∀(told : Bool) (d : Document),DigestKept told d→
    d.digest.compact.records=d.digest.visible.map d.recordAt := by
  intro hall
  have hstale := hall _ _ (.rebuilt kept_shownError arrived_grownError)
  revert hstale
  decide

end DigestKept

end Document

end Loftail
