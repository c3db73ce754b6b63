import Loftail.ResumableFold
import Loftail.RunList

/-! # Memoised run statistics against a fold over the records as they are

A memo is a fold left somewhere in its run. It stays right as long as the records it has
taken in do, and the one record a batch may replace is the trailing one. -/
namespace Loftail
open ResumableFold

/-- The instant a record has, if any. -/
def Record.instant (r : Record) : Option ℤ := if r.timestamp=kNoTimestamp then none else some r.timestamp

/-- The severity a count is kept of. -/
def Record.severity (r : Record) : Priority :=
  match r.priority with
  | .fatal => .fatal
  | .error => .error
  | .warn => .warn
  | .unknown | .trace | .debug | .info => .unknown

private theorem RunStats.fold_congr {r s : Record} (ht : r.timestamp=s.timestamp) (hp : r.severity=s.severity)
    (st : RunStats) :
    st.fold r=st.fold s := by
  unfold RunStats.fold
  rw [ht]
  cases hr : r.priority <;> cases hs : s.priority <;> simp [Record.severity,hr,hs] at hp <;> rfl

/-- A memo that is the fold from `start` to its cursor. -/
def StatsSound (records : List Record) (start : ℕ) (memo : RunStatsMemo) : Prop :=
  memo.scanned<start ∨ ∃k : ℕ,memo.scanned=k ∧ k≤records.length ∧
    memo.stats=foldSpan RunStats.fold .zero records start k

/-- A baseline that is the first instant from `start` on, or has found none yet. -/
def BaseSound (records : List Record) (start stop : ℕ) (b : Baseline) : Prop :=
  (b.ts≠kNoTimestamp ∧ ∃k : ℕ,b.scanned=k ∧ start≤k ∧ k<stop ∧
      firstSpan Record.instant records start (k+1)=some b.ts) ∨
    (b.ts=kNoTimestamp ∧ (b.scanned<0 ∨ ∃k : ℕ,b.scanned=k ∧ start≤k ∧ k≤records.length ∧
      firstSpan Record.instant records start k=none))

section Queries
variable {records : List Record} {start stop : ℕ}

theorem statsSound_fresh (records : List Record) (start : ℕ) : StatsSound records start .fresh :=
  Or.inl (by simp [RunStatsMemo.fresh]; omega)

theorem baseSound_fresh (records : List Record) (start stop : ℕ) : BaseSound records start stop .fresh :=
  Or.inr ⟨rfl,Or.inl (by simp [Baseline.fresh])⟩

/-- A question brings the memo up to the end of its run. -/
theorem foldStats_spec {memo : RunStatsMemo} (h : StatsSound records start memo) (hs : start ≤ stop)
    (hl : stop≤records.length) :
    (memo.foldStats records start stop).stats=foldSpan RunStats.fold .zero records start stop ∧
      StatsSound records start (memo.foldStats records start stop) := by
  have hreset : (span records start stop).foldl RunStats.fold .zero=
    foldSpan RunStats.fold .zero records start stop := rfl
  have hmain : (memo.foldStats records start stop).stats=foldSpan RunStats.fold .zero records start stop ∧
      (memo.foldStats records start stop).scanned=stop := by
    unfold RunStatsMemo.foldStats
    dsimp only
    by_cases hc : (memo.scanned<start || memo.scanned>stop)=true
    · rw [if_pos hc]
      exact ⟨by simpa [span] using hreset,by simp; omega⟩
    · rw [if_neg hc]
      simp only [Bool.or_eq_true,decide_eq_true_eq,not_or,not_lt,gt_iff_lt] at hc
      rcases h with h | ⟨k,hk,-,hstats⟩
      · omega
      · have h₁ : start≤k := by omega
        have h₂ : k ≤ stop := by omega
        refine ⟨?_,by rw [hk]; omega⟩
        rw [hk,hstats,Int.toNat_natCast]
        exact foldSpan_resume RunStats.fold .zero records h₁ h₂
  exact ⟨hmain.1,Or.inr ⟨stop,hmain.2,hl,hmain.1⟩⟩

private abbrev skipped (rows : List Record) : ℕ := (rows.takeWhile (fun r => r.timestamp=kNoTimestamp)).length

private theorem findSome_of_skipped_none {rows : List Record} (h : rows[skipped rows]?=none) :
    rows.findSome? Record.instant=none := by
  induction rows with
  | nil => rfl
  | cons r rs ih =>
    by_cases hr : r.timestamp=kNoTimestamp
    · have hi : rs[skipped rs]?=none := by simpa [skipped,hr] using h
      simpa [Record.instant,hr] using ih hi
    · simp [skipped,hr] at h

private theorem findSome_of_skipped_some {rows : List Record} {r : Record} (h : rows[skipped rows]?=some r) :
    r.timestamp≠kNoTimestamp ∧ (rows.take (skipped rows+1)).findSome? Record.instant=some r.timestamp := by
  induction rows with
  | nil => simp at h
  | cons a as ih =>
    by_cases ha : a.timestamp=kNoTimestamp
    · have hi : as[skipped as]?=some r := by simpa [skipped,ha] using h
      have hs := ih hi
      refine ⟨hs.1,?_⟩
      simpa [skipped,ha,Record.instant] using hs.2
    · have hr : a=r := by simpa [skipped,ha] using h
      subst hr
      exact ⟨ha,by simp [skipped,ha,Record.instant]⟩

/-- A question finds the first instant of its run. -/
theorem resolve_spec {b : Baseline} (h : BaseSound records start stop b) (hs : start ≤ stop)
    (hl : stop≤records.length) :
    (b.resolve records start stop).ts=(firstSpan Record.instant records start stop).getD kNoTimestamp ∧
      BaseSound records start stop (b.resolve records start stop) := by
  rcases h with ⟨hts,k,hk,h₁,h₂,hf⟩ | ⟨hts,h⟩
  · have hres : b.resolve records start stop=b := by
      unfold Baseline.resolve
      rw [if_pos hts]
    rw [hres,firstSpan_stable Record.instant records (by omega) (show k+1 ≤ stop by omega) hf]
    exact ⟨rfl,Or.inl ⟨hts,k,hk,h₁,h₂,hf⟩⟩
  · -- Nothing found up to the cursor: the search goes on from there.
    obtain ⟨m,hm,hsm,hml,hnone⟩ : ∃m : ℕ,(if b.scanned<0 then start else b.scanned.toNat)=m ∧ start ≤ m ∧
        m≤records.length ∧ firstSpan Record.instant records start m=none := by
      rcases h with h | ⟨k,hk,h₁,h₂,hf⟩
      · exact ⟨start,by rw [if_pos h],le_rfl,by omega,by rw [firstSpan,span_self]; rfl⟩
      · exact ⟨k,by rw [hk,if_neg (by omega),Int.toNat_natCast],h₁,h₂,hf⟩
    have hmiss (h : (span records m stop)[skipped (span records m stop)]?=none) :
        b.resolve records start stop=⟨kNoTimestamp,(max m stop : ℕ)⟩ := by
      simp only [span,skipped] at h
      simp only [Baseline.resolve,hts,ne_eq,not_true_eq_false,if_false,hm,h,Nat.cast_max]
    have hhit {r : Record} (h : (span records m stop)[skipped (span records m stop)]?=some r) :
        b.resolve records start stop=⟨r.timestamp,(m+skipped (span records m stop) : ℕ)⟩ := by
      simp only [span,skipped] at h
      simp only [Baseline.resolve,hts,ne_eq,not_true_eq_false,if_false,hm,h,span,skipped,Nat.cast_add]
    by_cases hms : m ≤ stop
    · have hresume := firstSpan_resume Record.instant records hsm hms hnone
      cases hrow : (span records m stop)[skipped (span records m stop)]? with
      | none =>
        have hf : firstSpan Record.instant records start stop=none := by
          rw [← hresume]
          exact findSome_of_skipped_none hrow
        rw [hmiss hrow]
        exact ⟨by rw [hf]; rfl,Or.inr ⟨rfl,Or.inr ⟨stop,by rw [Nat.max_eq_right hms],hs,hl,hf⟩⟩⟩
      | some r =>
        obtain ⟨hr,hfirst⟩ := findSome_of_skipped_some hrow
        have hlt : m+skipped (span records m stop)<stop := by
          have hlen := (List.getElem?_eq_some_iff.mp hrow).1
          simp only [span,List.length_drop,List.length_take] at hlen ⊢
          omega
        rw [span_take records (by omega),← Nat.add_assoc] at hfirst
        have hf : firstSpan Record.instant records start (m+skipped (span records m stop)+1)=some r.timestamp := by
          rw [← firstSpan_resume Record.instant records hsm (by omega) hnone]
          exact hfirst
        rw [hhit hrow,firstSpan_stable Record.instant records (by omega) (by omega) hf]
        exact ⟨rfl,Or.inl ⟨hr,_,rfl,by omega,hlt,hf⟩⟩
    · have hempty : span records m stop=[] := by
        refine List.drop_of_length_le ?_
        rw [List.length_take]
        omega
      have hf := firstSpan_none_mono Record.instant records (show stop ≤ m by omega) hnone
      rw [hmiss (by rw [hempty]; rfl),hf]
      exact ⟨rfl,Or.inr ⟨rfl,Or.inr ⟨m,by rw [Nat.max_eq_left (by omega)],hsm,hml,hnone⟩⟩⟩

end Queries

section Growth
variable {records records' : List Record}

/-- The same sequence but for its last element, and more behind it. -/
structure Replaced (records records' : List Record) : Prop where
  front : records'.take (records.length-1)=records.take (records.length-1)
  length : records.length≤records'.length

theorem Replaced.take (h : Replaced records records') {k : ℕ} (hk : k≤records.length-1) :
    records'.take k=records.take k := by
  have ht := congrArg (List.take k) h.front
  rwa [List.take_take,List.take_take,Nat.min_eq_left hk] at ht

theorem StatsSound.replaced {start : ℕ} {memo : RunStatsMemo} (h : StatsSound records start memo)
    (hr : Replaced records records') (hlast : ∀ base r r',records.length=base+1 → records[base]?=some r →
      records'[base]?=some r' → memo.scanned≤base ∨ (r'.timestamp=r.timestamp ∧ r'.severity=r.severity)) :
    StatsSound records' start memo := by
  rcases h with h | ⟨k,hk,hkl,hs⟩
  · exact Or.inl h
  · refine Or.inr ⟨k,hk,hkl.trans hr.length,?_⟩
    rw [hs]
    by_cases hkb : k≤records.length-1
    · exact foldSpan_congr _ _ (hr.take hkb).symm
    · obtain ⟨base,rfl⟩ : ∃base,k=base+1 := ⟨k-1,by omega⟩
      have hb : records.length=base+1 := by omega
      have hx := List.getElem?_eq_getElem (show base<records.length by omega)
      have hy := List.getElem?_eq_getElem (show base<records'.length by have := hr.length; omega)
      rcases hlast base _ _ hb hx hy with hle | ⟨ht,hsev⟩
      · omega
      · exact foldSpan_replace _ _ (hr.take (by omega)).symm hx hy
          (fun st => RunStats.fold_congr ht.symm hsev.symm st)

theorem BaseSound.replaced {start stop stop' : ℕ} {b : Baseline} (h : BaseSound records start stop b)
    (hr : Replaced records records') (hstop : stop ≤ stop') (hl : stop≤records.length)
    (hlast : ∀ base r r',records.length=base+1 → records[base]?=some r → records'[base]?=some r' →
      (b.scanned<base ∨ (b.scanned=base ∧ b.ts=kNoTimestamp)) ∨ r'.timestamp=r.timestamp) :
    BaseSound records' start stop' b := by
  have hsame {base : ℕ} {r r' : Record} (ht : r'.timestamp=r.timestamp) : r.instant=r'.instant := by
    simp only [Record.instant,ht]
  rcases h with ⟨hts,k,hk,h₁,h₂,hf⟩ | ⟨hts,h⟩
  · refine Or.inl ⟨hts,k,hk,h₁,by omega,?_⟩
    by_cases hkb : k+1≤records.length-1
    · rw [firstSpan_congr _ (hr.take hkb),hf]
    · have hb : records.length=k+1 := by omega
      have hx := List.getElem?_eq_getElem (show k<records.length by omega)
      have hy := List.getElem?_eq_getElem (show k<records'.length by have := hr.length; omega)
      rcases hlast k _ _ hb hx hy with (hlt | ⟨-,hno⟩) | ht
      · omega
      · exact absurd hno hts
      · rw [← hf]
        exact (firstSpan_replace _ (hr.take (by omega)).symm hx hy (@hsame k _ _ ht)).symm
  · refine Or.inr ⟨hts,?_⟩
    rcases h with h | ⟨k,hk,h₁,h₂,hf⟩
    · exact Or.inl h
    · refine Or.inr ⟨k,hk,h₁,h₂.trans hr.length,?_⟩
      by_cases hkb : k≤records.length-1
      · rw [firstSpan_congr _ (hr.take hkb),hf]
      · obtain ⟨base,rfl⟩ : ∃base,k=base+1 := ⟨k-1,by omega⟩
        have hb : records.length=base+1 := by omega
        have hx := List.getElem?_eq_getElem (show base<records.length by omega)
        have hy := List.getElem?_eq_getElem (show base<records'.length by have := hr.length; omega)
        rcases hlast base _ _ hb hx hy with (hlt | ⟨heq,-⟩) | ht
        · omega
        · omega
        · rw [← hf]
          exact (firstSpan_replace _ (hr.take (by omega)).symm hx hy (@hsame base _ _ ht)).symm

end Growth

/-- Every memo is a fold over its run, left at its cursor. -/
structure MemosSound (d : Document) : Prop where
  runStats : ∀(i : ℕ) (memo : RunStatsMemo) (run : Run),d.runStats[i]?=some memo → d.runs[i]?=some run →
    StatsSound d.index.records run.startRecord memo
  runBase : ∀(i : ℕ) (b : Baseline) (run : Run),d.runBase[i]?=some b → d.runs[i]?=some run →
    BaseSound d.index.records run.startRecord (d.endOf i) b
  fileStats : StatsSound d.index.records 0 d.fileStats
  fileBase : BaseSound d.index.records 0 d.index.records.length d.fileBase
  statsLength : d.runStats.length≤d.runs.length
  baseLength : d.runBase.length≤d.runs.length

namespace MemosSound

variable {d e : Document}

theorem fresh (h : d.toRunMemos=.fresh) : MemosSound d where
  runStats := by simp [h,RunMemos.fresh]
  runBase := by simp [h,RunMemos.fresh]
  fileStats := by rw [h]; exact statsSound_fresh _ _
  fileBase := by rw [h]; exact baseSound_fresh _ _ _
  statsLength := by simp [h,RunMemos.fresh]
  baseLength := by simp [h,RunMemos.fresh]

theorem congr (h : MemosSound d) (hm : e.toRunMemos=d.toRunMemos) (hr : e.runs=d.runs) (hi : e.index=d.index) :
    MemosSound e := by
  have hend (i : ℕ) : e.endOf i=d.endOf i := by simp only [Document.endOf,hr,hi]
  exact ⟨by simpa only [hm,hr,hi] using h.runStats,by simpa only [hm,hr,hi,hend] using h.runBase,
    by simpa only [hm,hi] using h.fileStats,by simpa only [hm,hi] using h.fileBase,
    by simpa only [hm,hr] using h.statsLength,by simpa only [hm,hr] using h.baseLength⟩

end MemosSound

theorem RunsPartition.endOf {d : Document} (h : RunsPartition d.runs d.index.records.length) {i : ℕ} {run : Run}
    (hi : d.runs[i]?=some run) : run.startRecord<d.endOf i ∧ d.endOf i≤d.index.records.length := by
  unfold Document.endOf
  obtain ⟨hlt,rfl⟩ := List.getElem?_eq_some_iff.mp hi
  cases hn : d.runs[i+1]? with
  | none => exact ⟨h.inside _ (List.getElem_mem hlt),le_rfl⟩
  | some next =>
    obtain ⟨hlt',rfl⟩ := List.getElem?_eq_some_iff.mp hn
    exact ⟨List.pairwise_iff_getElem.mp h.ascend i (i+1) hlt hlt' (Nat.lt_succ_self i),
      (h.inside _ (List.getElem_mem hlt')).le⟩

namespace Document

/-! The questions. -/

variable {d : Document}

theorem runStatsOf_spec (hm : MemosSound d) (hp : RunsPartition d.runs d.index.records.length) {i : ℕ} {run : Run}
    (hi : d.runs[i]?=some run) :
    (d.runStatsOf i).2=foldSpan RunStats.fold .zero d.index.records run.startRecord (d.endOf i) ∧
      MemosSound (d.runStatsOf i).1 := by
  have hlt : i<d.runs.length := (List.getElem?_eq_some_iff.mp hi).1
  have hend := hp.endOf hi
  have hold (j : ℕ) (memo : RunStatsMemo) (r : Run) (hj : (resized .fresh d.runStats d.runs.length)[j]?=some memo)
      (hr : d.runs[j]?=some r) : StatsSound d.index.records r.startRecord memo := by
    rcases resized_cases hj with hj | rfl
    · exact hm.runStats j memo r hj hr
    · exact statsSound_fresh _ _
  have hspec := foldStats_spec (hold i _ run (resized_getD hlt) hi) hend.1.le hend.2
  unfold runStatsOf
  rw [hi]
  refine ⟨hspec.1,?_,hm.runBase,hm.fileStats,hm.fileBase,by simp,hm.baseLength⟩
  intro j memo r hj hr
  dsimp only at hj hr
  by_cases hji : i=j
  · subst hji
    rw [List.getElem?_set_self (by simpa using hlt),Option.some.injEq] at hj
    rw [hi,Option.some.injEq] at hr
    subst hj hr
    exact hspec.2
  · rw [List.getElem?_set_ne hji] at hj
    exact hold j memo r hj hr

theorem fileStatsOf_spec (hm : MemosSound d) :
    (d.fileStatsOf).2=foldSpan RunStats.fold .zero d.index.records 0 d.index.records.length ∧
      MemosSound d.fileStatsOf.1 := by
  have hspec := foldStats_spec hm.fileStats (Nat.zero_le _) le_rfl
  exact ⟨hspec.1,hm.runStats,hm.runBase,hspec.2,hm.fileBase,hm.statsLength,hm.baseLength⟩

/-- Runs overlap nowhere. -/
theorem run_unique (hp : RunsPartition d.runs d.index.records.length) {i j row : ℕ} {r s : Run}
    (hi : d.runs[i]?=some r) (hj : d.runs[j]?=some s) (hr : r.startRecord≤row) (hs : s.startRecord≤row)
    (hri : row<d.endOf i) (hsj : row<d.endOf j) : i=j := by
  have key {i j : ℕ} {r s : Run} (hi : d.runs[i]?=some r) (hj : d.runs[j]?=some s) (hs : s.startRecord≤row)
      (hri : row<d.endOf i) : j ≤ i := by
    by_contra hij
    have hlt : i+1<d.runs.length := (show i+1≤j by omega).trans_lt (List.getElem?_eq_some_iff.mp hj).1
    have hnext := List.getElem?_eq_getElem hlt
    simp only [Document.endOf,hnext] at hri
    obtain ⟨hjl,rfl⟩ := List.getElem?_eq_some_iff.mp hj
    rcases (show i+1=j ∨ i+1<j by omega) with rfl | hlt'
    · omega
    · have := List.pairwise_iff_getElem.mp hp.ascend (i+1) j hlt hjl hlt'
      omega
  exact Nat.le_antisymm (key hj hi hr hsj) (key hi hj hs hri)

private theorem length_takeWhile_eq {α : Type} {p : α→Bool} {xs : List α} {n : ℕ} (hn : n≤xs.length)
    (h : ∀x∈xs.take n,p x=true) (hstop : ∀ x,xs[n]?=some x → p x=false) : (xs.takeWhile p).length=n := by
  rw [← List.take_append_drop n xs,List.takeWhile_append_of_pos h,List.length_append,List.length_take,
    Nat.min_eq_left hn]
  have hd : (xs.drop n).takeWhile p=[] := by
    cases hx : xs.drop n with
    | nil => rfl
    | cons y ys =>
      have hy : xs[n]?=some y := by
        have := congrArg List.head? hx
        simpa using this
      simp [hstop y hy]
  simp [hd]

/-- The run a row lies in is found, whatever the hint. -/
theorem runIndexAt_eq (hp : RunsPartition d.runs d.index.records.length) {i row : ℕ} {run : Run}
    (hi : d.runs[i]?=some run) (hs : run.startRecord≤row) (he : row<d.endOf i) : d.runIndexAt row=i := by
  obtain ⟨hlt,rfl⟩ := List.getElem?_eq_some_iff.mp hi
  have hcount : (d.runs.takeWhile (fun r => decide (r.startRecord≤row))).length=i+1 := by
    refine length_takeWhile_eq hlt (fun r hr => ?_) (fun r hr => ?_)
    · obtain ⟨j,hj,rfl⟩ := List.mem_iff_getElem.mp hr
      rw [List.getElem_take]
      have hji : j < i+1 := by
        rw [List.length_take] at hj
        omega
      rcases (show j=i ∨ j < i by omega) with rfl | hji
      · simpa using hs
      · have := List.pairwise_iff_getElem.mp hp.ascend j i (by omega) hlt hji
        simp only [decide_eq_true_eq]
        omega
    · simp only [Document.endOf,hr] at he
      simpa using he
  unfold runIndexAt
  dsimp only
  rw [hcount]
  by_cases hnn : 0≤d.runHint
  · rw [if_pos hnn]
    cases hr : d.runs[d.runHint.toNat]? with
    | none => simp
    | some r =>
      dsimp only
      split
      · -- The hint holds only for the run the row lies in.
        rename_i hhint
        simp only [Bool.and_eq_true,decide_eq_true_eq] at hhint
        have := run_unique hp hr hi hhint.1 hs hhint.2 he
        omega
      · simp
  · simp [hnn]

/-- A question about a row's base keeps every memo, whichever run it falls to. -/
theorem runBaseTimestamp_sound (hm : MemosSound d) (hp : RunsPartition d.runs d.index.records.length) (row : ℕ) :
    MemosSound (d.runBaseTimestamp row).1 := by
  have hold (j : ℕ) (b : Baseline) (r : Run) (hj : (resized .fresh d.runBase d.runs.length)[j]?=some b)
      (hr : d.runs[j]?=some r) : BaseSound d.index.records r.startRecord (d.endOf j) b := by
    rcases resized_cases hj with hj | rfl
    · exact hm.runBase j b r hj hr
    · exact baseSound_fresh _ _ _
  unfold runBaseTimestamp
  split
  · exact hm
  split
  · exact ⟨hm.runStats,hm.runBase,hm.fileStats,(resolve_spec hm.fileBase (Nat.zero_le _) le_rfl).2,
      hm.statsLength,hm.baseLength⟩
  dsimp only
  split
  · exact ⟨hm.runStats,hold,hm.fileStats,hm.fileBase,hm.statsLength,by simp⟩
  · rename_i run hrun
    have hi : d.runs[(d.runIndexAt row).toNat]?=some run := by
      split at hrun
      · exact hrun
      · cases hrun
    have hlt := (List.getElem?_eq_some_iff.mp hi).1
    have hend := hp.endOf hi
    refine ⟨hm.runStats,?_,hm.fileStats,hm.fileBase,hm.statsLength,by simp⟩
    intro j b r hj hr
    dsimp only at hj hr
    by_cases hji : (d.runIndexAt row).toNat=j
    · subst hji
      rw [List.getElem?_set_self (by simpa using hlt),Option.some.injEq] at hj
      rw [hi,Option.some.injEq] at hr
      subst hj hr
      exact (resolve_spec (hold _ _ run (resized_getD hlt) hi) hend.1.le hend.2).2
    · rw [List.getElem?_set_ne hji] at hj
      exact hold j b r hj hr

private theorem runBaseTimestamp_file (hm : MemosSound d) (hr : d.runs=[]) {row : ℕ}
    (h : row<d.index.records.length) :
    (d.runBaseTimestamp row).2=
      (firstSpan Record.instant d.index.records 0 d.index.records.length).getD kNoTimestamp := by
  unfold runBaseTimestamp
  rw [if_neg (by omega),if_pos (by simp [hr])]
  exact (resolve_spec hm.fileBase (Nat.zero_le _) le_rfl).1

private theorem runBaseTimestamp_run (hm : MemosSound d)
    (hp : RunsPartition d.runs d.index.records.length) {i row : ℕ}
    {run : Run} (hi : d.runs[i]?=some run) (hs : run.startRecord≤row) (he : row<d.endOf i) :
    (d.runBaseTimestamp row).2=
      (firstSpan Record.instant d.index.records run.startRecord (d.endOf i)).getD kNoTimestamp := by
  have hlt := (List.getElem?_eq_some_iff.mp hi).1
  have hend := hp.endOf hi
  have hsound : BaseSound d.index.records run.startRecord (d.endOf i)
      ((resized .fresh d.runBase d.runs.length).getD i .fresh) := by
    rcases resized_cases (@resized_getD _ .fresh d.runBase _ _ hlt) with hj | hj
    · exact hm.runBase i _ run hj hi
    · rw [hj]
      exact baseSound_fresh _ _ _
  have hne : d.runs.isEmpty=false := by
    cases hr : d.runs with
    | nil => simp [hr] at hlt
    | cons a as => rfl
  have hidx := runIndexAt_eq hp hi hs he
  unfold runBaseTimestamp
  rw [if_neg (by omega),hne,if_neg (by simp)]
  dsimp only
  rw [hidx,if_pos (by omega),Int.toNat_natCast,hi]
  exact (resolve_spec hsound hend.1.le hend.2).1

private theorem rescan_memos (d : Document) (content : Bytes) : (d.rescan content).toRunMemos=.fresh := by
  unfold rescan
  dsimp only
  split
  · rfl
  · rw [selectLastRun,recomputeViewBounds_eq,detectRuns_eq]

end Document

namespace LiveController

variable {c : LiveController}

@[simp] theorem tick_toRunMemos (c : LiveController) (more : Bytes) :
    (c.tick more).document.toRunMemos=c.document.toRunMemos := by
  obtain ⟨tail,l,t,-,⟨-,he⟩ | ⟨-,he⟩⟩ := c.tick_cases more
  · rw [he]
    rfl
  · rw [he,runMatchActions_document]
    simp only [ingested]
    rw [Document.ingestView_eq,Document.ingestRuns_eq]
    rfl

private theorem tick_replaced (hp : Placed c.document.source c.document.index.records) (more : Bytes) :
    Replaced c.document.index.records (c.tick more).document.index.records where
  front := by
    obtain ⟨tail,hrec,-⟩ := c.tick_records more hp
    rw [hrec,← List.dropLast_eq_take,List.take_left' List.length_dropLast]
  length := c.tick_length more hp

/-- Runs stay where they are, and end no earlier. -/
theorem tick_endOf (hc : c.Consistent) (more : Bytes) {i : ℕ} {run : Run} (hi : c.document.runs[i]?=some run) :
    (c.tick more).document.runs[i]?=some run ∧ c.document.endOf i≤(c.tick more).document.endOf i := by
  obtain ⟨added,hadd,hmem⟩ := c.tick_added more
  have hne : c.document.runs≠[] := fun h => by simp [h] at hi
  have hlt := (List.getElem?_eq_some_iff.mp hi).1
  refine ⟨by rw [hadd,List.getElem?_append_left hlt,hi],?_⟩
  have hend := (hc.partition.endOf hi).2
  unfold Document.endOf at hend ⊢
  by_cases hnext : i+1<c.document.runs.length
  · rw [hadd,List.getElem?_append_left hnext,List.getElem?_eq_getElem hnext]
  · rw [List.getElem?_eq_none (by omega)]
    cases hr : (c.tick more).document.runs[i+1]? with
    | none => exact c.tick_length more hc.placed
    | some next =>
      rw [hadd,List.getElem?_append_right (by omega)] at hr
      obtain ⟨i,hi,-,rfl⟩ := hmem hne next (List.mem_of_getElem? hr)
      exact hi

/-- What a memo has already taken in of the trailing record is the same after it is re-read. -/
def KeepsExamined (c : LiveController) (more : Bytes) : Prop :=
  ∀base,c.document.index.records.length=base+1→
    (∀memo∈c.document.fileStats::c.document.runStats,(base : ℤ) < memo.scanned→
      ((c.document.appendBytes more).reread.recordAt base).timestamp=(c.document.recordAt base).timestamp ∧
        ((c.document.appendBytes more).reread.recordAt base).severity=(c.document.recordAt base).severity) ∧
    ∀b∈c.document.fileBase::c.document.runBase,((base : ℤ)<b.scanned ∨ (b.scanned=base ∧ b.ts≠kNoTimestamp))→
      ((c.document.appendBytes more).reread.recordAt base).timestamp=(c.document.recordAt base).timestamp

/-- The step: a batch leaves every memo what it was, of runs that have only grown. -/
theorem tick_memos (hc : c.Consistent) (hm : MemosSound c.document) {more : Bytes} (hk : c.KeepsExamined more) :
    MemosSound (c.tick more).document := by
  have hrep := tick_replaced hc.placed more
  have hat {base : ℕ} {r : Record} (h : c.document.index.records[base]?=some r) : c.document.recordAt base=r := by
    rw [Document.recordAt,List.getD_eq_getElem?_getD,h,Option.getD_some]
  have hat' {base : ℕ} {r : Record} (h : (c.tick more).document.index.records[base]?=some r) :
      (c.document.appendBytes more).reread.recordAt base=r := by
    rw [reread_recordAt hc.placed,Document.recordAt,List.getD_eq_getElem?_getD,h,Option.getD_some]
  have hstats (start : ℕ) (memo : RunStatsMemo) (hmem : memo∈c.document.fileStats::c.document.runStats)
      (hs : StatsSound c.document.index.records start memo) :
      StatsSound (c.tick more).document.index.records start memo := by
    refine hs.replaced hrep fun base r r' hb hr hr' => ?_
    rw [← hat hr,← hat' hr']
    by_cases hle : memo.scanned≤base
    · exact Or.inl hle
    · exact Or.inr ((hk base hb).1 memo hmem (by omega))
  have hbase (start stop stop' : ℕ) (b : Baseline) (hmem : b∈c.document.fileBase::c.document.runBase)
      (hs : BaseSound c.document.index.records start stop b) (hle : stop ≤ stop')
      (hl : stop≤c.document.index.records.length) :
        BaseSound (c.tick more).document.index.records start stop' b := by
    refine hs.replaced hrep hle hl fun base r r' hb hr hr' => ?_
    rw [← hat hr,← hat' hr']
    by_cases hlt : b.scanned<base
    · exact Or.inl (Or.inl hlt)
    by_cases heq : b.scanned=base ∧ b.ts=kNoTimestamp
    · exact Or.inl (Or.inr heq)
    · refine Or.inr ((hk base hb).2 b hmem ?_)
      by_cases hs : b.scanned=base
      · exact Or.inr ⟨hs,fun h => heq ⟨hs,h⟩⟩
      · exact Or.inl (by omega)
  have hmemos := c.tick_toRunMemos more
  have hgrow : c.document.runs.length≤(c.tick more).document.runs.length := by
    obtain ⟨added,hadd,-⟩ := c.tick_added more
    simp [hadd]
  refine ⟨?_,?_,?_,?_,?_,?_⟩
  · intro i memo run hi hrun
    rw [hmemos] at hi
    have hlt := (List.getElem?_eq_some_iff.mp hi).1.trans_le hm.statsLength
    have hold := List.getElem?_eq_getElem hlt
    have hsame := (tick_endOf hc more hold).1
    rw [hrun,Option.some.injEq] at hsame
    rw [← hsame] at hold
    exact hstats _ memo (List.mem_cons_of_mem _ (List.mem_of_getElem? hi)) (hm.runStats i memo run hi hold)
  · intro i b run hi hrun
    rw [hmemos] at hi
    have hlt := (List.getElem?_eq_some_iff.mp hi).1.trans_le hm.baseLength
    have hold := List.getElem?_eq_getElem hlt
    have hsame := tick_endOf hc more hold
    rw [hrun,Option.some.injEq] at hsame
    rw [← hsame.1] at hold
    exact hbase _ _ _ b (List.mem_cons_of_mem _ (List.mem_of_getElem? hi)) (hm.runBase i b run hi hold) hsame.2
      (hc.partition.endOf hold).2
  · rw [hmemos]
    exact hstats 0 _ (by simp) hm.fileStats
  · rw [hmemos]
    exact hbase 0 _ _ _ (by simp) hm.fileBase (c.tick_length more hc.placed) le_rfl
  · rw [hmemos]
    exact hm.statsLength.trans hgrow
  · rw [hmemos]
    exact hm.baseLength.trans hgrow

/-- Every other action leaves the memos be or drops them, or asks a question. -/
theorem act_memos (hc : c.Consistent) (hm : MemosSound c.document) {a : Action} (ha : ∀m,a≠.append m) :
    MemosSound (c.act a).document := by
  have hdetect (d : Document) : MemosSound d.detectRuns := .fresh (by rw [Document.detectRuns_eq])
  have hlast {d : Document} (h : MemosSound d) : MemosSound d.selectLastRun :=
    h.congr (by rw [Document.selectLastRun,Document.recomputeViewBounds_eq])
      (by simp [Document.selectLastRun]) (by simp [Document.selectLastRun])
  cases a with
  | append m => exact absurd rfl (ha m)
  | setRunStart pattern regex cs => exact hlast (hdetect _)
  | detectRuns => exact hdetect _
  | selectRun i =>
    refine hm.congr ?_ ?_ ?_
    · show (c.document.selectRun i).toRunMemos=_
      rw [Document.selectRun,Document.recomputeViewBounds_eq]
    · simp [act,onDocument,Document.selectRun]
    · simp [act,onDocument,Document.selectRun]
  | selectLastRun => exact hlast hm
  | applyFilters =>
    have hk := Document.keepsRuns_applyFilters c.document
    refine hm.congr ?_ ?_ hk.index <;> simp only [act,onDocument,Document.applyFilters] <;> split <;> rfl
  | refreshHighlighting =>
    show MemosSound c.document.resolveHighlighters.rebuildDigest
    rw [Document.rebuildDigest_eq]
    exact hm.congr rfl rfl rfl
  | runStats i =>
    show MemosSound (c.document.runStatsOf i).1
    cases hi : c.document.runs[i]? with
    | none =>
      rw [Document.runStatsOf,hi]
      exact hm
    | some run => exact (Document.runStatsOf_spec hm hc.partition hi).2
  | fileStats => exact (Document.fileStatsOf_spec hm).2
  | runBaseTimestamp row => exact Document.runBaseTimestamp_sound hm hc.partition row

/-- The run: every memo is sound after any session whose batches keep what has been examined. -/
theorem memos_session (hc : c.Consistent) (hm : MemosSound c.document) {actions : List Action}
    (hk : EachAppend KeepsExamined c actions) : MemosSound (c.session actions).document := by
  induction actions generalizing c with
  | nil => exact hm
  | cons a as ih =>
    by_cases ha : ∃m,a=.append m
    · obtain ⟨m,rfl⟩ := ha
      exact ih (hc.tick m) (tick_memos hc hm hk.1) hk.2
    · have ha' : ∀m,a≠.append m := fun m hm => ha ⟨m,hm⟩
      have hrest : EachAppend KeepsExamined (c.act a) as := by
        cases a with
        | append m => exact absurd rfl (ha' m)
        | _ => exact hk
      exact ih (hc.act a) (act_memos hc hm ha') hrest

end LiveController

/-- The statistics of some records, counted at one go. -/
def RunStats.of (rows : List Record) : RunStats :=
  {firstTimestamp := (rows.findSome? Record.instant).getD kNoTimestamp
   lastTimestamp := (rows.reverse.findSome? Record.instant).getD kNoTimestamp
   fatal := rows.countP (fun r => r.priority=.fatal)
   error := rows.countP (fun r => r.priority=.error)
   warn := rows.countP (fun r => r.priority=.warn)}

theorem RunStats.foldl_fold (rows : List Record) : rows.foldl RunStats.fold .zero=.of rows := by
  induction rows using List.reverseRecOn with
  | nil => rfl
  | append_singleton rows r ih =>
    have hsome {b : ℤ} (h : rows.findSome? Record.instant=some b) : b≠kNoTimestamp := by
      obtain ⟨s,-,hs⟩ := List.exists_of_findSome?_eq_some h
      unfold Record.instant at hs
      split at hs
      · cases hs
      · rwa [← Option.some.inj hs]
    rw [List.foldl_append,ih]
    have hfirst : ((rows++[r]).findSome? Record.instant).getD kNoTimestamp=
        if r.timestamp≠kNoTimestamp then
          if (rows.findSome? Record.instant).getD kNoTimestamp=kNoTimestamp then r.timestamp
          else (rows.findSome? Record.instant).getD kNoTimestamp
        else (rows.findSome? Record.instant).getD kNoTimestamp := by
      rw [List.findSome?_append]
      cases hf : rows.findSome? Record.instant with
      | none => by_cases hr : r.timestamp=kNoTimestamp <;> simp [Record.instant,hr]
      | some b => simp [hsome hf]
    have hlast : ((rows++[r]).reverse.findSome? Record.instant).getD kNoTimestamp=
        if r.timestamp≠kNoTimestamp then r.timestamp
        else (rows.reverse.findSome? Record.instant).getD kNoTimestamp := by
      by_cases hr : r.timestamp=kNoTimestamp <;> simp [Record.instant,hr]
    simp only [RunStats.of,hfirst,hlast,List.countP_append,List.countP_singleton,List.foldl_cons,List.foldl_nil,
      RunStats.fold]
    by_cases ht : r.timestamp=kNoTimestamp <;> cases hp : r.priority <;> simp [ht]

namespace LiveController

/-- After any session whose batches keep what the memos have taken in of the trailing record,
every question is answered as a count over the records there are. -/
theorem session_memos (c : LiveController) (content : Bytes) (actions : List Action)
    (hk : EachAppend KeepsExamined (c.reopened content) actions) :
    let d := ((c.reopened content).session actions).document
    (∀ i run,d.runs[i]?=some run →
      (d.runStatsOf i).2=.of (span d.index.records run.startRecord (d.endOf i)) ∧
        ∀row,run.startRecord≤row → row<d.endOf i → (d.runBaseTimestamp row).2=
          ((span d.index.records run.startRecord (d.endOf i)).findSome? Record.instant).getD kNoTimestamp) ∧
      d.fileStatsOf.2=.of d.index.records ∧
      (d.runs=[] → ∀row<d.index.records.length,(d.runBaseTimestamp row).2=
        (d.index.records.findSome? Record.instant).getD kNoTimestamp) := by
  have hc := (c.reopened_consistent content).session actions
  have hm := memos_session (c.reopened_consistent content) (.fresh ?_) hk
  · have hall : span ((c.reopened content).session actions).document.index.records 0
        ((c.reopened content).session actions).document.index.records.length=
          ((c.reopened content).session actions).document.index.records := by simp [span]
    refine ⟨fun i run hi => ⟨?_,fun row hs he => Document.runBaseTimestamp_run hm hc.partition hi hs he⟩,?_,
      fun hr row h => ?_⟩
    · rw [(Document.runStatsOf_spec hm hc.partition hi).1,foldSpan,RunStats.foldl_fold]
    · rw [(Document.fileStatsOf_spec hm).1,foldSpan,RunStats.foldl_fold,hall]
    · rw [Document.runBaseTimestamp_file hm hr h,firstSpan,hall]
  · exact c.document.rescan_memos content

/-- A whole line counted, then an error. -/
theorem session_memos_whole_lines :
    let c : LiveController := (⟨.levelled,.none⟩ : LiveController).reopened (ascii "WARN a\n")
    let d := (c.session [.fileStats,.append (ascii "ERROR b\n")]).document
    d.fileStatsOf.2=.of d.index.records := by
  refine (session_memos ⟨.levelled,.none⟩ (ascii "WARN a\n")
    [.fileStats,.append (ascii "ERROR b\n")] ⟨fun base hb => ?_,trivial⟩).2.1
  have hz : base=0 := Nat.succ_injective (hb.symm.trans (by decide))
  subst hz
  decide

/-- Half an error counted as a plain line: the whole one is never counted. -/
theorem session_memos_split_level :
    let c : LiveController := (⟨.levelled,.none⟩ : LiveController).reopened (ascii "ERR")
    let d := (c.session [.fileStats,.append (ascii "OR b\n")]).document
    d.fileStatsOf.2≠.of d.index.records := by decide

end LiveController

end Loftail
