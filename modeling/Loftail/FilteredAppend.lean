import Loftail.ContextResume
import Loftail.FilteredIndex

/-! # The visible subset is its list of emitted rows

Rows taken back from its end and rows appended there leave the subset of the rows that are
then listed, its copies and sums included. -/
namespace Loftail
open ContextEmitter BlockPrefixSums

namespace FilteredIndex

/-- The subset that lists the rows `out`, its sums given. -/
def shownWith (sums : List ℕ) (records : List Record) (out : List Emitted) : FilteredIndex :=
  {active := true
   ascending := true
   visible := out.map Prod.fst
   context := out.map Prod.snd
   contextCount := (out.map Prod.snd).count true
   compact := ⟨out.map (fun e => records.getD e.1 default),.empty,.empty,sums⟩}

/-- The subset that lists the rows `out`. -/
def shown (records : List Record) (out : List Emitted) : FilteredIndex :=
  shownWith (blockSums RecordIndex.displayLines kBlockSize
    (out.map (fun e => records.getD e.1 default))) records out

variable {records : List Record} {out : List Emitted}

private theorem strictlyAscending_of_pairwise {xs : List ℕ} (h : xs.Pairwise (·<·)) :
    strictlyAscending xs=true := by
  induction xs with
  | nil => rfl
  | cons a as ih =>
    cases as with
    | nil => rfl
    | cons b bs =>
      obtain ⟨ha,hb⟩ := List.pairwise_cons.mp h
      rw [strictlyAscending,ih hb,decide_eq_true (ha b (by simp)),Bool.and_self]

/-- What one pass publishes. -/
theorem setVisible_shown (h : out.Pairwise (fun e e' => e.1<e'.1)) :
    setVisible records (out.map Prod.fst) (out.map Prod.snd)=shown records out := by
  have hflags : (out.map Prod.snd++List.replicate ((out.map Prod.fst).length-(out.map Prod.snd).length) false).take
      (out.map Prod.fst).length=out.map Prod.snd := by simp
  have hasc : strictlyAscending (out.map Prod.fst)=true :=
    strictlyAscending_of_pairwise (List.pairwise_map.mpr h)
  simp only [setVisible,hflags,hasc,shown,shownWith,RecordIndex.rebuildBlockSums,blockSums,List.map_map,
    Function.comp_def]

theorem shown_congr {records' : List Record} (h : ∀e∈out,records'.getD e.1 default=records.getD e.1 default) :
    shown records' out=shown records out := by
  have hmap : out.map (fun e => records'.getD e.1 default)=out.map (fun e => records.getD e.1 default) :=
    List.map_congr_left h
  simp only [shown,shownWith,hmap]

/-! What is read back off the subset. -/

private theorem shownWith_zip (sums : List ℕ) : (shownWith sums records out).visible.zip
    (shownWith sums records out).context=out := by
  induction out with
  | nil => rfl
  | cons e es ih => simpa [shownWith] using ih

theorem lastMatchSource_shown (records : List Record) (out : List Emitted) :
    (shown records out).lastMatchSource=lastMatchRow out := by
  rw [lastMatchSource,shown,shownWith_zip]
  rfl

theorem lastVisibleSource_shownWith (sums : List ℕ) (records : List Record) (out : List Emitted) :
    (shownWith sums records out).lastVisibleSource=lastRow out := by
  simp only [lastVisibleSource,lastRow,shownWith,List.getLast?_map]
  cases out.getLast? <;> rfl

theorem trailingCountFrom_shown (records : List Record) (out : List Emitted) (row : ℤ) :
    (shown records out).trailingCountFrom row=rowsFrom out row := by
  simp only [trailingCountFrom,rowsFrom,shown,shownWith,← List.map_reverse,List.takeWhile_map,List.length_map]
  rfl

/-- The rows from `c` on are the trailing ones. -/
theorem rowsFrom_ascend (h : out.Pairwise (fun e e' => e.1<e'.1)) (c : ℕ) :
    rowsFrom out c=(out.filter (fun e => !decide (e.1<c))).length ∧
      out.filter (fun e => decide (e.1<c))++out.filter (fun e => !decide (e.1<c))=out := by
  induction out using List.reverseRecOn with
  | nil => simp [rowsFrom]
  | append_singleton es l ih =>
    obtain ⟨hes,-,hl⟩ := List.pairwise_append.mp h
    obtain ⟨ih₁,ih₂⟩ := ih hes
    by_cases hc : l.1<c
    · have hall : ∀e∈es,e.1<c := fun e he => (hl e he l (by simp)).trans hc
      have hnone : es.filter (fun e => !decide (e.1<c))=[] :=
        List.filter_eq_nil_iff.mpr fun e he => by simp [hall e he]
      refine ⟨by simp [rowsFrom,hc,hnone],?_⟩
      rw [hnone,List.append_nil] at ih₂
      simp [hc,hnone,ih₂]
    · have hle : (c : ℤ)≤l.1 := by omega
      refine ⟨?_,by simp [hc,← List.append_assoc,ih₂]⟩
      rw [rowsFrom] at ih₁ ⊢
      rw [List.reverse_append,List.reverse_singleton,List.singleton_append,List.takeWhile_cons_of_pos
        (by simpa using hle),List.length_cons,ih₁]
      simp [hc]

/-! The operations. -/

private theorem popLastVisible_concat (sums : List ℕ) (e : Emitted) :
    (shownWith sums records (out++[e])).popLastVisible=shownWith sums records out := by
  unfold popLastVisible
  rw [if_neg (by simp [shownWith])]
  cases h : e.2 <;> simp [shownWith,h]

private theorem popLastVisible_iterate (sums : List ℕ) (es : List Emitted) :
    popLastVisible^[es.length] (shownWith sums records (out++es))=shownWith sums records out := by
  induction es using List.reverseRecOn with
  | nil => simp
  | append_singleton es e ih =>
    rw [List.length_append,List.length_singleton,Function.iterate_succ_apply,← List.append_assoc,
      popLastVisible_concat,ih]

private theorem appendVisible_concat (sums : List ℕ) {e : Emitted} (h : (out++[e]).Pairwise (fun a b => a.1<b.1)) :
    (shownWith sums records out).appendVisible e.1 (records.getD e.1 default) e.2=shownWith sums records
    (out++[e]) := by
  have hasc : ((shownWith sums records out).visible.isEmpty ||
      decide ((shownWith sums records out).lastVisibleSource<e.1))=true := by
    rcases List.eq_nil_or_concat' out with rfl | ⟨es,l,rfl⟩
    · rfl
    · have hlt := (List.pairwise_append.mp h).2.2 l (by simp) e (by simp)
      simp [shownWith,lastVisibleSource,hlt]
  unfold appendVisible
  rw [hasc]
  cases he : e.2 <;> simp [shownWith,he]

private theorem appendVisible_foldl (sums : List ℕ) (es : List Emitted)
    (h : (out++es).Pairwise (fun a b => a.1<b.1)) :
    es.foldl (fun f e => f.appendVisible e.1 (records.getD e.1 default) e.2) (shownWith sums records out)=
      shownWith sums records (out++es) := by
  induction es generalizing out with
  | nil => simp
  | cons e es ih =>
    have happ : out++e::es=(out++[e])++es := by simp
    rw [happ] at h ⊢
    rw [List.foldl_cons,appendVisible_concat sums (List.pairwise_append.mp h).1,ih h]

/-- Sums right for other copies, which agree with these before `v`, are made right from there. -/
theorem extendCompactSums_shown {sums : List ℕ} {old : List Record} {v : ℕ}
    (hs : sums=blockSums RecordIndex.displayLines kBlockSize old) (hv : v≤old.length) (hn : v≤out.length)
    (ho : old.take v=(out.map (fun e => records.getD e.1 default)).take v) :
    (shownWith sums records out).extendCompactSums v=shown records out := by
  have hvalid := @RecordIndex.extendBlockSums_valid (shownWith sums records out).compact _ _ hs hv
    (by simpa [shownWith] using hn) ho
  rw [RecordIndex.SumsValid,RecordIndex.extendBlockSums_records] at hvalid
  rw [extendCompactSums,RecordIndex.extendBlockSums_eq,hvalid]
  rfl

@[simp] theorem recordCount_shownWith (sums : List ℕ) (source : List Record) :
    (shownWith sums records out).recordCount source=out.length := by simp [recordCount,shownWith]

/-- Rows from `c` on taken back. -/
theorem pop_shown (h : out.Pairwise (fun a b => a.1<b.1)) (c : ℕ) (source : List Record) :
    let popped := popLastVisible^[rowsFrom out c] (shown records out)
    popped.extendCompactSums (popped.recordCount source)=shown records (out.filter (fun e => decide (e.1<c))) := by
  obtain ⟨hrows,hsplit⟩ := rowsFrom_ascend h c
  have hpop := @popLastVisible_iterate records (out.filter (fun e => decide (e.1<c)))
    (blockSums RecordIndex.displayLines kBlockSize (out.map (fun e => records.getD e.1 default)))
    (out.filter (fun e => !decide (e.1<c)))
  rw [hsplit,← hrows] at hpop
  intro popped
  have hpopped : popped=_ := hpop
  have hlen := congrArg List.length hsplit
  rw [List.length_append] at hlen
  rw [hpopped,recordCount_shownWith]
  refine extendCompactSums_shown rfl (by rw [List.length_map]; omega) le_rfl ?_
  have hmap := congrArg (List.map (fun e : Emitted => records.getD e.1 default)) hsplit
  rw [List.map_append] at hmap
  rw [← hmap,List.take_append_of_le_length (by simp)]

/-- Rows appended. -/
theorem append_shown {es : List Emitted} (h : (out++es).Pairwise (fun a b => a.1<b.1)) (source : List Record) :
    (es.foldl (fun f e => f.appendVisible e.1 (records.getD e.1 default) e.2) (shown records out)).extendCompactSums
      ((shown records out).recordCount source)=shown records (out++es) := by
  rw [shown,appendVisible_foldl _ es h,recordCount_shownWith]
  exact extendCompactSums_shown rfl (by simp) (by simp) (by simp)

end FilteredIndex

end Loftail
