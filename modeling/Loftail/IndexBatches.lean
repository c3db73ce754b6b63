import Loftail.LineFold

/-! # The scan that hands its index over in batches

The worker emits what it has scanned a batch at a time; the controller holds the records and
interns the names. Whenever it is looked at, what it has is the front of the worker's index. -/
namespace Loftail
open DelimitedLines

/-- What one batch carries: the records settled since the one before, and the names first seen. -/
structure IndexBatch where
  final : Bool
  records : List Record
  newLoggers : List Text
  newThreads : List Text

/-- How much of the index has been streamed. Id 0 of either table is there from the start. -/
structure EmittedCounts where
  records : ℕ
  loggers : ℕ
  threads : ℕ

namespace Indexer

/-- The forward pass with what its callback keeps from chunk to chunk. -/
def scanFromWith {σ : Type} (ix : Indexer) (source : Bytes) (onChunk : ℕ→ScanState→σ→Bool×σ) :
    ℕ→ℕ→ScanState→σ→Option (Bool×ScanState×σ)
  | 0,_,_,_ => none
  | fuel+1,pos,s,k =>
    if pos < source.length then
      match ix.window source pos (source.length-pos+1) (min ix.chunkBytes (source.length-pos)) s with
      | none => none
      | some (buf,scan,s') =>
        if buf.isEmpty || scan=0 then some (true,s',k) else
          match onChunk (pos+scan) s' k with
          | (true,k') => ix.scanFromWith source onChunk fuel (pos+scan) s' k'
          | (false,k') => some (false,s',k')
    else some (true,s,k)

end Indexer

namespace IndexWorker

/-- The worker's `flush`: what is new since the last one, in a batch unless there is nothing to say. -/
def flush (e : EmittedCounts) (s : ScanState) (final : Bool) : EmittedCounts×List IndexBatch :=
  -- The last record is still open for continuations.
  let upto := if final then s.records.length else max e.records (s.records.length-1)
  let batch : IndexBatch := ⟨final,(s.records.take upto).drop e.records,s.loggers.names.drop e.loggers,
    s.threads.names.drop e.threads⟩
  (⟨max e.records upto,s.loggers.names.length,s.threads.names.length⟩,
    if batch.records≠[] ∨ batch.newLoggers≠[] ∨ batch.newThreads≠[] ∨ final then [batch] else [])

/-- What a chunk does: progress is reported, which may cancel, and what is settled is flushed. -/
def onChunk (progress : ℕ→Bool) (pos : ℕ) (s : ScanState) (k : EmittedCounts×List IndexBatch) :
    Bool×EmittedCounts×List IndexBatch :=
  if progress pos=false then (false,k) else
    let r := flush k.1 s false
    (true,r.1,k.2++r.2)

/-- `IndexWorker::run` over a source: whether it was cancelled, the index, and the batches in order. -/
def run (ix : Indexer) (source : Bytes) (progress : ℕ→Bool) : Option (Bool×RecordIndex×List IndexBatch) :=
  (ix.scanFromWith source (onChunk progress) (source.length-ix.decoder.bomLength+1) ix.decoder.bomLength
    ⟨[],.empty,.empty,none,false⟩ (⟨0,1,1⟩,[])).map fun (completed,s,e,batches) =>
      (!completed,(RecordIndex.mk s.records s.loggers s.threads []).rebuildBlockSums,batches++(flush e s true).2)

end IndexWorker

/-- The document's index, and the records held for it until the scan ends. -/
structure IndexController where
  index : RecordIndex
  pending : List Record
  running : Bool

namespace IndexController

/-- A controller of a document that has not been indexed. -/
def start : IndexController := ⟨.empty,[],true⟩

def onBatch (c : IndexController) (batch : IndexBatch) : IndexController :=
  {c with index := {c.index with loggers := batch.newLoggers.foldl (fun t name => (t.intern name).2) c.index.loggers
                                 threads :=
                                   batch.newThreads.foldl (fun t name => (t.intern name).2) c.index.threads}
          pending := c.pending++batch.records}

def onFinished (c : IndexController) : IndexController :=
  if c.pending=[] then {c with running := false} else
    {index := {c.index with records := c.index.records++c.pending}.rebuildBlockSums,pending := [],running := false}

def absorb (batches : List IndexBatch) : IndexController := batches.foldl onBatch start

end IndexController

section Interning

/-- Names none of which is known yet are numbered in their order. -/
theorem intern_foldl (t : InternTable) (names : List Text) (h : (t.names++names).Nodup) :
    (names.foldl (fun t name => (t.intern name).2) t).names=t.names++names := by
  induction names generalizing t with
  | nil => simp
  | cons name names ih =>
    have hnew : name∉t.names := by
      intro hmem
      exact (List.disjoint_of_nodup_append h) hmem List.mem_cons_self
    have hstep : (t.intern name).2.names=t.names++[name] := by
      rw [InternTable.intern_names,if_neg hnew]
    rw [List.foldl_cons,ih _ (by rw [hstep,List.append_assoc]; exact h),hstep,List.append_assoc]
    rfl

end Interning

namespace IndexWorker

/-- A later state of the scan: the records before the last are what they were, the tables go on. -/
structure Later (s s' : ScanState) : Prop where
  length : s.records.length ≤ s'.records.length
  settled : s.records.take (s.records.length-1)<+:s'.records
  loggers : s.loggers.Extends s'.loggers
  threads : s.threads.Extends s'.threads

/-- What the scan keeps: the open record is the last, and ids are in the tables. -/
structure Scanning (s : ScanState) : Prop where
  current : ∀i∈s.currentRecord,i+1=s.records.length
  interned : ∀r∈s.records,r.Interned s.loggers s.threads

section Steps
variable {ix : Indexer} {s s' s'' : ScanState}

theorem Later.refl (s : ScanState) : Later s s := ⟨le_rfl,List.take_prefix _ _,.refl _,.refl _⟩

theorem Later.trans (h : Later s s') (h' : Later s' s'') : Later s s'' where
  length := h.length.trans h'.length
  settled := by
    have hlen := h.length
    have hcut : s.records.take (s.records.length-1)<+:s'.records.take (s'.records.length-1) := by
      rw [List.prefix_take_iff]
      refine ⟨h.settled,?_⟩
      rw [List.length_take]
      omega
    exact hcut.trans h'.settled
  loggers := h.loggers.trans h'.loggers
  threads := h.threads.trans h'.threads

theorem later_append (s : ScanState) (fileOffset byteLen : ℕ) (f : LineFields) (parsed : Bool) :
    Later s (s.appendRecord fileOffset byteLen f parsed) := by
  refine ⟨?_,?_,internField_extends _ _,internField_extends _ _⟩
  · simp [ScanState.appendRecord]
  · exact (List.take_prefix _ _).trans (List.prefix_append _ _)

theorem scanning_append (h : Scanning s) (fileOffset byteLen : ℕ) (f : LineFields) (parsed : Bool) :
    Scanning (s.appendRecord fileOffset byteLen f parsed) := by
  refine ⟨?_,?_⟩
  · intro i hi
    rw [← Option.some_inj.mp hi]
    simp [ScanState.appendRecord]
  · intro r hr
    rcases List.mem_append.mp hr with hold | hnew
    · exact (h.interned r hold).extend (internField_extends _ _) (internField_extends _ _)
    · rw [List.mem_singleton.mp hnew]
      exact ⟨internField_lt _ _,internField_lt _ _⟩

/-- Only the last record is ever extended. -/
theorem later_extend (h : Scanning s) {i : ℕ} (hi : s.currentRecord=some i) (byteLen : ℕ) : Later s
    (s.extendRecord i byteLen) := by
  have hlast := h.current i hi
  refine ⟨by simp [ScanState.extendRecord],?_,.refl _,.refl _⟩
  rw [← hlast,Nat.add_sub_cancel,ScanState.extendRecord]
  simp only [List.modify_eq_take_drop]
  exact List.prefix_append _ _

private theorem scanning_extend (h : Scanning s) (i byteLen : ℕ) : Scanning (s.extendRecord i byteLen) := by
  refine ⟨?_,?_⟩
  · intro j hj
    have hlen := h.current j hj
    simpa [ScanState.extendRecord] using hlen
  · intro r hr
    obtain ⟨j,hj,rfl⟩ := List.getElem_of_mem hr
    simp only [ScanState.extendRecord,List.length_modify] at hj
    simp only [ScanState.extendRecord,List.getElem_modify]
    have hold := h.interned _ (List.getElem_mem hj)
    split
    · exact ⟨hold.1,hold.2⟩
    · exact hold

/-- The step lemma: one line through the scan. -/
theorem later_lineStep (h : Scanning s) (pos : ℕ) (line : Bytes) : Later s (ix.lineStep s pos line) ∧ Scanning
    (ix.lineStep s pos line) := by
  rw [Indexer.lineStep,Indexer.processLine]
  split
  · exact ⟨later_append s _ _ _ _,scanning_append h _ _ _ _⟩
  · split
    · rename_i i hi _
      exact ⟨later_extend h hi _,scanning_extend h _ _⟩
    · exact ⟨later_append s _ _ _ _,scanning_append h _ _ _ _⟩

/-- The run lemma: the lines of a window. -/
theorem later_foldLines (h : Scanning s) (pos : ℕ) (ls : List Bytes) :
    Later s (foldLines ix.lineStep pos s ls) ∧ Scanning (foldLines ix.lineStep pos s ls) := by
  induction ls generalizing pos s with
  | nil => exact ⟨Later.refl s,h⟩
  | cons line ls ih =>
    have hstep := @later_lineStep ix s h pos line
    have hrest := ih hstep.2 (pos+line.length)
    exact ⟨hstep.1.trans hrest.1,hrest.2⟩

end Steps

/-- What the controller has is what has been streamed of the worker's index. -/
structure Absorbed (c : IndexController) (e : EmittedCounts) (s : ScanState) : Prop where
  document : c.index.records=[]
  records : c.pending=s.records.take e.records
  loggers : c.index.loggers.names=s.loggers.names.take e.loggers
  threads : c.index.threads.names=s.threads.names.take e.threads
  known : ∀r∈c.pending,r.loggerId < e.loggers ∧ r.threadId < e.threads
  bounds : e.records ≤ s.records.length ∧ e.loggers ≤ s.loggers.names.length ∧ e.threads ≤ s.threads.names.length

/-- Nothing streamed is open for continuations. -/
def Settled (e : EmittedCounts) (s : ScanState) : Prop := e.records ≤ s.records.length-1

section Batches
variable {ix : Indexer} {c : IndexController} {e : EmittedCounts} {s s' : ScanState}

theorem take_of_extends {t u : InternTable} {n : ℕ} (h : t.Extends u) (hn : n≤t.names.length) :
    u.names.take n=t.names.take n := by
  obtain ⟨more,hmore⟩ := h
  rw [← hmore,List.take_append_of_le_length hn]

/-- What was streamed stays the front of the index as the scan goes on. -/
theorem Absorbed.later (h : Absorbed c e s) (hs : Settled e s) (hl : Later s s') : Absorbed c e s' ∧
    Settled e s' := by
  have hlen := hl.length
  obtain ⟨hb,hbl,hbt⟩ := h.bounds
  refine ⟨⟨h.document,?_,?_,?_,h.known,⟨by omega,hbl.trans hl.loggers.length_le,hbt.trans hl.threads.length_le⟩⟩,?_⟩
  · obtain ⟨more,hmore⟩ := hl.settled
    rw [h.records,← hmore,List.take_append_of_le_length (by rw [List.length_take]; rw [Settled] at hs; omega),
      List.take_take,Nat.min_eq_left hs]
  · rw [h.loggers,take_of_extends hl.loggers hbl]
  · rw [h.threads,take_of_extends hl.threads hbt]
  · rw [Settled] at hs ⊢
    omega

/-- The names of a table from `n` on, interned behind the ones before. -/
theorem intern_rest {t u : InternTable} {n : ℕ} (h : t.names=u.names.take n) :
    ((u.names.drop n).foldl (fun t name => (t.intern name).2) t).names=u.names := by
  have hall : t.names++u.names.drop n=u.names := by rw [h,List.take_append_drop]
  rw [intern_foldl t _ (by rw [hall]; exact u.nodup),hall]

/-- A flush, absorbed: the controller has all that is settled, and every name. -/
theorem flush_absorbed (h : Absorbed c e s) (hsc : Scanning s) (final : Bool) :
    Absorbed ((flush e s final).2.foldl IndexController.onBatch c) (flush e s final).1 s ∧
      (final=false→Settled e s→Settled (flush e s final).1 s) := by
  obtain ⟨hb,hbl,hbt⟩ := h.bounds
  have hloggers := intern_rest h.loggers
  have hthreads := intern_rest h.threads
  have hids (r : Record) (hr : r∈s.records) := hsc.interned r hr
  obtain ⟨upto,hupto⟩ : ∃upto,upto=if final then s.records.length else max e.records (s.records.length-1) := ⟨_,rfl⟩
  have hle : e.records≤upto := by
    rw [hupto]
    split <;> omega
  have hin : upto ≤ s.records.length := by
    rw [hupto]
    split <;> omega
  have hmax : max e.records upto=upto := Nat.max_eq_right hle
  have hrecords : c.pending++(s.records.take upto).drop e.records=s.records.take upto := by
    have hsplit := List.take_append_drop e.records (s.records.take upto)
    rw [List.take_take,Nat.min_eq_left hle] at hsplit
    rw [h.records,hsplit]
  refine ⟨?_,?_⟩
  · rw [flush]
    simp only [← hupto,hmax]
    split
    · refine ⟨h.document,hrecords,?_,?_,?_,hin,le_rfl,le_rfl⟩
      · rw [List.take_length]
        exact hloggers
      · rw [List.take_length]
        exact hthreads
      intro r hr
      rw [List.foldl_cons,List.foldl_nil] at hr
      have hmem : r∈s.records.take upto := by
        rw [← hrecords]
        exact hr
      exact hids r (List.mem_of_mem_take hmem)
    · -- Nothing to say: nothing is new.
      rename_i hquiet
      simp only [not_or,not_not] at hquiet
      obtain ⟨hr,hl,ht,-⟩ := hquiet
      rw [hr,List.append_nil] at hrecords
      rw [hl,List.foldl_nil] at hloggers
      rw [ht,List.foldl_nil] at hthreads
      refine ⟨h.document,hrecords,?_,?_,?_,hin,le_rfl,le_rfl⟩
      · rw [List.foldl_nil,hloggers,List.take_length]
      · rw [List.foldl_nil,hthreads,List.take_length]
      · intro r hr
        rw [List.foldl_nil,hrecords] at hr
        exact hids r (List.mem_of_mem_take hr)
  · intro hf hs
    rw [Settled] at hs ⊢
    rw [flush]
    simp only [← hupto,hmax]
    rw [hupto,hf]
    simpa using hs

/-- Every front of the batches so far, absorbed, is a front of the scan. -/
structure Streamed (k : EmittedCounts×List IndexBatch) (s : ScanState) : Prop where
  scanning : Scanning s
  whole : Absorbed (IndexController.absorb k.2) k.1 s
  settled : Settled k.1 s
  fronts : ∀n≤k.2.length,∃e,Absorbed (IndexController.absorb (k.2.take n)) e s ∧ Settled e s

private theorem streamed_start : Streamed (⟨0,1,1⟩,[]) ⟨[],.empty,.empty,none,false⟩ := by
  have hstart : Absorbed IndexController.start ⟨0,1,1⟩ ⟨[],.empty,.empty,none,false⟩ :=
    ⟨rfl,rfl,rfl,rfl,by simp [IndexController.start],le_rfl,le_rfl,le_rfl⟩
  refine ⟨⟨by simp,by simp⟩,hstart,le_rfl,fun n hn => ⟨⟨0,1,1⟩,?_,le_rfl⟩⟩
  rw [List.take_nil]
  exact hstart

theorem Streamed.later {k : EmittedCounts×List IndexBatch} (h : Streamed k s) (hl : Later s s')
    (hs : Scanning s') : Streamed k s' := by
  have hwhole := h.whole.later h.settled hl
  refine ⟨hs,hwhole.1,hwhole.2,fun n hn => ?_⟩
  obtain ⟨e,he,hset⟩ := h.fronts n hn
  exact ⟨e,he.later hset hl⟩

theorem absorb_append (batches more : List IndexBatch) :
    IndexController.absorb (batches++more)=more.foldl IndexController.onBatch (IndexController.absorb batches) :=
  List.foldl_append

/-- A flush adds one batch, or none. -/
theorem flush_length (e : EmittedCounts) (s : ScanState) (final : Bool) : (flush e s final).2.length≤1 := by
  have hone (P : Prop) [Decidable P] (b : IndexBatch) : (if P then [b] else []).length≤1 := by
    split <;> simp
  exact hone _ _

/-- What is true of the batches so far, and of them with what a flush adds, is true of every front. -/
theorem fronts_append {P : IndexController→Prop} {batches more : List IndexBatch} (hmore : more.length≤1)
    (h : ∀n≤batches.length,P (IndexController.absorb (batches.take n)))
    (hall : P (IndexController.absorb (batches++more))) :
    ∀n≤(batches++more).length,P (IndexController.absorb ((batches++more).take n)) := by
  intro n hn
  rw [List.length_append] at hn
  rcases Nat.lt_or_ge batches.length n with hlt | hge
  · rw [List.take_of_length_le (by rw [List.length_append]; omega)]
    exact hall
  · rw [List.take_append_of_le_length hge]
    exact h n hge

private theorem streamed_flush {k : EmittedCounts×List IndexBatch} (h : Streamed k s) :
    Streamed ((flush k.1 s false).1,k.2++(flush k.1 s false).2) s := by
  obtain ⟨hflushed,hset⟩ := flush_absorbed h.whole h.scanning false
  rw [← absorb_append] at hflushed
  refine ⟨h.scanning,hflushed,hset rfl h.settled,?_⟩
  exact @fronts_append (fun c => ∃e,Absorbed c e s ∧ Settled e s) _ _ (flush_length _ _ _) h.fronts
    ⟨_,hflushed,hset rfl h.settled⟩

/-- The run: a scan of any content in windows of any size, cancelled wherever it may be. -/
theorem scanFromWith_streamed (ix : Indexer) (source : Bytes) (progress : ℕ→Bool) (fuel pos : ℕ) (s : ScanState)
    (k : EmittedCounts×List IndexBatch) (hf : source.length-pos < fuel) (h : Streamed k s) :
    ∃done s' k',ix.scanFromWith source (onChunk progress) fuel pos s k=some (done,s',k') ∧ Streamed k' s' := by
  induction fuel generalizing pos s k with
  | zero => omega
  | succ fuel ih =>
    rw [Indexer.scanFromWith]
    by_cases hpos : pos < source.length
    · rw [if_pos hpos]
      have hchunk := ix.chunk
      obtain ⟨w,atEof,-,-,-,heq⟩ := @Indexer.window_eq ix source _ hpos (source.length-pos+1)
        (min ix.chunkBytes (source.length-pos)) s (by omega) (by omega) (by omega)
      rw [heq]
      generalize shownLines ix.decoder.finder atEof ((source.drop pos).take w)=ls
      have hlater := @later_foldLines ix s h.scanning pos ls
      have hnext := h.later hlater.1 hlater.2
      dsimp only
      split
      · exact ⟨_,_,_,rfl,hnext⟩
      · rename_i hscan
        have hpositive : 0 < ls.flatten.length := by
          by_contra hz
          have hz : ls.flatten.length=0 := by omega
          simp [hz] at hscan
        rw [onChunk]
        split
        · rename_i k' heq'
          split at heq'
          · simp at heq'
          · rw [Prod.mk.injEq] at heq'
            rw [← heq'.2]
            exact ih _ _ _ (by omega) (streamed_flush hnext)
        · rename_i k' heq'
          split at heq'
          · rw [Prod.mk.injEq] at heq'
            rw [← heq'.2]
            exact ⟨_,_,_,rfl,hnext⟩
          · simp at heq'
    · rw [if_neg hpos]
      exact ⟨_,_,_,rfl,h⟩

/-- The batches do not change the scan. -/
theorem scanFromWith_scanFrom (ix : Indexer) (source : Bytes) (progress : ℕ→Bool) (fuel pos : ℕ) (s : ScanState)
    (k : EmittedCounts×List IndexBatch) :
    (ix.scanFromWith source (onChunk progress) fuel pos s k).map (fun r => (r.1,r.2.1))=
      ix.scanFrom source progress fuel pos s := by
  induction fuel generalizing pos s k with
  | zero => rfl
  | succ fuel ih =>
    rw [Indexer.scanFromWith,Indexer.scanFrom]
    split
    · cases ix.window source pos (source.length-pos+1) (min ix.chunkBytes (source.length-pos)) s with
      | none => rfl
      | some r =>
        obtain ⟨buf,scan,s'⟩ := r
        dsimp only
        split
        · rfl
        · cases hp : progress (pos+scan) with
          | true =>
            rw [onChunk,hp]
            simp only [Bool.true_eq_false,if_false,if_true]
            exact ih _ _ _
          | false =>
            rw [onChunk,hp]
            rfl
    · rfl

end Batches

/-- A scan that was not cancelled is the one that is never asked. -/
theorem scanFrom_completed {ix : Indexer} {source : Bytes} {progress : ℕ→Bool} {fuel pos : ℕ} {s s' : ScanState}
    (h : ix.scanFrom source progress fuel pos s=some (true,s')) : ix.scanFrom source
    (fun _ => true) fuel pos s=some (true,s') := by
  induction fuel generalizing pos s with
  | zero => simp [Indexer.scanFrom] at h
  | succ fuel ih =>
    rw [Indexer.scanFrom] at h ⊢
    split
    · rename_i hpos
      rw [if_pos hpos] at h
      cases hw : ix.window source pos (source.length-pos+1) (min ix.chunkBytes (source.length-pos)) s with
      | none => simp [hw] at h
      | some r =>
        obtain ⟨buf,scan,s''⟩ := r
        rw [hw] at h
        dsimp only at h ⊢
        split
        · rename_i hend
          rw [if_pos hend] at h
          exact h
        · rename_i hend
          rw [if_neg hend] at h
          split at h
          · exact ih h
          · simp at h
    · rename_i hpos
      rw [if_neg hpos] at h
      exact h

end IndexWorker

/-- What the controller holds is a front of an index, every id of it naming what it names there. -/
structure IndexController.FrontOf (c : IndexController) (idx : RecordIndex) : Prop where
  records : c.pending<+:idx.records
  loggers : c.index.loggers.Extends idx.loggers
  threads : c.index.threads.Extends idx.threads
  names : ∀r∈c.pending,r.Interned c.index.loggers c.index.threads ∧
    c.index.loggers.name r.loggerId=idx.loggers.name r.loggerId ∧
      c.index.threads.name r.threadId=idx.threads.name r.threadId

namespace IndexWorker

theorem Absorbed.front {c : IndexController} {e : EmittedCounts} {s : ScanState} (h : Absorbed c e s) :
    c.FrontOf (RecordIndex.mk s.records s.loggers s.threads []).rebuildBlockSums := by
  obtain ⟨-,hbl,hbt⟩ := h.bounds
  have hl : c.index.loggers.Extends s.loggers := by
    rw [InternTable.Extends,h.loggers]
    exact List.take_prefix _ _
  have ht : c.index.threads.Extends s.threads := by
    rw [InternTable.Extends,h.threads]
    exact List.take_prefix _ _
  refine ⟨?_,hl,ht,fun r hr => ?_⟩
  · rw [h.records]
    exact List.take_prefix _ _
  · have hknown := h.known r hr
    have hin : r.Interned c.index.loggers c.index.threads := by
      refine ⟨?_,?_⟩
      · rw [h.loggers,List.length_take]
        omega
      · rw [h.threads,List.length_take]
        omega
    have hview := hin.view hl ht
    rw [Record.view,Record.view,RecordView.mk.injEq] at hview
    exact ⟨hin,hview.2.2.2.2.2.1.symm,hview.2.2.2.2.2.2.symm⟩

end IndexWorker

/-- For every content, window size and point of a cancel: the scan ends with the index of the one pass;
whichever front of its batches has been delivered, the controller holds a front of that index under the same
names; after the last batch it holds the whole, and the end of the scan hands the document just that. -/
theorem batches_reassemble (ix : Indexer) (source : Bytes) (progress : ℕ→Bool) :
    ∃cancelled idx batches,IndexWorker.run ix source progress=some (cancelled,idx,batches) ∧
      ix.index source progress=some (!cancelled,idx) ∧
      (cancelled=false→ix.index source (fun _ => true)=some (true,idx)) ∧
      (∀n≤batches.length,(IndexController.absorb (batches.take n)).index.records=[] ∧
        (IndexController.absorb (batches.take n)).FrontOf idx) ∧
      (IndexController.absorb batches).pending=idx.records ∧
      (IndexController.absorb batches).onFinished.index.records=idx.records ∧
      (IndexController.absorb batches).onFinished.index.loggers=idx.loggers ∧
      (IndexController.absorb batches).onFinished.index.threads=idx.threads := by
  obtain ⟨done,s,⟨e,batches⟩,hscan,hstreamed⟩ := IndexWorker.scanFromWith_streamed ix source progress
    (source.length-ix.decoder.bomLength+1) ix.decoder.bomLength _ _ (Nat.lt_succ_self _) IndexWorker.streamed_start
  have hsame := IndexWorker.scanFromWith_scanFrom ix source progress (source.length-ix.decoder.bomLength+1)
    ix.decoder.bomLength ⟨[],.empty,.empty,none,false⟩ (⟨0,1,1⟩,[])
  rw [hscan,Option.map_some] at hsame
  have hindex : ix.index source progress=some
    (done,(RecordIndex.mk s.records s.loggers s.threads []).rebuildBlockSums) := by
    rw [Indexer.index,Indexer.forwardScan,← hsame]
    rfl
  obtain ⟨hfinal,-⟩ := IndexWorker.flush_absorbed hstreamed.whole hstreamed.scanning true
  rw [← IndexWorker.absorb_append] at hfinal
  have hall : (IndexWorker.flush e s true).1=⟨s.records.length,s.loggers.names.length,s.threads.names.length⟩ := by
    have hle := hstreamed.whole.bounds.1
    rw [IndexWorker.flush,if_pos rfl,Nat.max_eq_right hle]
  rw [hall] at hfinal
  have hpending : (IndexController.absorb (batches++(IndexWorker.flush e s true).2)).pending=s.records := by
    rw [hfinal.records,List.take_length]
  have hloggers : (IndexController.absorb (batches++(IndexWorker.flush e s true).2)).index.loggers=s.loggers := by
    apply InternTable.ext
    rw [hfinal.loggers,List.take_length]
  have hthreads : (IndexController.absorb (batches++(IndexWorker.flush e s true).2)).index.threads=s.threads := by
    apply InternTable.ext
    rw [hfinal.threads,List.take_length]
  refine ⟨!done,(RecordIndex.mk s.records s.loggers s.threads []).rebuildBlockSums,
    batches++(IndexWorker.flush e s true).2,?_,?_,?_,?_,hpending,?_,?_,?_⟩
  · rw [IndexWorker.run,hscan]
    rfl
  · rw [Bool.not_not]
    exact hindex
  · intro hdone
    have hdone : done=true := by simpa using hdone
    rw [hdone] at hsame
    rw [Indexer.index,Indexer.forwardScan,IndexWorker.scanFrom_completed hsame.symm]
    rfl
  · have hfronts := @IndexWorker.fronts_append (fun c => ∃e,IndexWorker.Absorbed c e s) batches
      (IndexWorker.flush e s true).2
      (IndexWorker.flush_length _ _ _) (fun n hn => (hstreamed.fronts n hn).imp fun _ h => h.1) ⟨_,hfinal⟩
    intro n hn
    obtain ⟨e',he'⟩ := hfronts n hn
    exact ⟨he'.document,he'.front⟩
  · rw [IndexController.onFinished]
    split
    · rename_i hnil
      rw [hpending] at hnil
      rw [hfinal.document]
      exact hnil.symm
    · show (IndexController.absorb _).index.records++(IndexController.absorb _).pending=s.records
      rw [hfinal.document,hpending,List.nil_append]
  · rw [IndexController.onFinished]
    split
    · exact hloggers
    · exact hloggers
  · rw [IndexController.onFinished]
    split
    · exact hthreads
    · exact hthreads

/-- An indexer of lines that no pattern reads, a window of two bytes. -/
def lineIndexer : Indexer := ⟨Platform.ascii,.empty,.latin1,.invalid,2,by decide⟩

/-- Two lines make two batches of one record, and neither is in the document's index while the scan goes on. -/
theorem records_held : ¬∀ix source progress cancelled idx batches,IndexWorker.run ix source progress=some
    (cancelled,idx,batches)→
    ∀n≤batches.length,(IndexController.absorb (batches.take n)).index.records=
    (batches.take n).flatMap IndexBatch.records := by
  intro h
  have hrun : ∃cancelled idx batches,IndexWorker.run lineIndexer [97,10,98,10] (fun _ => true)=some
    (cancelled,idx,batches) ∧
      batches.map (fun b => b.records.length)=[1,1] ∧ (IndexController.absorb batches).index.records=[] :=
    ⟨_,_,_,rfl,rfl,rfl⟩
  obtain ⟨cancelled,idx,batches,heq,hlens,hheld⟩ := hrun
  have hall := h _ _ _ _ _ _ heq batches.length le_rfl
  rw [List.take_length,hheld] at hall
  have hcount := congrArg List.length hall
  rw [List.length_flatMap] at hcount
  simp [hlens] at hcount

end Loftail
