import Loftail.FetchForward

/-! # The spool file's committed bytes are the log's

In one generation, from its beginning through the fetches that follow, each resumed where the
published size says. -/
namespace Loftail

/-- Answers for the offsets from `o` on, each where the one before it ends. -/
def Contiguous : ℕ→List (ℕ×Bytes)→Prop
  | _,[] => True
  | o,c::cs => c.1=o ∧ Contiguous (o+c.2.length) cs

/-- The first `n` bytes on disk are what the transport answered for the offsets from `base` on, in
order: no gap, no byte twice, and there are so many. -/
def Holds (base : ℕ) (reads : List (ℕ×Bytes)) (disk : Bytes) (n : ℕ) : Prop :=
  ∃cs : List (ℕ×Bytes),cs.Sublist reads ∧ Contiguous base cs ∧ disk.take n=cs.flatMap Prod.snd ∧
    n=(cs.flatMap Prod.snd).length

section Holds
variable {base n : ℕ} {reads reads' : List (ℕ×Bytes)} {disk disk' got : Bytes}

private theorem contiguous_append {o : ℕ} {cs : List (ℕ×Bytes)} (h : Contiguous o cs) :
    Contiguous o (cs++[(o+(cs.flatMap Prod.snd).length,got)]) := by
  induction cs generalizing o with
  | nil => exact ⟨by simp,trivial⟩
  | cons c cs ih =>
    have htail := ih h.2
    rw [Nat.add_assoc,← List.length_append,← List.flatMap_cons] at htail
    exact ⟨h.1,htail⟩

theorem holds_zero : Holds base reads disk 0 := ⟨[],List.nil_sublist _,trivial,by simp,rfl⟩

theorem Holds.le (h : Holds base reads disk n) : n≤disk.length := by
  obtain ⟨cs,-,-,htake,hlen⟩ := h
  have hcount := congrArg List.length htake
  rw [List.length_take] at hcount
  omega

/-- What is on disk only grows, and so do the answers. -/
theorem Holds.mono (h : Holds base reads disk n) (hd : disk<+:disk') (hr : reads<+:reads') :
    Holds base reads' disk' n := by
  have hle := h.le
  obtain ⟨cs,hsub,hcont,htake,hlen⟩ := h
  obtain ⟨more,rfl⟩ := hd
  refine ⟨cs,hsub.trans hr.sublist,hcont,?_,hlen⟩
  rw [List.take_append_of_le_length hle,htake]

/-- The next answer behind what is held. -/
theorem Holds.append (h : Holds base reads disk n) (hn : disk.length=n) :
    Holds base (reads++[(base+n,got)]) (disk++got) (n+got.length) := by
  obtain ⟨cs,hsub,hcont,htake,hlen⟩ := h
  refine ⟨cs++[(base+n,got)],hsub.append (List.Sublist.refl _),?_,?_,?_⟩
  · rw [hlen]
    exact contiguous_append hcont
  · rw [List.take_of_length_le (by rw [List.length_append]; omega),List.flatMap_append,← htake,
      List.take_of_length_le hn.le]
    simp
  · rw [List.flatMap_append,List.length_append,← hlen]
    simp

end Holds

namespace Fetcher

/-- The claim of a spool: its committed bytes are the transport's. -/
def Mirrors (f : Fetcher) : Prop := Holds f.baseOffset f.reads f.spool f.committedSize

/-- No bytes on disk behind the committed ones. -/
def NoLeftover (f : Fetcher) : Prop := f.spool.length=f.committedSize

/-- Only what a fetch moves of a fetcher has moved, and only forwards. -/
structure Forward (f f' : Fetcher) : Prop where
  base : f'.baseOffset=f.baseOffset
  generation : f'.generation=f.generation
  hold : f'.holdBackCommits=f.holdBackCommits
  spools : f'.spools=f.spools
  reads : f.reads<+:f'.reads

variable {f f' f'' : Fetcher}

theorem Forward.refl (f : Fetcher) : Forward f f := ⟨rfl,rfl,rfl,rfl,List.prefix_rfl⟩

theorem Forward.trans (h : Forward f f') (h' : Forward f' f'') : Forward f f'' where
  base := h'.base.trans h.base
  generation := h'.generation.trans h.generation
  hold := h'.hold.trans h.hold
  spools := h'.spools.trans h.spools
  reads := h.reads.trans h'.reads

end Fetcher

namespace SshFetcher
open Fetcher BufferedFile

/-- Between two passes: the file ends where the next read begins. -/
structure Passing (f : Fetcher) (file : BufferedFile) (offset : ℕ) : Prop where
  flushed : file.pending=[]
  start : f.baseOffset≤offset
  ends : file.disk.length=offset-f.baseOffset
  fetched : Holds f.baseOffset f.reads file.disk (offset-f.baseOffset)
  committed : Holds f.baseOffset f.reads file.disk f.committedSize
  held : Holds f.baseOffset f.reads file.disk f.heldCommit

/-- Whatever has been published or is held back is the transport's, with `disk` in the generation's file. -/
def Safe (f : Fetcher) (disk : Bytes) : Prop :=
  Holds f.baseOffset f.reads disk f.committedSize ∧ Holds f.baseOffset f.reads disk f.heldCommit

section Loop
variable {names : FetchNames} {generation span to_ offset : ℕ} {f : Fetcher} {file : BufferedFile}

theorem Safe.grow {disk disk' : Bytes} (h : Safe f disk) (hd : disk<+:disk') : Safe f disk' :=
  ⟨h.1.mono hd List.prefix_rfl,h.2.mono hd List.prefix_rfl⟩

theorem Passing.safe (h : Passing f file offset) : Safe f file.disk := ⟨h.committed,h.held⟩

/-- A pass whose bytes have landed. -/
theorem Passing.publish {got : Bytes} (h : Passing f file offset) :
    Passing (publish {f with reads := f.reads++[(offset,got)]} (offset+got.length)) (.open_ (file.disk++got))
    (offset+got.length) := by
  have hstart := h.start
  have hends := h.ends
  have hoff : f.baseOffset+(offset-f.baseOffset)=offset := by omega
  have hsum : offset+got.length-f.baseOffset=offset-f.baseOffset+got.length := by omega
  have hnext := @Holds.append _ _ _ _ got h.fetched h.ends
  rw [hoff,← hsum] at hnext
  have hold := h.committed.mono (List.prefix_append file.disk got) (List.prefix_append f.reads [(offset,got)])
  refine ⟨rfl,?_,?_,hnext,?_,hnext⟩
  · show f.baseOffset≤_
    omega
  · show (file.disk++got).length=_-f.baseOffset
    rw [List.length_append]
    omega
  · show Holds f.baseOffset _ _ (if f.holdBackCommits then f.committedSize else _)
    split
    · exact hold
    · exact hnext

/-- Every run of the loop, to whatever end. -/
theorem fetchLoop_forward (passes : List FetchPass) (offset : ℕ) (f : Fetcher) (file : BufferedFile) :
    Forward f (fetchLoop names generation span to_ passes offset f file).1 := by
  induction passes generalizing offset f file with
  | nil =>
    rw [fetchLoop]
    split <;> exact Forward.refl f
  | cons pass passes ih =>
    rw [fetchLoop]
    split
    · exact Forward.refl f
    dsimp only
    have hstop : Forward f {f with stopping := f.stopping || pass.stop} := ⟨rfl,rfl,rfl,rfl,List.prefix_rfl⟩
    split
    · exact hstop
    split
    · exact hstop
    split
    · exact ⟨rfl,rfl,rfl,rfl,List.prefix_rfl⟩
    · rename_i answer hanswer
      generalize answer.take (min span (to_-offset))=got
      split
      · exact hstop
      have hreads : f.reads<+:f.reads++[(offset,got)] := List.prefix_append _ _
      split
      · exact ⟨rfl,rfl,rfl,rfl,hreads⟩
      split
      · exact ⟨rfl,rfl,rfl,rfl,hreads⟩
      have hstep : Forward f (publish {f with stopping := f.stopping || pass.stop,reads := f.reads++[(offset,got)]}
        (offset+got.length)) := ⟨rfl,rfl,rfl,rfl,hreads⟩
      exact hstep.trans (ih _ _ _)

theorem fetchLoop_safe (passes : List FetchPass) (h : Passing f file offset) :
    Safe (fetchLoop names generation span to_ passes offset f file).1
    (fetchLoop names generation span to_ passes offset f file).2.1.disk := by
  induction passes generalizing offset f file with
  | nil =>
    rw [fetchLoop]
    split <;> exact h.safe
  | cons pass passes ih =>
    rw [fetchLoop]
    split
    · exact h.safe
    dsimp only
    split
    · exact h.safe
    split
    · exact h.safe
    split
    · exact h.safe
    · rename_i answer hanswer
      generalize answer.take (min span (to_-offset))=got
      split
      · exact h.safe
      have hreads : f.reads<+:f.reads++[(offset,got)] := List.prefix_append _ _
      have hwrite := disk_write file got pass.write
      have hsafe {disk : Bytes} (hd : file.disk<+:disk) :
        Holds f.baseOffset (f.reads++[(offset,got)]) disk f.committedSize ∧
          Holds f.baseOffset (f.reads++[(offset,got)]) disk f.heldCommit :=
        ⟨h.committed.mono hd hreads,h.held.mono hd hreads⟩
      split
      · exact hsafe hwrite
      rename_i hwritten
      split
      · exact hsafe (hwrite.trans (disk_flush (file.write got pass.write).1 pass.flush))
      rename_i hflushed
      -- The write and the flush took everything: the file ends at the next offset.
      have hnone : pass.flush=none := by
        cases hf : pass.flush with
        | none => rfl
        | some k =>
          rw [hf] at hflushed
          simp [flush] at hflushed
      rw [hnone,write_flush (not_not.mp hwritten),h.flushed,List.append_nil]
      have hpass : Passing {f with stopping := f.stopping || pass.stop} file offset := ⟨h.1,h.2,h.3,h.4,h.5,h.6⟩
      exact ih (@Passing.publish offset _ file got hpass)

/-- A call moves no counter of the generation but the published and the held ones. -/
theorem fetchForward_forward (f : Fetcher) (names : FetchNames) (fromRemoteOffset toRemoteOffset : ℕ)
    (call : FetchCall) :
    (fetchForward f names fromRemoteOffset toRemoteOffset call).1.baseOffset=f.baseOffset ∧
      (fetchForward f names fromRemoteOffset toRemoteOffset call).1.generation=f.generation ∧
      (fetchForward f names fromRemoteOffset toRemoteOffset call).1.holdBackCommits=f.holdBackCommits := by
  rw [fetchForward]
  dsimp only
  split
  · exact ⟨rfl,rfl,rfl⟩
  have hforward := @fetchLoop_forward names f.generation
    (min (toRemoteOffset-fromRemoteOffset) kSshFetchChunkBytes) toRemoteOffset
    call.passes fromRemoteOffset f (.open_ (f.spools f.generation))
  split
  · exact ⟨hforward.base,hforward.generation,hforward.hold⟩
  · exact ⟨hforward.base,hforward.generation,hforward.hold⟩

/-- One call from where the published size says, the file ending there. -/
theorem fetchForward_safe {toRemoteOffset : ℕ} (call : FetchCall) (h : Safe f f.spool) (hclean : NoLeftover f) :
    Safe (fetchForward f names f.consumed toRemoteOffset call).1
    (fetchForward f names f.consumed toRemoteOffset call).1.spool := by
  rw [fetchForward]
  dsimp only
  split
  · exact h
  have hoff : f.consumed-f.baseOffset=f.committedSize := by rw [consumed,Nat.add_sub_cancel_left]
  have hpass : Passing f (.open_ (f.spools f.generation)) f.consumed := by
    refine ⟨rfl,Nat.le_add_right _ _,?_,?_,h.1,h.2⟩
    · rw [hoff]
      exact hclean
    · rw [hoff]
      exact h.1
  have hforward := @fetchLoop_forward names f.generation
    (min (toRemoteOffset-f.consumed) kSshFetchChunkBytes) toRemoteOffset
    call.passes f.consumed f (.open_ (f.spools f.generation))
  have hsafe := @fetchLoop_safe names f.generation (min (toRemoteOffset-f.consumed) kSshFetchChunkBytes)
    toRemoteOffset _ f _ call.passes hpass
  generalize fetchLoop names f.generation
    (min (toRemoteOffset-f.consumed) kSshFetchChunkBytes) toRemoteOffset call.passes
    f.consumed f (.open_ (f.spools f.generation))=r at hforward hsafe ⊢
  have hspool (bytes : Bytes) : (r.1.setSpool f.generation bytes).spool=bytes := by
    rw [spool,setSpool]
    simp [hforward.generation]
  split
  · rw [hspool]
    exact hsafe
  · rw [hspool]
    exact Safe.grow hsafe (disk_close _ _)

end Loop

end SshFetcher

/-- Where a generation stands: begun, between two fetches, in the middle of one, or given up with the session. -/
inductive FetchPhase
  | begun | ready | busy | lost
  deriving DecidableEq

namespace SshFetcher
open Fetcher

/-- Where a call leaves the generation. -/
def phaseAfter (result : Option Bool) : FetchPhase := if result.isSome then .ready else .busy

/-- One generation of a log, from its beginning: the first fetch of an attempt or of a rotation, then those of
the polls; `Allowed` is what holds of a fetcher when a poll starts a fetch. -/
inductive Run (names : FetchNames) (Allowed : Fetcher→Prop) : Fetcher→FetchPhase→Prop
  | begin_ (f : Fetcher) (remoteSize tailStartBytes : ℕ) (hold : f.holdBackCommits=false) :
    Run names Allowed (beginGeneration f names remoteSize tailStartBytes true).1 .begun
  | prime {f : Fetcher} (h : Run names Allowed f .begun) (size : ℕ) (call : FetchCall) :
    Run names Allowed (prime f names size call).1
      (if (prime f names size call).2=some false then .lost else phaseAfter (prime f names size call).2)
  | fetch {f : Fetcher} {phase : FetchPhase} (h : Run names Allowed f phase) (hphase : phase=.begun ∨ phase=.ready)
    (ha : Allowed f) (toRemoteOffset : ℕ) (call : FetchCall) :
    Run names Allowed (fetchForward f names f.consumed toRemoteOffset call).1
      (phaseAfter (fetchForward f names f.consumed toRemoteOffset call).2)
  | state {f : Fetcher} (h : Run names Allowed f .ready) (state : FetchState) :
    Run names Allowed (f.setState state) .ready

/-- What holds of a generation along its run. -/
structure Kept (f : Fetcher) (phase : FetchPhase) : Prop where
  safe : Safe f f.spool
  fresh : phase=.begun→f.spool=[] ∧ f.committedSize=0
  free : phase≠.busy→f.holdBackCommits=false

section Runs
variable {names : FetchNames} {f : Fetcher}

theorem kept_begin (remoteSize tailStartBytes : ℕ) (hold : f.holdBackCommits=false) :
    Kept (beginGeneration f names remoteSize tailStartBytes true).1 .begun := by
  have hspool : (beginGeneration f names remoteSize tailStartBytes true).1.spool=[] := by
    simp [beginGeneration,Fetcher.beginGeneration,Fetcher.spool,setSpool]
  refine ⟨?_,fun _ => ⟨hspool,rfl⟩,fun _ => hold⟩
  exact ⟨holds_zero,holds_zero⟩

private theorem phaseAfter_ne {result : Option Bool} : phaseAfter result≠.begun := by
  rw [phaseAfter]
  split <;> simp

private theorem kept_fetch {phase : FetchPhase} (h : Kept f phase) (hphase : phase=.begun ∨ phase=.ready)
    (ha : NoLeftover f) (toRemoteOffset : ℕ) (call : FetchCall) :
    Kept (fetchForward f names f.consumed toRemoteOffset call).1
      (phaseAfter (fetchForward f names f.consumed toRemoteOffset call).2) := by
  refine ⟨fetchForward_safe call h.safe ha,fun hbegun => absurd hbegun phaseAfter_ne,fun _ => ?_⟩
  rw [(fetchForward_forward f names f.consumed toRemoteOffset call).2.2]
  apply h.free
  rcases hphase with rfl | rfl <;> simp

/-- The first fetch of an attempt publishes all it held back, or nothing. -/
theorem kept_prime (h : Kept f .begun) (size : ℕ) (call : FetchCall) :
    Kept (prime f names size call).1
      (if (prime f names size call).2=some false then .lost else phaseAfter (prime f names size call).2) := by
  obtain ⟨hspool,hzero⟩ := h.fresh rfl
  have hheld : Safe {f with holdBackCommits := true} {f with holdBackCommits := true}.spool := h.safe
  have hclean : NoLeftover {f with holdBackCommits := true} := by
    show f.spool.length=f.committedSize
    rw [hspool,hzero]
    rfl
  have hsafe : Safe (primed {f with holdBackCommits := true} names size call).1
      (primed {f with holdBackCommits := true} names size call).1.spool := by
    have hfrom : {f with holdBackCommits := true}.consumed=f.baseOffset := by
      show f.baseOffset+f.committedSize=f.baseOffset
      rw [hzero,Nat.add_zero]
    rw [primed]
    dsimp only
    split
    · exact hheld
    · have hfetch := @fetchForward_safe names _ (min size (f.baseOffset+kPrimeBytes)) call hheld hclean
      rw [hfrom] at hfetch
      exact hfetch
  rw [prime]
  generalize primed {f with holdBackCommits := true} names size call=r at hsafe ⊢
  obtain ⟨g,result⟩ := r
  rcases result with - | - | -
  · exact ⟨hsafe,fun hbegun => by simp [phaseAfter] at hbegun,fun hbusy => by simp [phaseAfter] at hbusy⟩
  · exact ⟨hsafe,fun hbegun => by simp at hbegun,fun _ => rfl⟩
  · refine ⟨⟨?_,hsafe.2⟩,fun hbegun => by simp [phaseAfter] at hbegun,fun _ => rfl⟩
    show Holds g.baseOffset g.reads g.spool (max g.heldCommit g.committedSize)
    rcases max_choice g.heldCommit g.committedSize with hmax | hmax <;> rw [hmax]
    · exact hsafe.2
    · exact hsafe.1

theorem prime_base (f : Fetcher) (names : FetchNames) (size : ℕ) (call : FetchCall) :
    (prime f names size call).1.baseOffset=f.baseOffset := by
  have hbase : (primed {f with holdBackCommits := true} names size call).1.baseOffset=f.baseOffset := by
    rw [primed]
    dsimp only
    split
    · rfl
    · exact (fetchForward_forward _ _ _ _ _).1
  rw [prime]
  generalize primed {f with holdBackCommits := true} names size call=r at hbase ⊢
  obtain ⟨g,result⟩ := r
  rcases result with - | - | - <;> exact hbase

private theorem run_kept {phase : FetchPhase} (h : Run names NoLeftover f phase) : Kept f phase := by
  induction h with
  | begin_ f remoteSize tailStartBytes hold => exact kept_begin remoteSize tailStartBytes hold
  | prime _ size call ih => exact kept_prime ih size call
  | fetch _ hphase ha toRemoteOffset call ih => exact kept_fetch ih hphase ha toRemoteOffset call
  | state _ state ih => exact ⟨ih.safe,ih.fresh,ih.free⟩

end Runs

end SshFetcher

namespace ConsoleFetcher
open Fetcher BufferedFile

/-- Every flush of a call moves the whole buffer. -/
def Flushes (call : FetchCall) : Prop := ∀pass∈call.passes,pass.flush=none

/-- Between two passes: the file ends where the next read begins, and that is what is published, or nothing
was fetched since the start of the call. -/
structure Passing (f : Fetcher) (file : BufferedFile) (offset : ℕ) : Prop where
  flushed : file.pending=[]
  start : f.baseOffset≤offset
  ends : file.disk.length=offset-f.baseOffset
  published : f.committedSize=offset-f.baseOffset
  fetched : Holds f.baseOffset f.reads file.disk f.committedSize

section Loop
variable {names : FetchNames} {generation to_ offset : ℕ} {f : Fetcher} {file : BufferedFile}

theorem Passing.publish {got : Bytes} (h : Passing f file offset) :
    Passing {f with reads := f.reads++[(offset,got)],committedSize := offset+got.length-f.baseOffset}
      (.open_ (file.disk++got)) (offset+got.length) := by
  have hstart := h.start
  have hends := h.ends
  have hoff : f.baseOffset+(offset-f.baseOffset)=offset := by omega
  have hsum : offset+got.length-f.baseOffset=offset-f.baseOffset+got.length := by omega
  have hfetched := h.fetched
  rw [h.published] at hfetched
  have hnext := @Holds.append _ _ _ _ got hfetched h.ends
  rw [hoff,← hsum] at hnext
  refine ⟨rfl,?_,?_,rfl,hnext⟩
  · show f.baseOffset≤_
    omega
  · show (file.disk++got).length=_-f.baseOffset
    rw [List.length_append]
    omega

/-- Every run of the loop whose flushes move the buffer, to whatever end. -/
theorem fetchLoop_safe (passes : List FetchPass) (hp : ∀pass∈passes,pass.flush=none) (h : Passing f file offset) :
    Forward f (fetchLoop names generation to_ passes offset f file).1 ∧
      Holds (fetchLoop names generation to_ passes offset f file).1.baseOffset
        (fetchLoop names generation to_ passes offset f file).1.reads
        (fetchLoop names generation to_ passes offset f file).2.1.disk
        (fetchLoop names generation to_ passes offset f file).1.committedSize := by
  induction passes generalizing offset f file with
  | nil =>
    rw [fetchLoop]
    split <;> exact ⟨Forward.refl f,h.fetched⟩
  | cons pass passes ih =>
    rw [fetchLoop]
    split
    · exact ⟨Forward.refl f,h.fetched⟩
    dsimp only
    have hstop : Forward f {f with stopping := f.stopping || pass.stop} := ⟨rfl,rfl,rfl,rfl,List.prefix_rfl⟩
    split
    · exact ⟨hstop,h.fetched⟩
    split
    · exact ⟨⟨rfl,rfl,rfl,rfl,List.prefix_rfl⟩,h.fetched⟩
    · rename_i answer hanswer
      generalize answer.take (min names.chunkBytes (to_-offset))=got
      split
      · exact ⟨hstop,h.fetched⟩
      have hreads : f.reads<+:f.reads++[(offset,got)] := List.prefix_append _ _
      split
      · exact ⟨⟨rfl,rfl,rfl,rfl,hreads⟩,h.fetched.mono (disk_write file got pass.write) hreads⟩
      rename_i hwritten
      have hnone : pass.flush=none := hp pass List.mem_cons_self
      rw [hnone,write_flush (not_not.mp hwritten),h.flushed,List.append_nil]
      have hpass : Passing {f with stopping := f.stopping || pass.stop} file offset := ⟨h.1,h.2,h.3,h.4,h.5⟩
      obtain ⟨hforward,hend⟩ := ih (fun p hmem => hp p (List.mem_cons_of_mem _ hmem))
        (@Passing.publish offset _ file got hpass)
      have hstep : Forward f {f with stopping := f.stopping || pass.stop,reads := f.reads++[(offset,got)],
                                     committedSize := offset+got.length-f.baseOffset} := ⟨rfl,rfl,rfl,rfl,hreads⟩
      exact ⟨hstep.trans hforward,hend⟩

private theorem fetchForward_mirrors {to_ : ℕ} (call : FetchCall) (h : Mirrors f) (hclean : NoLeftover f)
    (hflush : Flushes call) :
    Mirrors (fetchForward f names f.consumed to_ call).1 := by
  rw [fetchForward]
  dsimp only
  split
  · exact h
  have hoff : f.consumed-f.baseOffset=f.committedSize := by rw [consumed,Nat.add_sub_cancel_left]
  have hpass : Passing f (.open_ (f.spools f.generation)) f.consumed :=
    ⟨rfl,Nat.le_add_right _ _,hclean.trans hoff.symm,hoff.symm,h⟩
  obtain ⟨hforward,hholds⟩ := @fetchLoop_safe names f.generation to_ _ f _ call.passes hflush hpass
  generalize fetchLoop names f.generation to_ call.passes f.consumed f (.open_ (f.spools f.generation))=
    r at hforward hholds ⊢
  have hspool (bytes : Bytes) : (r.1.setSpool f.generation bytes).spool=bytes := by
    rw [spool,setSpool]
    simp [hforward.generation]
  split
  · rw [Mirrors,hspool]
    exact hholds
  · rw [Mirrors,hspool]
    exact hholds.mono (disk_close _ _) List.prefix_rfl

end Loop

/-- One generation of a log, from its beginning through the fetches that follow; `Allowed` is what holds of a
fetcher and of the fetch it starts. -/
inductive Run (names : FetchNames) (Allowed : Fetcher→FetchCall→Prop) : Fetcher→FetchPhase→Prop
  | begin_ (f : Fetcher) (size tailStartBytes : ℕ) :
    Run names Allowed (f.beginGeneration names size tailStartBytes true).1 .begun
  | fetch {f : Fetcher} {phase : FetchPhase} (h : Run names Allowed f phase) (hphase : phase=.begun ∨ phase=.ready)
    (to_ : ℕ) (call : FetchCall) (ha : Allowed f call) :
    Run names Allowed (fetchForward f names f.consumed to_ call).1
      (SshFetcher.phaseAfter (fetchForward f names f.consumed to_ call).2)
  | state {f : Fetcher} (h : Run names Allowed f .ready) (state : FetchState) :
    Run names Allowed (f.setState state) .ready

private theorem run_mirrors {names : FetchNames} {f : Fetcher} {phase : FetchPhase}
    (h : Run names (fun f call => NoLeftover f ∧ Flushes call) f phase) : Mirrors f := by
  induction h with
  | begin_ f size tailStartBytes => exact holds_zero
  | fetch _ hphase to_ call ha ih => exact fetchForward_mirrors call ih ha.1 ha.2
  | state _ state ih => exact ih

end ConsoleFetcher

/-- In every generation of either fetcher the spool's committed bytes are the log's, as long as no fetch starts
with bytes left behind the committed ones and, over a console, no flush fails. -/
theorem spool_mirrors (names : FetchNames) :
    (∀f phase,SshFetcher.Run names Fetcher.NoLeftover f phase→f.Mirrors) ∧
      ∀f phase,ConsoleFetcher.Run names
      (fun f call => f.NoLeftover ∧ ConsoleFetcher.Flushes call) f phase→f.Mirrors :=
  ⟨fun _ _ h => (SshFetcher.run_kept h).safe.1,fun _ _ h => ConsoleFetcher.run_mirrors h⟩

section Leftover

def plainNames : FetchNames := ⟨"host","host","/log",fun _ => "spool",512⟩

def idleFetcher : Fetcher := ⟨.connecting,"",0,0,0,0,0,false,false,fun _ => [],[]⟩

/-- A generation of a log of two bytes, of which nothing has been fetched. -/
def begunFetcher : Fetcher := (SshFetcher.beginGeneration idleFetcher plainNames 2 0 true).1

/-- One pass that reads the two bytes and takes them into the buffer. -/
def twoBytes (flush : Option ℕ) (closing : ℕ) : FetchCall := ⟨true,[⟨false,.ok [97,98],.buffered,flush⟩],closing⟩

/-- The flush of the first fetch moves one byte and fails; the second fetch starts behind it. -/
def doubledFetcher : Fetcher :=
  let f := (SshFetcher.fetchForward begunFetcher plainNames begunFetcher.consumed 2 (twoBytes (some 1) 0)).1
  (SshFetcher.fetchForward f plainNames f.consumed 2 (twoBytes none 0)).1

/-- A flush that moves nothing, not looked at. -/
def unwrittenFetcher : Fetcher :=
  let f := (idleFetcher.beginGeneration plainNames 2 0 true).1
  (ConsoleFetcher.fetchForward f plainNames f.consumed 2 (twoBytes (some 0) 0)).1

private theorem doubledFetcher_data : doubledFetcher.spool=[97,97,98] ∧ doubledFetcher.committedSize=2 ∧
    doubledFetcher.reads=[(0,[97,98]),(0,[97,98])] := by decide

private theorem doubledFetcher_not : ¬doubledFetcher.Mirrors := by
  rintro ⟨cs,hsub,-,htake,hlen⟩
  obtain ⟨hspool,hsize,hreads⟩ := doubledFetcher_data
  rw [hspool,hsize] at htake
  rw [hsize] at hlen
  rw [hreads] at hsub
  cases cs with
  | nil => simp at hlen
  | cons c cs =>
    have hmem := hsub.subset List.mem_cons_self
    have hc : c.2=[97,98] := by
      simp only [List.mem_cons,List.not_mem_nil,or_false,or_self] at hmem
      rw [hmem]
    rw [List.flatMap_cons,hc] at htake
    simp at htake

/-- A byte is in the spool twice after a flush that failed half-way over SSH; over a console a size is published of
bytes that are not in it. -/
theorem leftover_bytes : (¬∀f phase,SshFetcher.Run plainNames (fun _ => True) f phase→f.Mirrors) ∧
    ¬∀f phase,ConsoleFetcher.Run plainNames (fun _ _ => True) f phase→f.Mirrors := by
  constructor
  · intro h
    have hbegun : SshFetcher.Run plainNames (fun _ => True) begunFetcher .begun := .begin_ idleFetcher 2 0 rfl
    have hfirst := SshFetcher.Run.fetch hbegun (Or.inl rfl) trivial 2 (twoBytes (some 1) 0)
    exact doubledFetcher_not (h _ _ (.fetch hfirst (Or.inr (by decide)) trivial 2 (twoBytes none 0)))
  · intro h
    have hbegun : ConsoleFetcher.Run plainNames (fun _ _ => True)
      (idleFetcher.beginGeneration plainNames 2 0 true).1 .begun :=
      .begin_ idleFetcher 2 0
    have hholds := h _ _ (.fetch hbegun (Or.inl rfl) 2 (twoBytes (some 0) 0) trivial)
    have hle : unwrittenFetcher.committedSize≤unwrittenFetcher.spool.length := hholds.le
    revert hle
    decide

theorem spool_mirrors_fetched : ∃f,SshFetcher.Run plainNames Fetcher.NoLeftover f .ready ∧ f.committedSize=2 ∧
    f.Mirrors := by
  have hbegun : SshFetcher.Run plainNames Fetcher.NoLeftover begunFetcher .begun := .begin_ idleFetcher 2 0 rfl
  have hrun := SshFetcher.Run.fetch hbegun (Or.inl rfl) (by decide : begunFetcher.spool.length=_) 2
    (twoBytes none 0)
  exact ⟨_,hrun,by decide,(spool_mirrors plainNames).1 _ _ hrun⟩

end Leftover

end Loftail
