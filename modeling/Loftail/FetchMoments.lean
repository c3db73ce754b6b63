import Loftail.AppendOnlyLog

/-! # The moments of a fetch

A fetch that is looked at in the middle has done a part of its passes. From one moment to a later one nothing that
was on disk or committed is taken back. -/
namespace Loftail
open Fetcher BufferedFile

namespace SshFetcher

/-- One pass: the loop ends with it, or goes on from where it left. -/
def pass (names : FetchNames) (generation span to_ offset : ℕ) (pass : FetchPass) (f : Fetcher)
    (file : BufferedFile) :
    Fetched⊕(ℕ×Fetcher×BufferedFile) :=
  let f := {f with stopping := f.stopping || pass.stop}
  if f.stopping then .inl (f,file,some true)
  else if f.generation≠generation then .inl (f,file,some true)
  else
    match pass.read with
    | .error why => .inl (f.setError (if why="" then "Lost the connection to "++names.host++"." else why),
      file,some false)
    | .ok answer =>
      let got := answer.take (min span (to_-offset))
      if got=[] then .inl (f,file,some true) else
      let f := {f with reads := f.reads++[(offset,got)]}
      let failed := f.setError ("Cannot write to the local cache file "++names.spoolPath generation++".")
      let written := file.write got pass.write
      if written.2≠got.length then .inl (failed,written.1,some false) else
      let flushed := written.1.flush pass.flush
      if flushed.2=false then .inl (failed,flushed.1,some false) else
      if f.generation≠generation then .inl (f,flushed.1,some true) else
      .inr (offset+got.length,publish f (offset+got.length),flushed.1)

variable {names : FetchNames} {generation span to_ offset : ℕ} {f : Fetcher} {file : BufferedFile}

theorem fetchLoop_cons (hmore : ¬to_≤offset) (first : FetchPass) (passes : List FetchPass) :
    fetchLoop names generation span to_ (first::passes) offset f file=
      match pass names generation span to_ offset first f file with
      | .inl r => r
      | .inr next => fetchLoop names generation span to_ passes next.1 next.2.1 next.2.2 := by
  rw [fetchLoop,pass,if_neg hmore]
  dsimp only
  split
  · rfl
  split
  · rfl
  cases first.read with
  | error why => rfl
  | ok answer =>
    dsimp only
    split
    · rfl
    split
    · rfl
    split
    · rfl
    · rfl

/-- What a later moment of a fetch has: no less on disk, no less committed, and what was read. -/
structure Grows (f : Fetcher) (file : BufferedFile) (g : Fetcher) (file' : BufferedFile) : Prop where
  disk : file.disk<+:file'.disk
  committed : f.committedSize≤g.committedSize
  reads : f.reads<+:g.reads

theorem Grows.refl (f : Fetcher) (file : BufferedFile) : Grows f file f file :=
  ⟨List.prefix_rfl,le_rfl,List.prefix_rfl⟩

theorem Grows.trans {g k : Fetcher} {file' file'' : BufferedFile} (h : Grows f file g file')
    (h' : Grows g file' k file'') : Grows f file k file'' :=
  ⟨h.disk.trans h'.disk,h.committed.trans h'.committed,h.reads.trans h'.reads⟩

/-- A pass ends the fetch, or leaves the file ending where the next read begins. -/
def Passed (f : Fetcher) (file : BufferedFile) : Fetched⊕(ℕ×Fetcher×BufferedFile)→Prop
  | .inl r => Grows f file r.1 r.2.1 ∧ r.2.2≠none
  | .inr next => Grows f file next.2.1 next.2.2 ∧ Passing next.2.1 next.2.2 next.1

theorem pass_grows (first : FetchPass) (h : Passing f file offset) :
    Passed f file (pass names generation span to_ offset first f file) := by
  rw [pass]
  dsimp only
  have hstop : Grows f file {f with stopping := f.stopping || first.stop} file :=
    ⟨List.prefix_rfl,le_rfl,List.prefix_rfl⟩
  split
  · exact ⟨hstop,Option.some_ne_none _⟩
  split
  · exact ⟨hstop,Option.some_ne_none _⟩
  cases first.read with
  | error why => exact ⟨⟨List.prefix_rfl,le_rfl,List.prefix_rfl⟩,Option.some_ne_none _⟩
  | ok answer =>
    dsimp only
    generalize answer.take (min span (to_-offset))=got
    split
    · exact ⟨hstop,Option.some_ne_none _⟩
    have hreads : f.reads<+:f.reads++[(offset,got)] := List.prefix_append _ _
    have hwrite := disk_write file got first.write
    split
    · exact ⟨⟨hwrite,le_rfl,hreads⟩,Option.some_ne_none _⟩
    rename_i hwritten
    split
    · exact ⟨⟨hwrite.trans (disk_flush (file.write got first.write).1 first.flush),le_rfl,hreads⟩,
        Option.some_ne_none _⟩
    rename_i hflushed
    have hnone : first.flush=none := by
      cases hf : first.flush with
      | none => rfl
      | some k =>
        rw [hf] at hflushed
        simp [flush] at hflushed
    rw [hnone,write_flush (not_not.mp hwritten),h.flushed,List.append_nil]
    have hpass : Passing {f with stopping := f.stopping || first.stop} file offset := ⟨h.1,h.2,h.3,h.4,h.5,h.6⟩
    refine ⟨⟨List.prefix_append _ _,?_,hreads⟩,@Passing.publish offset _ file got hpass⟩
    have hle := h.committed.le
    have hends := h.ends
    have hstart := h.start
    show f.committedSize ≤ if f.holdBackCommits then f.committedSize else offset+got.length-f.baseOffset
    split
    · exact le_rfl
    · omega

private theorem fetchLoop_grows (passes : List FetchPass) (h : Passing f file offset) :
    Grows f file (fetchLoop names generation span to_ passes offset f file).1
      (fetchLoop names generation span to_ passes offset f file).2.1 := by
  induction passes generalizing offset f file with
  | nil =>
    rw [fetchLoop]
    split <;> exact .refl f file
  | cons first passes ih =>
    by_cases hdone : to_≤offset
    · rw [fetchLoop,if_pos hdone]
      exact .refl f file
    · rw [fetchLoop_cons hdone]
      have hstep := @pass_grows names generation span to_ offset f file first h
      revert hstep
      cases pass names generation span to_ offset first f file with
      | inl r => exact fun hstep => hstep.1
      | inr next => exact fun hstep => hstep.1.trans (ih hstep.2)

theorem fetchLoop_done (h : to_≤offset) (passes : List FetchPass) :
    fetchLoop names generation span to_ passes offset f file=(f,file,some true) := by
  cases passes with
  | nil => rw [fetchLoop,if_pos h]
  | cons first passes => rw [fetchLoop,if_pos h]

private theorem fetchLoop_nil (h : ¬to_≤offset) : fetchLoop names generation span to_
    [] offset f file=(f,file,none) := by
  rw [fetchLoop,if_neg h]

/-- What a fetch has done after its first passes: it has ended with them, or goes on. -/
theorem fetchLoop_moments {k l : ℕ} (hkl : k≤l) (passes : List FetchPass) (h : Passing f file offset) :
    fetchLoop names generation span to_ (passes.take l) offset f file=
        fetchLoop names generation span to_ (passes.take k) offset f file ∨
      (fetchLoop names generation span to_ (passes.take k) offset f file).2.2=none ∧
        Grows (fetchLoop names generation span to_ (passes.take k) offset f file).1
          (fetchLoop names generation span to_ (passes.take k) offset f file).2.1
          (fetchLoop names generation span to_ (passes.take l) offset f file).1
          (fetchLoop names generation span to_ (passes.take l) offset f file).2.1 := by
  by_cases hdone : to_≤offset
  · left
    rw [fetchLoop_done hdone,fetchLoop_done hdone]
  induction passes generalizing k l offset f file with
  | nil =>
    left
    rw [List.take_nil,List.take_nil]
  | cons first passes ih =>
    cases k with
    | zero =>
      right
      rw [List.take_zero,fetchLoop_nil hdone]
      exact ⟨rfl,fetchLoop_grows _ h⟩
    | succ k =>
      obtain ⟨l,rfl⟩ : ∃m,l=m+1 := ⟨l-1,by omega⟩
      rw [List.take_succ_cons,List.take_succ_cons,fetchLoop_cons hdone,fetchLoop_cons hdone]
      have hstep := @pass_grows names generation span to_ offset f file first h
      revert hstep
      cases pass names generation span to_ offset first f file with
      | inl r => exact fun _ => Or.inl rfl
      | inr next =>
        intro hstep
        by_cases hend : to_≤next.1
        · left
          dsimp only
          rw [fetchLoop_done hend,fetchLoop_done hend]
        · exact ih (by omega) hstep.2 hend

end SshFetcher

/-- What a later moment has of a generation: no less in its file, no less committed, and what was read. -/
structure Fetcher.Onward (f g : Fetcher) : Prop where
  generation : g.generation=f.generation
  base : g.baseOffset=f.baseOffset
  disk : f.spool<+:g.spool
  committed : f.committedSize≤g.committedSize
  reads : f.reads<+:g.reads

/-- A call that has come to the end of its first passes. -/
def FetchCall.upTo (call : FetchCall) (k : ℕ) : FetchCall := {call with passes := call.passes.take k}

namespace SshFetcher
variable {names : FetchNames} {f : Fetcher}

theorem Onward.refl (f : Fetcher) : f.Onward f := ⟨rfl,rfl,List.prefix_rfl,le_rfl,List.prefix_rfl⟩

private theorem passing_open (h : Safe f f.spool) (hclean : NoLeftover f) :
    Passing f (.open_ (f.spools f.generation)) f.consumed := by
  have hoff : f.consumed-f.baseOffset=f.committedSize := by rw [consumed,Nat.add_sub_cancel_left]
  refine ⟨rfl,Nat.le_add_right _ _,?_,?_,h.1,h.2⟩
  · rw [hoff]
    exact hclean
  · rw [hoff]
    exact h.1

@[simp] theorem spool_setSpool (g : Fetcher) (bytes : Bytes) : (g.setSpool g.generation bytes).spool=bytes := by
  simp [spool,setSpool]

/-- A call that opened its file, and what its passes leave of it. -/
theorem fetchForward_opened {from_ to_ : ℕ} {call : FetchCall} (hopened : call.opened=true) (k : ℕ) :
    fetchForward f names from_ to_ (call.upTo k)=
      let r := fetchLoop names f.generation (min (to_-from_) kSshFetchChunkBytes) to_ (call.passes.take k) from_ f
        (.open_ (f.spools f.generation))
      (r.1.setSpool f.generation (match r.2.2 with
        | none => r.2.1.disk
        | some _ => r.2.1.close call.closing),r.2.2) := by
  rw [fetchForward,FetchCall.upTo]
  dsimp only
  rw [if_neg (by simp [hopened])]
  split
  · rename_i hr
    rw [hr]
  · rename_i hr
    rw [hr]

/-- From one moment of a call to a later one. -/
theorem fetchForward_moments (h : Safe f f.spool) (hclean : NoLeftover f) (to_ : ℕ) (call : FetchCall) {k l : ℕ}
    (hkl : k≤l) : fetchForward f names f.consumed to_ (call.upTo l)=fetchForward f names f.consumed to_
    (call.upTo k) ∨
      (fetchForward f names f.consumed to_ (call.upTo k)).2=none ∧
        ((fetchForward f names f.consumed to_ (call.upTo k)).1).Onward
          (fetchForward f names f.consumed to_ (call.upTo l)).1 := by
  cases hopened : call.opened with
  | false =>
    left
    simp [fetchForward,FetchCall.upTo,hopened]
  | true =>
    have hpass := passing_open h hclean
    have hloop := @fetchLoop_moments names f.generation (min (to_-f.consumed) kSshFetchChunkBytes) to_ _ _ _ k l hkl
      call.passes hpass
    have hforward (ps : List FetchPass) := @fetchLoop_forward names f.generation
      (min (to_-f.consumed) kSshFetchChunkBytes) to_ ps f.consumed f (.open_ (f.spools f.generation))
    have hk := hforward (call.passes.take k)
    have hl := hforward (call.passes.take l)
    rw [fetchForward_opened hopened,fetchForward_opened hopened]
    dsimp only
    rcases hloop with hsame | ⟨hrunning,hgrows⟩
    · left
      rw [hsame]
    · refine Or.inr ⟨hrunning,?_⟩
      generalize fetchLoop names f.generation (min (to_-f.consumed) kSshFetchChunkBytes) to_ (call.passes.take k)
        f.consumed f (.open_ (f.spools f.generation))=r at hrunning hgrows hk ⊢
      generalize fetchLoop names f.generation (min (to_-f.consumed) kSshFetchChunkBytes) to_ (call.passes.take l)
        f.consumed f (.open_ (f.spools f.generation))=r' at hgrows hl ⊢
      obtain ⟨g,file,result⟩ := r
      obtain ⟨g',file',result'⟩ := r'
      obtain rfl : result=none := hrunning
      have hgen : g.generation=f.generation := hk.generation
      have hgen' : g'.generation=f.generation := hl.generation
      have honward (disk : Bytes) (hdisk : file'.disk<+:disk) :
          (g.setSpool f.generation file.disk).Onward (g'.setSpool f.generation disk) := by
        refine ⟨hgen'.trans hgen.symm,hl.base.trans hk.base.symm,?_,hgrows.committed,hgrows.reads⟩
        rw [← hgen,spool_setSpool,hgen,← hgen',spool_setSpool]
        exact hgrows.disk.trans hdisk
      cases result' with
      | none => exact honward _ List.prefix_rfl
      | some ok => exact honward _ (disk_close _ _)

end SshFetcher

end Loftail
