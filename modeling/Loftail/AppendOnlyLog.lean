import Loftail.SshPolling

/-! # A log that is only appended to keeps its generation -/
namespace Loftail

/-- The answers are the bytes of a file. -/
def Genuine (reads : List (ℕ×Bytes)) (content : Bytes) : Prop := ∀r∈reads,r.2<+:content.drop r.1

section Content
variable {reads : List (ℕ×Bytes)} {content content' : Bytes} {base : ℕ}

theorem drop_mono (h : content<+:content') (o : ℕ) : content.drop o<+:content'.drop o := by
  obtain ⟨more,rfl⟩ := h
  rw [List.drop_append]
  exact List.prefix_append _ _

theorem Genuine.mono (h : Genuine reads content) (hc : content<+:content') : Genuine reads content' :=
  fun r hr => (h r hr).trans (drop_mono hc r.1)

/-- Answers that follow one another are a stretch of the file. -/
theorem contiguous_content {cs : List (ℕ×Bytes)} (h : Contiguous base cs) (hg : Genuine cs content)
    (hb : base≤content.length) :
    cs.flatMap Prod.snd<+:content.drop base ∧ base+(cs.flatMap Prod.snd).length≤content.length := by
  induction cs generalizing base with
  | nil => exact ⟨List.nil_prefix,by simpa using hb⟩
  | cons c cs ih =>
    obtain ⟨hc,hcs⟩ := h
    have hfirst := hg c List.mem_cons_self
    rw [hc] at hfirst
    have hlen := hfirst.length_le
    rw [List.length_drop] at hlen
    obtain ⟨hrest,hend⟩ := ih hcs (fun r hr => hg r (List.mem_cons_of_mem _ hr)) (by omega)
    obtain ⟨more,hmore⟩ := hfirst
    have hdrop : content.drop (base+c.2.length)=more := by
      rw [← List.drop_drop,← hmore,List.drop_left]
    rw [hdrop] at hrest
    refine ⟨?_,?_⟩
    · rw [List.flatMap_cons,← hmore]
      exact List.prefix_append_right_inj _ |>.mpr hrest
    · rw [List.flatMap_cons,List.length_append]
      omega

/-- The committed bytes are a stretch of the file. -/
theorem holds_content {disk : Bytes} {n : ℕ} (h : Holds base reads disk n) (hg : Genuine reads content)
    (hb : base≤content.length) :
    disk.take n<+:content.drop base ∧ base+n≤content.length := by
  obtain ⟨cs,hsub,hcont,htake,hlen⟩ := h
  have hstretch := contiguous_content hcont (fun r hr => hg r (hsub.subset hr)) hb
  rw [htake,hlen]
  exact hstretch

end Content

namespace SshPoller
open Fetcher

/-- The last steps of an attempt to reach the log: what it is measured at, a generation, the first fetch. -/
def establish (p : SshPoller) (names : FetchNames) (tailStartBytes size : ℕ) (mtime : ℤ) (begins : Bool)
    (call : FetchCall) :
    SshPoller×Option Bool :=
  let p := {p with session := true,lastMtime := mtime,lastSize := size}
  let begun := SshFetcher.beginGeneration (p.fetcher.setState .priming) names size tailStartBytes begins
  if begun.2=false then ({p with fetcher := begun.1,session := false},some false) else
    match SshFetcher.prime begun.1 names size call with
    | (f,none) => ({p with fetcher := f},none)
    | (f,some false) => ({p with fetcher := f,session := false},some false)
    | (f,some true) => ({p with fetcher := f.setState .live},some true)

/-- One poll's answers about a log that is appended to meanwhile, from `content` to `content'`: each is taken of the
log as it is at that moment, and what is read of it are its bytes. -/
def Appending (names : FetchNames) (tailStartBytes : ℕ) (p : SshPoller) (a : PollAnswers)
    (content content' : Bytes) : Prop :=
  ∃atPath atHandle atHead,content<+:atPath ∧ atPath<+:atHandle ∧ atHandle<+:atHead ∧ atHead<+:content' ∧
    (∀s∈a.byName,s.1=atPath.length) ∧ (∀h∈a.byHandle,h=atHandle.length) ∧
    (∀bytes∈a.head,bytes<+:atHead.drop p.fetcher.baseOffset) ∧
    Genuine (p.pollOnce names tailStartBytes a).1.fetcher.reads content'

/-- Where the handle is asked, it says what the path said. -/
def NoHandleGap (a : PollAnswers) : Prop := a.fstatTracksHandle→∀s∈a.byName,∀h∈a.byHandle,h=s.1

/-- The polls of one generation of a log that is only appended to, from the attempt that reached it. -/
inductive Polled (names : FetchNames) (tailStartBytes : ℕ) : SshPoller→Bytes→Prop
  | establish {p : SshPoller} {content content' : Bytes} (hold : p.fetcher.holdBackCommits=false)
    (hreads : p.fetcher.reads=[])
    (hc : content<+:content') (mtime : ℤ) (begins : Bool) (call : FetchCall)
    (hdone : (p.establish names tailStartBytes content.length mtime begins call).2=some true)
    (hg : Genuine (p.establish names tailStartBytes content.length mtime begins call).1.fetcher.reads content') :
    Polled names tailStartBytes (p.establish names tailStartBytes content.length mtime begins call).1 content'
  | append {p : SshPoller} {content : Bytes} (h : Polled names tailStartBytes p content) (more : Bytes) :
    Polled names tailStartBytes p (content++more)
  | poll {p : SshPoller} {content content' : Bytes} {a : PollAnswers} (h : Polled names tailStartBytes p content)
    (hs : p.session=true) (ha : Appending names tailStartBytes p a content content') (hclean : NoLeftover p.fetcher)
    (hgap : NoHandleGap a) (hdone : (p.pollOnce names tailStartBytes a).2=true) :
    Polled names tailStartBytes (p.pollOnce names tailStartBytes a).1 content'

/-- What the fetcher has is the log's. -/
structure Tracks (p : SshPoller) (content : Bytes) : Prop where
  safe : SshFetcher.Safe p.fetcher p.fetcher.spool
  free : p.fetcher.holdBackCommits=false
  genuine : Genuine p.fetcher.reads content
  base : p.fetcher.baseOffset≤content.length

section Verdict
variable {p : SshPoller} {a : PollAnswers} {content atHead : Bytes}

theorem Tracks.grow {content' : Bytes} (h : Tracks p content) (hc : content<+:content') : Tracks p content' :=
  ⟨h.safe,h.free,h.genuine.mono hc,h.base.trans hc.length_le⟩

private theorem Tracks.consumed_le (h : Tracks p content) : p.fetcher.consumed≤content.length :=
  (holds_content h.safe.1 h.genuine h.base).2

/-- The head of a log that only grew is what the spool holds of it. -/
theorem head_same (h : Tracks p content) (hc : content<+:atHead)
    (hhead : ∀bytes∈a.head,bytes<+:atHead.drop p.fetcher.baseOffset) :
    remoteHeadDiffersFromSpool p.fetcher a=false := by
  rw [remoteHeadDiffersFromSpool]
  split
  · rfl
  split
  · rfl
  rename_i remote hremote
  split
  · rfl
  rename_i hlen
  have hlen : remote.length=min kHeadProbeBytes p.fetcher.committedSize := by
    by_contra hne
    exact hlen (Or.inl hne)
  have hlocal := (holds_content h.safe.1 h.genuine h.base).1
  have hmin : min kHeadProbeBytes p.fetcher.committedSize≤p.fetcher.committedSize := Nat.min_le_right _ _
  have htake := (List.take_prefix (min kHeadProbeBytes p.fetcher.committedSize) _).trans
    (hlocal.trans (drop_mono hc _))
  rw [List.take_take,Nat.min_eq_left hmin] at htake
  have hcount : (p.fetcher.spool.take (min kHeadProbeBytes p.fetcher.committedSize)).length=remote.length := by
    have hle := h.safe.1.le
    rw [List.length_take,hlen]
    omega
  have heq := (List.prefix_of_prefix_length_le htake (hhead remote hremote) hcount.le).eq_of_length hcount
  simp [heq]

private theorem verdict_rotated {o : RemoteObservation} : rotationVerdict o=.rotated↔
    o.size < o.consumed ∨ o.fstatTracksHandle=true ∧ o.handleValid=true ∧ o.handleSize≠o.size := by
  rw [rotationVerdict]
  split
  · simp_all
  split
  · split
    · simp_all
    · rename_i hshrunk hf hsame
      refine iff_of_false (by split <;> simp) ?_
      rintro (hless | hgap)
      · exact hshrunk hless
      · exact hsame hgap.2
  · rename_i hshrunk hf
    refine iff_of_false ?_ ?_
    · split
      · simp
      split
      · simp
      split <;> simp
    · rintro (hless | hgap)
      · exact hshrunk hless
      · exact hf hgap.1

/-- Of a log that only grew, a poll is mistaken exactly where the handle's size is not the path's. -/
theorem rotated_iff {size : ℕ} {mtime : ℤ} (h : Tracks p content) (hc : content<+:atHead)
    (hhead : ∀bytes∈a.head,bytes<+:atHead.drop p.fetcher.baseOffset) (hsize : content.length ≤ size) :
    p.rotated a size mtime=true↔a.fstatTracksHandle=true ∧ ∃handle,a.byHandle=some handle ∧ handle≠size := by
  have hsame := head_same h hc hhead
  have hconsumed := h.consumed_le
  have hverdict : p.rotated a size mtime=true↔rotationVerdict (p.observed a size mtime)=.rotated := by
    rw [rotated,hsame]
    split
    · rename_i hcompare
      rcases hcompare with hnow | hpaced
      · simp [hnow]
      · simp [hpaced.1]
    · simp
  rw [hverdict,verdict_rotated]
  simp only [observed]
  constructor
  · rintro (hshrunk | ⟨hf,hvalid,hne⟩)
    · omega
    · rw [hf,Bool.true_and,Option.isSome_iff_exists] at hvalid
      obtain ⟨handle,hh⟩ := hvalid
      rw [if_pos hf,hh,Option.getD_some] at hne
      exact ⟨hf,handle,hh,fun heq => hne (by rw [heq])⟩
  · rintro ⟨hf,handle,hh,hne⟩
    refine Or.inr ⟨hf,by simp [hf,hh],?_⟩
    rw [if_pos hf,hh,Option.getD_some]
    exact_mod_cast hne

end Verdict

section Polls
variable {names : FetchNames} {tailStartBytes : ℕ} {p : SshPoller} {a : PollAnswers} {content content' : Bytes}

theorem liveIf_fetcher (p : SshPoller) (r : Fetcher×Option Bool) :
    (p.liveIf r).1.fetcher.generation=r.1.generation ∧
    (p.liveIf r).1.fetcher.baseOffset=r.1.baseOffset ∧ (p.liveIf r).1.fetcher.holdBackCommits=r.1.holdBackCommits ∧
    (SshFetcher.Safe r.1 r.1.spool→SshFetcher.Safe (p.liveIf r).1.fetcher (p.liveIf r).1.fetcher.spool) := by
  obtain ⟨f,result⟩ := r
  rcases result with - | - | - <;> exact ⟨rfl,rfl,rfl,id⟩

/-- Another generation is begun where the file opens again and so does a new spool. -/
theorem restart_generation (p : SshPoller) (names : FetchNames) (tailStartBytes : ℕ) (a : PollAnswers) :
    (p.restart names tailStartBytes a).1.fetcher.generation≠p.fetcher.generation↔
      a.reopen.isOk=true ∧ a.begins=true := by
  rw [restart]
  cases hr : a.reopen with
  | error why =>
    obtain ⟨why,retryable⟩ := why
    refine iff_of_false (not_not.mpr ?_) (by simp [Except.isOk,Except.toBool])
    cases retryable <;> rfl
  | ok u =>
    dsimp only
    cases hb : a.begins with
    | false => exact iff_of_false (not_not.mpr rfl) (by simp)
    | true =>
      refine iff_of_true ?_ ⟨rfl,rfl⟩
      have hnext : (SshFetcher.beginGeneration p.fetcher names (a.fresh.getD 0) tailStartBytes true).1.generation=
          p.fetcher.generation+1 := rfl
      have hbegun : (SshFetcher.beginGeneration p.fetcher names (a.fresh.getD 0) tailStartBytes true).2=true := rfl
      rw [hbegun,if_neg (by simp)]
      split
      · rw [(liveIf_fetcher _ _).1,(SshFetcher.fetchForward_forward _ _ _ _ _).2.1]
        show p.fetcher.generation+1≠_
        omega
      · show p.fetcher.generation+1≠_
        omega

/-- Where a poll is answered a size it can use. -/
def Measured (a : PollAnswers) (size : ℕ) (mtime : ℤ) : Prop :=
  a.movedTo=none ∧ a.byName=some (size,mtime) ∧ ¬(a.wcSized=true ∧ kWcAbandonBytes < size)

/-- A poll takes the log for another file, and begins a generation. -/
theorem pollOnce_generation (p : SshPoller) (names : FetchNames) (tailStartBytes : ℕ) (a : PollAnswers) :
    (p.pollOnce names tailStartBytes a).1.fetcher.generation≠p.fetcher.generation↔
      (∃size mtime,Measured a size mtime ∧ p.rotated a size mtime=true) ∧ a.reopen.isOk=true ∧ a.begins=true := by
  rw [pollOnce]
  cases hm : a.movedTo with
  | some to_ =>
    refine iff_of_false (not_not.mpr rfl) ?_
    rintro ⟨⟨size,mtime,hmeasured,-⟩,-⟩
    simp [Measured,hm] at hmeasured
  | none =>
    cases hn : a.byName with
    | none =>
      refine iff_of_false (not_not.mpr ?_) ?_
      · dsimp only
        split <;> rfl
      · rintro ⟨⟨size,mtime,hmeasured,-⟩,-⟩
        simp [Measured,hn] at hmeasured
    | some s =>
      obtain ⟨size,mtime⟩ := s
      have hseen : (∃size mtime,Measured a size mtime ∧ p.rotated a size mtime=true)↔
          ¬(a.wcSized=true ∧ kWcAbandonBytes < size) ∧ p.rotated a size mtime=true := by
        constructor
        · rintro ⟨size',mtime',⟨-,heq,hwc⟩,hrot⟩
          rw [hn,Option.some.injEq,Prod.mk.injEq] at heq
          rw [← heq.1,← heq.2] at hrot
          rw [← heq.1] at hwc
          exact ⟨hwc,hrot⟩
        · exact fun h => ⟨size,mtime,⟨hm,hn,h.1⟩,h.2⟩
      rw [hseen]
      dsimp only
      split
      · rename_i hwc
        exact iff_of_false (not_not.mpr rfl) (fun h => h.1.1 hwc)
      rename_i hwc
      split
      · rename_i hrot
        rw [restart_generation]
        exact ⟨fun h => ⟨⟨hwc,hrot⟩,h⟩,fun h => h.2⟩
      · rename_i hrot
        refine iff_of_false (not_not.mpr ?_) (fun h => hrot h.1.2)
        split
        · rw [(liveIf_fetcher _ _).1,(SshFetcher.fetchForward_forward _ _ _ _ _).2.1]
        · split <;> rfl

/-- The handle's size, asked after an append, is not the path's. -/
def HandleGap (a : PollAnswers) : Prop :=
  ∃size mtime handle,Measured a size mtime ∧ a.fstatTracksHandle=true ∧ a.byHandle=some handle ∧ handle≠size

theorem rotated_iff_gap (h : Tracks p content) (ha : Appending names tailStartBytes p a content content') :
    (∃size mtime,Measured a size mtime ∧ p.rotated a size mtime=true)↔HandleGap a := by
  obtain ⟨atPath,atHandle,atHead,hpath,hhandle,hhead,-,hname,-,hbytes,-⟩ := ha
  have hsize {size : ℕ} {mtime : ℤ} (hm : Measured a size mtime) : content.length ≤ size := by
    have hlen : size=atPath.length := hname (size,mtime) (Option.mem_def.mpr hm.2.1)
    rw [hlen]
    exact hpath.length_le
  have hgrown := hpath.trans (hhandle.trans hhead)
  constructor
  · rintro ⟨size,mtime,hm,hrot⟩
    obtain ⟨hf,handle,hh,hne⟩ := (rotated_iff h hgrown hbytes (hsize hm)).mp hrot
    exact ⟨size,mtime,handle,hm,hf,hh,hne⟩
  · rintro ⟨size,mtime,handle,hm,hf,hh,hne⟩
    exact ⟨size,mtime,hm,(rotated_iff h hgrown hbytes (hsize hm)).mpr ⟨hf,handle,hh,hne⟩⟩

/-- A poll without a gap leaves the fetcher with what is the log's. -/
theorem pollOnce_tracks (h : Tracks p content) (ha : Appending names tailStartBytes p a content content')
    (hclean : NoLeftover p.fetcher) (hgap : NoHandleGap a) : Tracks
    (p.pollOnce names tailStartBytes a).1 content' := by
  have hno : ¬∃size mtime,Measured a size mtime ∧ p.rotated a size mtime=true := by
    rw [rotated_iff_gap h ha]
    rintro ⟨size,mtime,handle,hm,hf,hh,hne⟩
    exact hne (hgap hf _ (Option.mem_def.mpr hm.2.1) _ (Option.mem_def.mpr hh))
  obtain ⟨atPath,atHandle,atHead,hpath,hhandle,hhead,hend,-,-,-,hgenuine⟩ := ha
  have hgrown := hpath.trans (hhandle.trans (hhead.trans hend))
  have hkept := h.grow hgrown
  suffices hsafe : SshFetcher.Safe (p.pollOnce names tailStartBytes a).1.fetcher
    (p.pollOnce names tailStartBytes a).1.fetcher.spool ∧
      (p.pollOnce names tailStartBytes a).1.fetcher.holdBackCommits=false ∧
      (p.pollOnce names tailStartBytes a).1.fetcher.baseOffset=p.fetcher.baseOffset by
    exact ⟨hsafe.1,hsafe.2.1,hgenuine,by rw [hsafe.2.2]; exact hkept.base⟩
  clear hgenuine
  rw [pollOnce]
  cases hm : a.movedTo with
  | some to_ => exact ⟨h.safe,h.free,rfl⟩
  | none =>
    cases hn : a.byName with
    | none =>
      dsimp only
      split <;> exact ⟨h.safe,h.free,rfl⟩
    | some s =>
      obtain ⟨size,mtime⟩ := s
      dsimp only
      split
      · exact ⟨h.safe,h.free,rfl⟩
      rename_i hwc
      rw [if_neg (fun hrot => hno ⟨size,mtime,⟨hm,hn,hwc⟩,hrot⟩)]
      split
      · have hlive := liveIf_fetcher {p with lastMtime := mtime,lastSize := size}
          (SshFetcher.fetchForward p.fetcher names p.fetcher.consumed size a.fetch)
        have hforward := SshFetcher.fetchForward_forward p.fetcher names p.fetcher.consumed size a.fetch
        refine ⟨hlive.2.2.2 (SshFetcher.fetchForward_safe a.fetch h.safe hclean),?_,hlive.2.1.trans hforward.1⟩
        rw [hlive.2.2.1,hforward.2.2]
        exact h.free
      · split <;> exact ⟨h.safe,h.free,rfl⟩

private theorem establish_tracks (hold : p.fetcher.holdBackCommits=false) (hc : content<+:content') {mtime : ℤ}
    {begins : Bool} {call : FetchCall}
    (hdone : (p.establish names tailStartBytes content.length mtime begins call).2=some true)
    (hg : Genuine (p.establish names tailStartBytes content.length mtime begins call).1.fetcher.reads content') :
    Tracks (p.establish names tailStartBytes content.length mtime begins call).1 content' := by
  rw [establish] at hdone hg ⊢
  dsimp only at hdone hg ⊢
  cases hb : begins with
  | false => simp [hb,SshFetcher.beginGeneration,Fetcher.beginGeneration] at hdone
  | true =>
    rw [hb] at hdone hg
    have hbegun : (SshFetcher.beginGeneration (p.fetcher.setState .priming) names content.length tailStartBytes
      true).2=true := rfl
    rw [hbegun] at hdone hg ⊢
    rw [if_neg (by simp)] at hdone hg ⊢
    have hkept := @SshFetcher.kept_begin names (p.fetcher.setState .priming) content.length tailStartBytes hold
    have hbase : (SshFetcher.beginGeneration (p.fetcher.setState .priming) names content.length tailStartBytes
      true).1.baseOffset≤
        content.length := by
      show (if tailStartBytes > 0 ∧ content.length > tailStartBytes then content.length-tailStartBytes else 0)≤_
      split <;> omega
    generalize (SshFetcher.beginGeneration (p.fetcher.setState .priming) names content.length tailStartBytes
      true).1=f at hkept hbase hdone hg ⊢
    have hprime := @SshFetcher.kept_prime names _ hkept content.length call
    have hsame := SshFetcher.prime_base f names content.length call
    generalize SshFetcher.prime f names content.length call=r at hprime hsame hdone hg ⊢
    obtain ⟨g,result⟩ := r
    rcases result with - | - | -
    · simp at hdone
    · simp at hdone
    · exact ⟨hprime.safe,hprime.free (by simp [SshFetcher.phaseAfter]),hg,by
        show g.baseOffset≤_
        rw [hsame]
        exact hbase.trans hc.length_le⟩

/-- The run: whatever is appended and whenever it is polled. -/
theorem polled_tracks (h : Polled names tailStartBytes p content) : Tracks p content := by
  induction h with
  | establish hold _ hc mtime begins call hdone hg => exact establish_tracks hold hc hdone hg
  | append _ more ih => exact ih.grow (List.prefix_append _ _)
  | poll _ _ ha hclean hgap _ ih => exact pollOnce_tracks ih ha hclean hgap

/-- A log that is only appended to is taken for another one exactly where an append falls between a poll's two
stats and the handle's is looked at; without such a gap it keeps its generation. -/
theorem appended_log_kept (h : Polled names tailStartBytes p content)
    (ha : Appending names tailStartBytes p a content content') :
    ((p.pollOnce names tailStartBytes a).1.fetcher.generation≠p.fetcher.generation↔
      HandleGap a ∧ a.reopen.isOk=true ∧ a.begins=true) ∧
      (NoHandleGap a→(p.pollOnce names tailStartBytes a).1.fetcher.generation=p.fetcher.generation) := by
  have hiff : (p.pollOnce names tailStartBytes a).1.fetcher.generation≠p.fetcher.generation↔
      HandleGap a ∧ a.reopen.isOk=true ∧ a.begins=true := by
    rw [pollOnce_generation,rotated_iff_gap (polled_tracks h) ha]
  refine ⟨hiff,fun hgap => ?_⟩
  by_contra hne
  obtain ⟨⟨size,mtime,handle,hm,hf,hh,hne'⟩,-⟩ := hiff.mp hne
  exact hne' (hgap hf _ (Option.mem_def.mpr hm.2.1) _ (Option.mem_def.mpr hh))

end Polls

section Gap

/-- A log of two bytes, fetched. -/
def fetchedPoller : SshPoller :=
  (establish ⟨idleFetcher,true,false,0,0⟩ plainNames 0 2 5 true (twoBytes none 0)).1

/-- A byte is appended between the stat by path and the stat by handle. -/
def gapAnswers : PollAnswers where
  movedTo := none
  byName := some (2,5)
  connected := true
  troubleText := ""
  wcSized := false
  fstatTracksHandle := true
  byHandle := some 3
  stallProbeDue := false
  head := none
  spoolOpens := true
  reopen := .ok ()
  fresh := some 3
  begins := true
  fetch := ⟨true,[⟨false,.ok [97,98,99],.buffered,none⟩],0⟩

theorem fetchedPoller_polled : Polled plainNames 0 fetchedPoller [97,98] := by
  refine @Polled.establish plainNames 0 ⟨idleFetcher,true,false,0,0⟩ [97,98] [97,98] rfl rfl List.prefix_rfl 5 true
    (twoBytes none 0) rfl ?_
  intro r hr
  have hone : r∈[((0 : ℕ),([97,98] : Bytes))] := hr
  rw [List.mem_singleton.mp hone]
  exact List.prefix_rfl

theorem gapAnswers_appending : Appending plainNames 0 fetchedPoller gapAnswers [97,98] [97,98,99] := by
  refine ⟨[97,98],[97,98,99],[97,98,99],List.prefix_rfl,⟨[99],rfl⟩,List.prefix_rfl,List.prefix_rfl,?_,?_,?_,?_⟩
  · intro s hs
    rw [← Option.some_inj.mp hs]
    rfl
  · intro handle hh
    rw [← Option.some_inj.mp hh]
    rfl
  · intro bytes hbytes
    exact absurd hbytes (by simp [gapAnswers])
  · intro r hr
    rw [show (fetchedPoller.pollOnce plainNames 0 gapAnswers).1.fetcher.reads=[(0,[97,98]),
      (0,[97,98,99])] from rfl] at hr
    rcases List.mem_pair.mp hr with rfl | rfl
    · exact ⟨[99],rfl⟩
    · exact List.prefix_rfl

/-- The byte makes the poll begin a second generation. -/
theorem appended_log_restarted : ¬∀names tailStartBytes p a content content',Polled names tailStartBytes p content→
    Appending names tailStartBytes p a content content'→
      (p.pollOnce names tailStartBytes a).1.fetcher.generation=p.fetcher.generation := by
  intro h
  have hsame := h _ _ _ _ _ _ fetchedPoller_polled gapAnswers_appending
  revert hsame
  decide

theorem appended_log_kept_gap : (fetchedPoller.pollOnce plainNames 0 gapAnswers).1.fetcher.generation≠1 ∧
    HandleGap gapAnswers :=
  have h := (appended_log_kept fetchedPoller_polled gapAnswers_appending).1
  ⟨by decide,(h.mp (by decide)).1⟩

end Gap

end SshPoller

end Loftail
