import Loftail.FetchMoments
import Loftail.SpoolIndex

/-! # A remote log that is only appended to, and the document that shows it

The polls fill the spool and the watch reads it, each at its own pace. Whatever a source sees of a poll that is
still running, the document shows a stretch of the log. -/
namespace Loftail
open Fetcher

namespace Fetcher
variable {f g h : Fetcher}

theorem Onward.trans (hfg : f.Onward g) (hgh : g.Onward h) : f.Onward h where
  generation := hgh.generation.trans hfg.generation
  base := hgh.base.trans hfg.base
  disk := hfg.disk.trans hgh.disk
  committed := hfg.committed.trans hgh.committed
  reads := hfg.reads.trans hgh.reads

/-- Two fetchers that differ in the state they are said to be in, and in what a fetch keeps for itself. -/
def Alike (f g : Fetcher) : Prop := f.Onward g ∧ g.Onward f

theorem Alike.refl (f : Fetcher) : f.Alike f := ⟨SshFetcher.Onward.refl f,SshFetcher.Onward.refl f⟩

theorem alike_said (f : Fetcher) (state : FetchState) (error : String) :
    f.Alike {f with state := state,error := error} :=
  ⟨⟨rfl,rfl,List.prefix_rfl,le_rfl,List.prefix_rfl⟩,⟨rfl,rfl,List.prefix_rfl,le_rfl,List.prefix_rfl⟩⟩

/-- What is committed is the transport's answers in either of them. -/
theorem Alike.mirrors (h : f.Alike g) (hf : f.Mirrors) : g.Mirrors := by
  have hsize : g.committedSize=f.committedSize := le_antisymm h.2.committed h.1.committed
  rw [Mirrors,h.1.base,hsize]
  exact hf.mono h.1.disk h.1.reads

end Fetcher

namespace SshFetcher
variable {names : FetchNames} {f : Fetcher} {k l : ℕ}

/-- The first fetch of an attempt, from one moment to a later one. -/
theorem prime_moments (h : Kept f .begun) (size : ℕ) (call : FetchCall) (hkl : k≤l) :
    prime f names size (call.upTo l)=prime f names size (call.upTo k) ∨
      (prime f names size (call.upTo k)).2=none ∧
        ((prime f names size (call.upTo k)).1).Onward (prime f names size (call.upTo l)).1 := by
  obtain ⟨hspool,hzero⟩ := h.fresh rfl
  have hheld : Safe {f with holdBackCommits := true} {f with holdBackCommits := true}.spool := h.safe
  have hclean : NoLeftover {f with holdBackCommits := true} := by
    show f.spool.length=f.committedSize
    rw [hspool,hzero]
    rfl
  have hfrom : {f with holdBackCommits := true}.consumed=f.baseOffset := by
    show f.baseOffset+f.committedSize=f.baseOffset
    rw [hzero,Nat.add_zero]
  have hprimed : primed {f with holdBackCommits := true} names size (call.upTo l)=
        primed {f with holdBackCommits := true} names size (call.upTo k) ∨
      (primed {f with holdBackCommits := true} names size (call.upTo k)).2=none ∧
        ((primed {f with holdBackCommits := true} names size (call.upTo k)).1).Onward
          (primed {f with holdBackCommits := true} names size (call.upTo l)).1 := by
    have hmoments := @fetchForward_moments names _ hheld hclean (min size (f.baseOffset+kPrimeBytes)) call k l hkl
    rw [hfrom] at hmoments
    rw [primed,primed]
    dsimp only
    split
    · exact Or.inl rfl
    · exact hmoments
  rw [prime,prime]
  rcases hprimed with hsame | ⟨hnone,honward⟩
  · rw [hsame]
    exact Or.inl rfl
  · right
    generalize primed {f with holdBackCommits := true} names size (call.upTo k)=r at hnone honward ⊢
    generalize primed {f with holdBackCommits := true} names size (call.upTo l)=r' at honward ⊢
    obtain ⟨g,result⟩ := r
    obtain ⟨g',result'⟩ := r'
    obtain rfl : result=none := hnone
    refine ⟨rfl,?_⟩
    rcases result' with - | - | -
    · exact honward
    · exact ⟨honward.1,honward.2,honward.3,honward.4,honward.5⟩
    · exact ⟨honward.1,honward.2,honward.3,honward.4.trans (le_max_right _ _),honward.5⟩

private theorem prime_generation (f : Fetcher) (names : FetchNames) (size : ℕ) (call : FetchCall) :
    (prime f names size call).1.generation=f.generation := by
  have hgeneration : (primed {f with holdBackCommits := true} names size call).1.generation=f.generation := by
    rw [primed]
    dsimp only
    split
    · rfl
    · exact (fetchForward_forward _ _ _ _ _).2.1
  rw [prime]
  generalize primed {f with holdBackCommits := true} names size call=r at hgeneration ⊢
  obtain ⟨g,result⟩ := r
  rcases result with - | - | - <;> exact hgeneration

end SshFetcher

namespace SshPoller
open SshFetcher
variable {names : FetchNames} {tailStartBytes size : ℕ} {p : SshPoller} {a : PollAnswers}
  {content content' far : Bytes}
  {mtime : ℤ} {call : FetchCall} {k l : ℕ}

private theorem liveIf_alike (p : SshPoller) (r : Fetcher×Option Bool) : r.1.Alike (p.liveIf r).1.fetcher := by
  obtain ⟨f,result⟩ := r
  rcases result with - | - | -
  · exact .refl f
  · exact .refl f
  · exact alike_said f .live _

/-! ## An attempt -/

/-- The generation an attempt has begun. -/
def begun (p : SshPoller) (names : FetchNames) (tailStartBytes size : ℕ) : Fetcher :=
  (SshFetcher.beginGeneration (p.fetcher.setState .priming) names size tailStartBytes true).1

/-- An attempt leaves what its first fetch does. -/
theorem establish_alike (p : SshPoller) (names : FetchNames) (tailStartBytes size : ℕ) (mtime : ℤ)
    (call : FetchCall) :
    ((prime (p.begun names tailStartBytes size) names size call).1).Alike
      (p.establish names tailStartBytes size mtime true call).1.fetcher := by
  have hbegun : (SshFetcher.beginGeneration (p.fetcher.setState .priming) names size tailStartBytes true).2=
    true := rfl
  rw [establish]
  dsimp only
  rw [hbegun,if_neg (by simp),begun]
  generalize prime _ names size call=r
  obtain ⟨f,result⟩ := r
  rcases result with - | - | -
  · exact .refl f
  · exact .refl f
  · exact alike_said f .live _

theorem begun_base (p : SshPoller) (names : FetchNames) (tailStartBytes size : ℕ) :
    (p.begun names tailStartBytes size).baseOffset ≤ size ∧
      (tailStartBytes=0→(p.begun names tailStartBytes size).baseOffset=0) := by
  show (if tailStartBytes > 0 ∧ size > tailStartBytes then size-tailStartBytes else 0) ≤ size ∧
    (tailStartBytes=0→(if tailStartBytes > 0 ∧ size > tailStartBytes then size-tailStartBytes else 0)=0)
  constructor
  · split <;> omega
  · rintro rfl
    simp

section Attempt
variable (hold : p.fetcher.holdBackCommits=false)
include hold

/-- An attempt, from one moment to a later one. -/
theorem establish_moments (hkl : k≤l) : (p.establish names tailStartBytes size mtime true
    (call.upTo k)).1.fetcher.Onward
    (p.establish names tailStartBytes size mtime true (call.upTo l)).1.fetcher := by
  have hkept : Kept (p.begun names tailStartBytes size) .begun := kept_begin size tailStartBytes hold
  have hk := (establish_alike p names tailStartBytes size mtime (call.upTo k)).2
  have hl := (establish_alike p names tailStartBytes size mtime (call.upTo l)).1
  rcases @prime_moments names _ k l hkept size call hkl with hsame | ⟨-,honward⟩
  · rw [hsame] at hl
    exact hk.trans hl
  · exact hk.trans (honward.trans hl)

theorem establish_mirrors : (p.establish names tailStartBytes size mtime true call).1.fetcher.Mirrors := by
  have hkept : Kept (p.begun names tailStartBytes size) .begun := kept_begin size tailStartBytes hold
  exact (establish_alike p names tailStartBytes size mtime call).mirrors (kept_prime hkept size call).safe.1

end Attempt

theorem establish_base : (p.establish names tailStartBytes size mtime true call).1.fetcher.baseOffset=
    (p.begun names tailStartBytes size).baseOffset :=
  (establish_alike p names tailStartBytes size mtime call).1.base.trans (prime_base _ names size call)

theorem establish_generation : (p.establish names tailStartBytes size mtime true call).1.fetcher.generation=
    p.fetcher.generation+1 := by
  rw [(establish_alike p names tailStartBytes size mtime call).1.generation,prime_generation]
  rfl

end SshPoller

/-! ## A poll -/

/-- One poll's answers, its fetch come to the end of its first passes. -/
def PollAnswers.upTo (a : PollAnswers) (k : ℕ) : PollAnswers := {a with fetch := a.fetch.upTo k}

namespace SshPoller
open SshFetcher
variable {names : FetchNames} {tailStartBytes size : ℕ} {p : SshPoller} {a : PollAnswers}
  {content content' far : Bytes}
  {mtime : ℤ} {call : FetchCall} {k l : ℕ}

theorem upTo_all (h : a.fetch.passes.length≤k) : a.upTo k=a := by
  rw [PollAnswers.upTo,FetchCall.upTo,List.take_of_length_le h]

/-- A poll that does not take the log for another one asks for nothing, or makes one fetch. -/
theorem pollOnce_fetches (names : FetchNames) (tailStartBytes : ℕ)
    (hno : ¬∃size mtime,Measured a size mtime ∧ p.rotated a size mtime=true) :
    (∀k,p.fetcher.Alike (p.pollOnce names tailStartBytes (a.upTo k)).1.fetcher) ∨
      ∃size,∀k,(fetchForward p.fetcher names p.fetcher.consumed size (a.fetch.upTo k)).1.Alike
        (p.pollOnce names tailStartBytes (a.upTo k)).1.fetcher := by
  have hmoved (k : ℕ) : (a.upTo k).movedTo=a.movedTo := rfl
  have hname (k : ℕ) : (a.upTo k).byName=a.byName := rfl
  simp only [pollOnce,hmoved,hname]
  cases hm : a.movedTo with
  | some to_ => exact Or.inl fun k => alike_said p.fetcher .waiting _
  | none =>
    cases hn : a.byName with
    | none =>
      left
      intro k
      dsimp only
      split
      · exact alike_said p.fetcher .waiting _
      · exact alike_said p.fetcher .waiting _
    | some s =>
      obtain ⟨size,mtime⟩ := s
      dsimp only
      by_cases hwc : a.wcSized=true ∧ kWcAbandonBytes < size
      · left
        intro k
        rw [if_pos (show (a.upTo k).wcSized=true ∧ kWcAbandonBytes < size from hwc)]
        exact alike_said p.fetcher .error _
      have hsame : p.rotated a size mtime=false := by
        by_contra hrot
        exact hno ⟨size,mtime,⟨hm,hn,hwc⟩,Bool.eq_true_of_not_eq_false hrot⟩
      by_cases hmore : p.fetcher.consumed < size
      · refine Or.inr ⟨size,fun k => ?_⟩
        rw [if_neg (show ¬((a.upTo k).wcSized=true ∧ kWcAbandonBytes < size) from hwc),
          show p.rotated (a.upTo k) size mtime=false from hsame,if_neg (by simp),if_pos hmore]
        exact liveIf_alike _ _
      · left
        intro k
        rw [if_neg (show ¬((a.upTo k).wcSized=true ∧ kWcAbandonBytes < size) from hwc),
          show p.rotated (a.upTo k) size mtime=false from hsame,if_neg (by simp),if_neg hmore]
        split
        · exact alike_said p.fetcher .live _
        · exact .refl p.fetcher

section Poll
variable (h : Tracks p content) (ha : Appending names tailStartBytes p a content content') (hgap : NoHandleGap a)
include h ha hgap

theorem not_rotated : ¬∃size mtime,Measured a size mtime ∧ p.rotated a size mtime=true := by
  rw [rotated_iff_gap h ha]
  rintro ⟨size,mtime,handle,hm,hf,hh,hne⟩
  exact hne (hgap hf _ (Option.mem_def.mpr hm.2.1) _ (Option.mem_def.mpr hh))

theorem pollOnce_same (k : ℕ) :
    (p.pollOnce names tailStartBytes (a.upTo k)).1.fetcher.generation=p.fetcher.generation ∧
      (p.pollOnce names tailStartBytes (a.upTo k)).1.fetcher.baseOffset=p.fetcher.baseOffset := by
  rcases pollOnce_fetches names tailStartBytes (not_rotated h ha hgap) with halike | ⟨size,halike⟩
  · exact ⟨(halike k).1.generation,(halike k).1.base⟩
  · have hforward := fetchForward_forward p.fetcher names p.fetcher.consumed size (a.fetch.upTo k)
    exact ⟨(halike k).1.generation.trans hforward.2.1,(halike k).1.base.trans hforward.1⟩

variable (hclean : NoLeftover p.fetcher)
include hclean

/-- A poll, from one moment to a later one. -/
theorem pollOnce_moments (hkl : k≤l) : (p.pollOnce names tailStartBytes (a.upTo k)).1.fetcher.Onward
    (p.pollOnce names tailStartBytes (a.upTo l)).1.fetcher := by
  rcases pollOnce_fetches names tailStartBytes (not_rotated h ha hgap) with halike | ⟨size,halike⟩
  · exact (halike k).2.trans (halike l).1
  · have hl := (halike l).1
    rcases @fetchForward_moments names p.fetcher h.safe hclean size a.fetch k l hkl with hsame | ⟨-,honward⟩
    · rw [hsame] at hl
      exact (halike k).2.trans hl
    · exact (halike k).2.trans (honward.trans hl)

/-- What a poll has of the log while it runs. -/
theorem pollOnce_tracked (k : ℕ) : Tracks (p.pollOnce names tailStartBytes (a.upTo k)).1 content' := by
  have hall := pollOnce_moments h ha hgap hclean (k := k) (le_max_left k a.fetch.passes.length)
  rw [upTo_all (le_max_right k a.fetch.passes.length)] at hall
  obtain ⟨atPath,atHandle,atHead,hpath,hhandle,hhead,hend,hname,hsize,hbytes,hgenuine⟩ := ha
  have hpart : Appending names tailStartBytes p (a.upTo k) content content' :=
    ⟨atPath,atHandle,atHead,hpath,hhandle,hhead,hend,hname,hsize,hbytes,
      fun r hr => hgenuine r (hall.reads.subset hr)⟩
  exact pollOnce_tracks h hpart hclean hgap

end Poll

/-- The generation of a poller is one it has begun, from the log's beginning where no tail is asked for. -/
theorem polled_begun (h : Polled names tailStartBytes p content) :
    p.fetcher.generation≠0 ∧ (tailStartBytes=0→p.fetcher.baseOffset=0) := by
  induction h with
  | @establish p content content' hold hreads hc mtime begins call hdone hg =>
    cases begins with
    | false => simp [SshPoller.establish,SshFetcher.beginGeneration,Fetcher.beginGeneration] at hdone
    | true =>
      rw [establish_generation,establish_base]
      exact ⟨Nat.succ_ne_zero _,(begun_base p names tailStartBytes content.length).2⟩
  | append _ more ih => exact ih
  | @poll p content content' a hpolled hs ha hclean hgap hdone ih =>
    have hsame := pollOnce_same (polled_tracks hpolled) ha hgap a.fetch.passes.length
    rw [upTo_all le_rfl] at hsame
    rw [hsame.1,hsame.2]
    exact ih

end SshPoller

/-! ## The spool of a running fetcher -/

namespace SourceSpool

/-- The spool as a fetcher has it, earlier generations as they were left. -/
def showing (s : SourceSpool) (f : Fetcher) : SourceSpool where
  state := f.state
  generation := f.generation
  committed := Function.update s.committed f.generation f.committedSize
  files := Function.update s.files f.generation f.spool

/-- From one moment of a fetcher to a later one, by publishes. -/
theorem later_showing (s : SourceSpool) {f g : Fetcher} (h : f.Onward g) (hpos : f.generation≠0)
    (hmirrors : g.Mirrors) :
    Later (s.showing f) (s.showing g) := by
  obtain ⟨more,hmore⟩ := h.disk
  have hwrite : (s.showing f).step (.write more)=
      some {s.showing f with files := Function.update s.files f.generation g.spool} := by
    simp [step,showing,hpos,hmore]
  have hcommit : ({s.showing f with files := Function.update s.files f.generation g.spool} : SourceSpool).step
      (.commit g.committedSize)=some {s.showing f with
        files := Function.update s.files f.generation g.spool
        committed := Function.update s.committed f.generation g.committedSize} := by
    simp [step,showing,h.committed,hmirrors.le]
  have hstate : ({s.showing f with
      files := Function.update s.files f.generation g.spool
      committed := Function.update s.committed f.generation g.committedSize} :
        SourceSpool).step (.setState g.state)=
        some (s.showing g) := by
    simp [step,showing,h.generation]
  exact ((Relation.ReflTransGen.single ⟨_,hwrite⟩).tail ⟨_,hcommit⟩).tail ⟨_,hstate⟩

end SourceSpool

open SshPoller in
/-- What a source may see of the spool of a log that is only appended to, and is `far` in the end: a state, another
generation, an attempt or a poll that goes on from one of its moments to a later one. -/
inductive FetchStep (names : FetchNames) (tailStartBytes : ℕ) (far : Bytes) : SourceSpool→SourceSpool→Prop
  | state (s : SourceSpool) (state : FetchState) : FetchStep names tailStartBytes far s {s with state := state}
  | begin_ {s t : SourceSpool} (h : s.step .beginGeneration=some t) : FetchStep names tailStartBytes far s t
  | establish (s : SourceSpool) {p : SshPoller} {content content' : Bytes} (hold : p.fetcher.holdBackCommits=false)
    (hc : content<+:content') (hfar : content'<+:far) (mtime : ℤ) (call : FetchCall)
    (hg : ∀k,Genuine (p.establish names tailStartBytes content.length mtime true
      (call.upTo k)).1.fetcher.reads content')
    {k l : ℕ} (hkl : k≤l) : FetchStep names tailStartBytes far
      (s.showing (p.establish names tailStartBytes content.length mtime true (call.upTo k)).1.fetcher)
      (s.showing (p.establish names tailStartBytes content.length mtime true (call.upTo l)).1.fetcher)
  | poll (s : SourceSpool) {p : SshPoller} {content content' : Bytes} {a : PollAnswers}
    (h : Polled names tailStartBytes p content) (ha : Appending names tailStartBytes p a content content')
    (hfar : content'<+:far) (hclean : Fetcher.NoLeftover p.fetcher) (hgap : NoHandleGap a) {k l : ℕ} (hkl : k≤l) :
    FetchStep names tailStartBytes far (s.showing (p.pollOnce names tailStartBytes (a.upTo k)).1.fetcher)
      (s.showing (p.pollOnce names tailStartBytes (a.upTo l)).1.fetcher)

namespace FetchStep
open SshPoller
variable {names : FetchNames} {tailStartBytes : ℕ} {far : Bytes} {s t : SourceSpool}

/-- Each step is publishes. -/
theorem later (h : FetchStep names tailStartBytes far s t) : SourceSpool.Later s t := by
  cases h with
  | state s state => exact .single ⟨.setState state,rfl⟩
  | begin_ h => exact .single ⟨.beginGeneration,h⟩
  | establish s hold hc hfar mtime call hg hkl =>
    apply SourceSpool.later_showing s (establish_moments hold hkl)
    · rw [establish_generation]
      exact Nat.succ_ne_zero _
    · exact establish_mirrors hold
  | poll s h ha hfar hclean hgap hkl =>
    have htracks := polled_tracks h
    apply SourceSpool.later_showing s (pollOnce_moments htracks ha hgap hclean hkl)
    · rw [(pollOnce_same htracks ha hgap _).1]
      exact (polled_begun h).1
    · exact (pollOnce_tracked htracks ha hgap hclean _).safe.1

theorem fetching (names : FetchNames) (tailStartBytes : ℕ) (far : Bytes) :
    SourceSpool.Fetching (Relation.ReflTransGen (FetchStep names tailStartBytes far)) where
  refl := fun _ => .refl
  trans := fun _ _ _ => .trans
  publishes := by
    intro s t h
    induction h with
    | refl => exact .refl
    | tail _ hstep ih => exact ih.trans hstep.later

/-- Of each generation the committed bytes are a stretch of the log; of all the log where no tail is asked for. -/
def Mirrored (tailStartBytes : ℕ) (far : Bytes) (s : SourceSpool) : Prop :=
  ∀g ≤ s.generation,∃base,(tailStartBytes=0→base=0) ∧ (s.files g).take (s.committed g)<+:far.drop base

/-- A fetcher's own generation aside, nothing has changed. -/
theorem mirrored_showing {f g : Fetcher} (h : Mirrored tailStartBytes far (s.showing f))
    (hgen : g.generation=f.generation)
    (hown : ∃base,(tailStartBytes=0→base=0) ∧ g.spool.take g.committedSize<+:far.drop base) :
    Mirrored tailStartBytes far (s.showing g) := by
  intro i hi
  by_cases hsame : i=g.generation
  · subst hsame
    simpa [SourceSpool.showing] using hown
  · have hold := h i (hi.trans hgen.le)
    simpa [SourceSpool.showing,Function.update_of_ne hsame,Function.update_of_ne (hgen ▸ hsame)] using hold

/-- What a poller tracks is a stretch of the log as it is in the end. -/
theorem tracked_far {f : Fetcher} {content : Bytes} (hmirrors : f.Mirrors) (hgenuine : Genuine f.reads content)
    (hbase : f.baseOffset≤content.length) (hfar : content<+:far) :
    f.spool.take f.committedSize<+:far.drop f.baseOffset :=
  (holds_content hmirrors hgenuine hbase).1.trans (drop_mono hfar _)

private theorem mirrored (h : FetchStep names tailStartBytes far s t) (hs : Mirrored tailStartBytes far s) :
    Mirrored tailStartBytes far t := by
  cases h with
  | state s state => exact hs
  | begin_ h =>
    obtain rfl := Option.some_inj.mp h
    intro g hg
    by_cases hnew : g=s.generation+1
    · subst hnew
      exact ⟨0,fun _ => rfl,by simp⟩
    · have hold := hs g (Nat.le_of_lt_succ (lt_of_le_of_ne hg hnew))
      simpa [Function.update_of_ne hnew] using hold
  | @establish s p content content' hold hc hfar mtime call hg k l hkl =>
    apply mirrored_showing hs
    · rw [establish_generation,establish_generation]
    · have hbase := begun_base p names tailStartBytes content.length
      refine ⟨_,?_,tracked_far (establish_mirrors hold) (hg l) ?_ hfar⟩
      · rw [establish_base]
        exact hbase.2
      · rw [establish_base]
        exact hbase.1.trans hc.length_le
  | @poll s p content content' a h ha hfar hclean hgap k l hkl =>
    have htracks := polled_tracks h
    have hsame := pollOnce_same htracks ha hgap
    have hnow := pollOnce_tracked htracks ha hgap hclean l
    apply mirrored_showing hs
    · rw [(hsame k).1,(hsame l).1]
    · refine ⟨_,?_,tracked_far hnow.safe.1 hnow.genuine hnow.base hfar⟩
      rw [(hsame l).2]
      exact (polled_begun h).2

end FetchStep

namespace SpoolWatch
open FetchStep

/-- The spool of a watch is one its fetcher has come to from none. -/
theorem watched_onward {later : SourceSpool→SourceSpool→Prop} (hf : SourceSpool.Fetching later) {p : Opening}
    {d : Document} {s : SourceSpool} {w : SpoolWatch} (h : Watched later p d s w) :
    later SourceSpool.initial s := by
  induction h with
  | start ho hs => exact hf.trans _ _ _ (runs_onward hf ho) (runs_onward hf hs)
  | publish _ hm ih => exact hf.trans _ _ _ ih hm
  | tick _ ht ih => exact hf.trans _ _ _ ih (runs_onward hf ht)

/-- Of a log that is only appended to, and is `far` in the end, a document shows a stretch, from its beginning where
no tail is asked for, and has the index of one pass over it; however the polls, their passes and the reads of the
ticks fall. -/
theorem remote_shows {names : FetchNames} {tailStartBytes : ℕ} {far : Bytes} {p : Opening} {d : Document}
    {s : SourceSpool} {w : SpoolWatch}
    (h : SteadyWatch (Relation.ReflTransGen (FetchStep names tailStartBytes far)) p d s w) :
    (w.waiting=true→w.document.index.records=[]) ∧
    (w.waiting=false→Indexed w.document.indexer w.document.source w.document.index ∧
      (w.source.truncated=false→∃base,(tailStartBytes=0→base=0) ∧ w.document.source<+:far.drop base)) := by
  have hf := fetching names tailStartBytes far
  have hi := watched_indexes hf h
  have hs := watched_sound hf h.watched
  refine ⟨hi.emptied,fun hw => ⟨hi.indexed hw,fun ht => ?_⟩⟩
  have htracked := hs.tracked hw ht
  have hmirrored : Mirrored tailStartBytes far s := by
    have honward := watched_onward hf h.watched
    clear h hs htracked
    induction honward with
    | refl => exact fun g _ => ⟨0,fun _ => rfl,by simp [SourceSpool.initial]⟩
    | tail _ hstep ih => exact hstep.mirrored ih
  obtain ⟨base,hbase,hstretch⟩ := hmirrored _ hs.serves.generation
  refine ⟨base,hbase,List.IsPrefix.trans ?_ hstretch⟩
  rw [htracked.content]
  exact List.take_prefix_take_left (htracked.size.trans hs.serves.committed)

section Attempt

/-- A log of one line, and the attempt that fetches it. -/
def farLine : Bytes := [0x5B,0x61,0x0A]

def lineCall : FetchCall := ⟨true,[⟨false,.ok farLine,.buffered,none⟩],0⟩

/-- The fetcher after some passes of the attempt. -/
def attempt (k : ℕ) : SshPoller :=
  (SshPoller.establish ⟨idleFetcher,true,false,0,0⟩ plainNames 0 farLine.length 5 true (lineCall.upTo k)).1

private theorem attempt_steps : Relation.ReflTransGen (FetchStep plainNames 0 farLine) SourceSpool.initial
    (SourceSpool.initial.showing (attempt 1).fetcher) := by
  have hreads (k : ℕ) : Genuine (attempt k).fetcher.reads farLine := by
    intro r hr
    cases k with
    | zero => cases hr
    | succ k =>
      have hall : attempt (k+1)=attempt 1 := by simp [attempt,FetchCall.upTo,lineCall]
      rw [hall] at hr
      have hone : r∈[((0 : ℕ),farLine)] := hr
      rw [List.mem_singleton.mp hone]
      exact List.prefix_rfl
  have hpriming : FetchStep plainNames 0 farLine SourceSpool.initial {SourceSpool.initial with state := .priming} :=
    .state _ _
  have hbegun : FetchStep plainNames 0 farLine {SourceSpool.initial with state := .priming}
    (SourceSpool.initial.showing (attempt 0).fetcher) := .begin_ rfl
  have hfetched : FetchStep plainNames 0 farLine (SourceSpool.initial.showing (attempt 0).fetcher)
      (SourceSpool.initial.showing (attempt 1).fetcher) :=
    .establish SourceSpool.initial rfl List.prefix_rfl List.prefix_rfl 5 lineCall hreads (Nat.zero_le 1)
  exact ((Relation.ReflTransGen.single hpriming).tail hbegun).tail hfetched

/-- A document opened behind the attempt shows its line. -/
theorem remote_shows_line : ∃s w,Watched (Relation.ReflTransGen (FetchStep plainNames 0 farLine)) .plain
    Document.bracketed s w ∧ w.document.source=farLine ∧ Indexed w.document.indexer farLine w.document.index := by
  have hf := fetching plainNames 0 farLine
  have hanswer : (((openDocument .plain Document.bracketed).answer
      (List.replicate 5 (SourceSpool.initial.showing (attempt 1).fetcher))).bind fun w =>
        ((w.start .plain true).answer []).map fun w => (w.waiting,w.document.source))=some (false,farLine) := by
    decide +kernel
  obtain ⟨w₀,h₀,hstart⟩ := Option.bind_eq_some_iff.mp hanswer
  obtain ⟨w,h₁,hw⟩ := Option.map_eq_some_iff.mp hstart
  obtain ⟨hwaiting,hsource⟩ := Prod.mk.inj hw
  have hopened := Reads.runs_of_answer hf.refl h₀ (s:=SourceSpool.initial)
    (by simp [List.replicate,attempt_steps,hf.refl])
  have hstarted := Reads.runs_of_answer hf.refl h₁ (s:=SourceSpool.initial.showing (attempt 1).fetcher) (by simp)
  have hwatched := Watched.start hopened hstarted
  have hsteady := hwatched.steady hf fun _ => LocalWatch.bracketed_startsStay
  have hshown := (remote_shows hsteady).2 hwaiting
  exact ⟨_,w,hwatched,hsource,hsource ▸ hshown.1⟩

end Attempt

end SpoolWatch

end Loftail
