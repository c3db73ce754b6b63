import Loftail.AppendOnlyLog
import Loftail.TailHistory

/-! # The worker of an SSH tail

When it tries to sign in, when it gives up, and when it says that it will try again; whenever somebody asks for an
attempt or stops it. -/
namespace Loftail
open TailHistory

/-- `kWcMinPollMs`. -/
def kWcMinPollMs : ℤ := 15000

/-- `SshFetchOptions`, as far as the loop reads them. -/
structure SshFetchOptions where
  names : FetchNames
  pollMs : ℤ
  tailStartBytes : ℕ

/-- Where the worker is: `refused` is what it saw of the latch when its turn began, `wakeMs` when its sleep ends. -/
inductive TailPlace
  | top
  | turning (refused : Bool)
  | attempting (mayPrompt : Bool)
  | polling (refused : Bool)
  | resting (refused : Bool)
  | sleeping (refused : Bool) (wakeMs : ℤ)
  | done

/-- How an attempt ends: before the log was measured, or with the fetch of its beginning. -/
inductive AttemptEnd
  | early (failure : Failure) (error : String)
  | opened (size : ℕ) (mtime : ℤ) (begins : Bool) (call : FetchCall)

inductive TailMove
  | look
  | turn
  | ended (e : AttemptEnd) (nowMs : ℤ)
  | polled (a : PollAnswers)
  | rest (nowMs : ℤ) (wcSized : Bool)
  | wake
  | poke
  | stop

/-- What the worker itself does. -/
def TailMove.isWorker : TailMove→Bool
  | .poke => false
  | .stop => false
  | _ => true

/-- The fetcher and its loop. No code reads `log`. -/
structure SshTail where
  poller : SshPoller
  wantsPrompter : Bool
  reconnectRefused : Bool
  stopping : Bool
  grace : ReconnectGrace
  retryAtMs : ℤ
  place : TailPlace
  log : TailHistory

namespace SshTail

def withFetcher (s : SshTail) (f : Fetcher) : SshTail := {s with poller := {s.poller with fetcher := f}}

/-- What `SshFetcher::establish` leaves and answers, once it has returned. -/
def attempted (p : SshPoller) (o : SshFetchOptions) : AttemptEnd→Option (SshPoller×Failure×String)
  | .early failure error => if failure=.none then none else some ({p with session := false},failure,error)
  | .opened size mtime begins call =>
    match p.establish o.names o.tailStartBytes size mtime begins call with
    | (_,none) => none
    | (p,some true) => some (p,.none,"")
    | (p,some false) => some (p,.unreachable,p.fetcher.error)

/-- What `SshFetcher::reconnect` makes of it. -/
def reconnected (s : SshTail) (failure : Failure) (error : String) (nowMs : ℤ) : SshTail :=
  let s := {s with place := .resting false,log := .ended failure nowMs::s.log}
  match failure with
  | .none => {s with grace := s.grace.signedIn}
  | .needsPerson =>
    let tried := s.grace.keepTrying nowMs
    let s := {s with grace := tried.1}.withFetcher (s.poller.fetcher.setWaiting error)
    if tried.2 then s else {s with reconnectRefused := true}
  | .refused => {s.withFetcher (s.poller.fetcher.setError error) with reconnectRefused := true}
  | _ => s.withFetcher (s.poller.fetcher.setWaiting error)

/-- A connection that fails, or a log that is not there, is not asked about at the pace of one that works. -/
def slow (s : SshTail) : Bool := s.poller.fetcher.state=.error ∨ s.poller.fetcher.state=.waiting

def waitMs (s : SshTail) (o : SshFetchOptions) (wcSized : Bool) : ℤ :=
  let wait := if s.slow then max o.pollMs 5000 else o.pollMs
  if s.poller.session ∧ wcSized then max wait kWcMinPollMs else wait

/-- `SshFetcher::tailLoop`, `pokeNow` and `requestStop`. -/
def step (o : SshFetchOptions) (s : SshTail) : TailMove→Option SshTail
  | .look =>
    match s.place with
    | .top => some {s with place := if s.stopping then .done else .turning s.reconnectRefused}
    | _ => none
  | .turn =>
    match s.place with
    | .turning refused =>
      if s.poller.session then some {s with place := .polling refused}
      else if refused then some {s with place := .resting true}
      else some {s with place := .attempting s.wantsPrompter,wantsPrompter := false
                        log := .began s.wantsPrompter::s.log}
    | _ => none
  | .ended e nowMs =>
    match s.place with
    | .attempting _ => (attempted s.poller o e).map fun r => {s with poller := r.1}.reconnected r.2.1 r.2.2 nowMs
    | _ => none
  | .polled a =>
    match s.place with
    | .polling refused =>
      let r := s.poller.pollOnce o.names o.tailStartBytes a
      if r.2 then some {s with poller := r.1,place := .resting refused} else none
    | _ => none
  | .rest nowMs wcSized =>
    match s.place with
    | .resting refused =>
      if s.stopping then some {s with place := .done}
      else if s.poller.poked then some {s with poller := {s.poller with poked := false},place := .top}
      else
        let wakeMs := nowMs+s.waitMs o wcSized
        some {s with retryAtMs := if s.slow ∧ refused=false then wakeMs else 0,place := .sleeping refused wakeMs}
    | _ => none
  | .wake =>
    match s.place with
    -- Its time has come, or it is notified.
    | .sleeping _ _ => some {s with retryAtMs := 0,poller := {s.poller with poked := false},place := .top}
    | _ => none
  | .poke =>
    some {s with poller := {s.poller with poked := true},reconnectRefused := false,wantsPrompter := true
                 log := .asked true::s.log}
  | .stop =>
    if s.stopping then some s else
      some {s.withFetcher {s.poller.fetcher with state := .disconnected,error := ""} with stopping := true}

/-- As `SshFetcher::start` leaves it, where somebody can be asked or not. -/
def started (f : Fetcher) (attended : Bool) : SshTail where
  poller := ⟨{f with state := .connecting},false,false,0,kUnknownMtime⟩
  wantsPrompter := attended
  reconnectRefused := false
  stopping := false
  grace := .initial
  retryAtMs := 0
  place := .top
  log := [.asked attended]

/-- The states of a tail. -/
inductive Tailing (o : SshFetchOptions) : SshTail→Prop
  | start (f : Fetcher) (attended : Bool) : Tailing o (started f attended)
  | move {s s' : SshTail} {m : TailMove} (h : Tailing o s) (hm : s.step o m=some s') : Tailing o s'

/-! ## What a move does -/

variable {o : SshFetchOptions} {s s' : SshTail} {m : TailMove} {failure : Failure} {error : String} {nowMs : ℤ}

def latch (s : SshTail) : Latch := ⟨s.grace,s.wantsPrompter,s.reconnectRefused,s.log⟩

private theorem reconnected_kept (h : s.latch.Kept) : (s.reconnected failure error nowMs).latch.Kept := by
  cases failure with
  | none => exact h.signIn
  | unreachable => exact h.fail (Or.inl rfl)
  | noSuchFile => exact h.fail (Or.inr rfl)
  | refused => exact h.refuse
  | needsPerson =>
    have hmissed := @Latch.Kept.miss _ nowMs h
    have hlatch : (s.reconnected .needsPerson error nowMs).latch=s.latch.miss nowMs := by
      rw [reconnected,Latch.miss]
      show latch (if (s.grace.keepTrying nowMs).2=true then _ else _)=_
      cases htried : (s.grace.keepTrying nowMs).2 with
      | true =>
        rw [if_pos rfl]
        simp [latch,withFetcher,htried]
      | false =>
        rw [if_neg (by simp)]
        simp [latch,withFetcher,htried]
    exact hlatch ▸ hmissed

theorem reconnected_frame : (s.reconnected failure error nowMs).place=.resting false ∧
    (s.reconnected failure error nowMs).log=.ended failure nowMs::s.log ∧
    (s.reconnected failure error nowMs).retryAtMs=s.retryAtMs ∧
    (s.reconnected failure error nowMs).stopping=s.stopping := by
  cases failure with
  | none => exact ⟨rfl,rfl,rfl,rfl⟩
  | unreachable => exact ⟨rfl,rfl,rfl,rfl⟩
  | noSuchFile => exact ⟨rfl,rfl,rfl,rfl⟩
  | refused => exact ⟨rfl,rfl,rfl,rfl⟩
  | needsPerson =>
    rw [reconnected]
    dsimp only
    split
    · exact ⟨rfl,rfl,rfl,rfl⟩
    · exact ⟨rfl,rfl,rfl,rfl⟩

/-! ## The whole tail -/

/-- The latest entry is the end of an attempt that failed for good. -/
def JustGaveUp (s : SshTail) : Prop :=
  ∃failure nowMs earlier,s.log=.ended failure nowMs::earlier ∧
    terminal ReconnectGrace.kDefaultGraceMs earlier failure nowMs=true

/-- The latch at each place of a turn, as it was when the turn began. -/
def Turned (s : SshTail) : Prop :=
  match s.place with
  | .turning refused => refused=false→s.reconnectRefused=false
  | .attempting _ => s.reconnectRefused=false
  | .polling refused => s.poller.session=true ∧ (refused=false→s.reconnectRefused=false)
  | .resting refused => refused=false→s.reconnectRefused=true→s.JustGaveUp
  | .sleeping refused _ => refused=false→s.reconnectRefused=true→s.JustGaveUp
  | .top => True
  | .done => s.stopping=true

/-- A deadline is up only while the worker sleeps, and is the end of its sleep. -/
def Counts (s : SshTail) : Prop :=
  match s.place with
  | .sleeping refused wakeMs => (s.retryAtMs≠0 → refused=false ∧ s.retryAtMs=wakeMs) ∧
      (s.stopping=false→s.retryAtMs=if s.slow ∧ refused=false then wakeMs else 0)
  | _ => s.retryAtMs=0

structure Sound (s : SshTail) : Prop where
  kept : s.latch.Kept
  turned : Turned s
  counts : Counts s

/-- What happens beside the worker's turn. -/
theorem Turned.keeps (h : Turned s) (hp : s'.place=s.place) (hs : s'.poller.session=s.poller.session)
    (hlatch : s'.reconnectRefused=false ∨ s'.reconnectRefused=s.reconnectRefused ∧ s'.log=s.log)
    (hstop : s.stopping=true→s'.stopping=true) : Turned s' := by
  have hfree (hf : s.reconnectRefused=false) : s'.reconnectRefused=false := by
    rcases hlatch with hopen | ⟨hsame,-⟩
    · exact hopen
    · exact hsame.trans hf
  have hgone (hg : s.reconnectRefused=true→s.JustGaveUp) (hlatched : s'.reconnectRefused=true) : s'.JustGaveUp := by
    rcases hlatch with hopen | ⟨hsame,hlog⟩
    · exact absurd hlatched (by simp [hopen])
    · rw [JustGaveUp,hlog]
      exact hg (hsame.symm.trans hlatched)
  rw [Turned] at h ⊢
  rw [hp]
  cases hplace : s.place with
  | top => trivial
  | done =>
    rw [hplace] at h
    exact hstop h
  | turning refused =>
    rw [hplace] at h
    exact fun hr => hfree (h hr)
  | attempting mayPrompt =>
    rw [hplace] at h
    exact hfree h
  | polling refused =>
    rw [hplace] at h
    exact ⟨hs.trans h.1,fun hr => hfree (h.2 hr)⟩
  | resting refused =>
    rw [hplace] at h
    exact fun hr => hgone (h hr)
  | sleeping refused wakeMs =>
    rw [hplace] at h
    exact fun hr => hgone (h hr)

theorem Counts.keeps (h : Counts s) (hp : s'.place=s.place) (ht : s'.retryAtMs=s.retryAtMs)
    (hstop : s'.stopping=false→s.stopping=false ∧ s'.slow=s.slow) : Counts s' := by
  rw [Counts] at h ⊢
  rw [hp,ht]
  cases hplace : s.place with
  | sleeping refused wakeMs =>
    rw [hplace] at h
    refine ⟨h.1,fun hruns => ?_⟩
    rw [(hstop hruns).2]
    exact h.2 (hstop hruns).1
  | top | turning _ | attempting _ | polling _ | resting _ | done =>
    rw [hplace] at h
    exact h

private theorem started_sound (f : Fetcher) (attended : Bool) : Sound (started f attended) :=
  ⟨Latch.kept_initial attended,trivial,rfl⟩

private theorem look_sound (h : Sound s) (hm : s.step o .look=some s') : Sound s' := by
  rw [step] at hm
  split at hm
  · rename_i hplace
    obtain rfl := Option.some_inj.mp hm
    have hcounts := h.counts
    rw [Counts,hplace] at hcounts
    refine ⟨h.kept,?_,?_⟩
    · rw [Turned]
      cases hstop : s.stopping with
      | true => simp
      | false => simp
    · rw [Counts]
      cases s.stopping <;> exact hcounts
  · cases hm

private theorem turn_sound (h : Sound s) (hm : s.step o .turn=some s') : Sound s' := by
  rw [step] at hm
  split at hm
  · rename_i refused hplace
    have hturned := h.turned
    have hcounts := h.counts
    rw [Turned,hplace] at hturned
    rw [Counts,hplace] at hcounts
    split at hm
    · rename_i hsession
      obtain rfl := Option.some_inj.mp hm
      exact ⟨h.kept,⟨hsession,hturned⟩,hcounts⟩
    split at hm
    · obtain rfl := Option.some_inj.mp hm
      exact ⟨h.kept,fun hfresh => absurd hfresh (by simp),hcounts⟩
    · rename_i hrefused
      obtain rfl := Option.some_inj.mp hm
      have hfree := hturned (Bool.eq_false_iff.mpr hrefused)
      exact ⟨h.kept.begin_ hfree,hfree,hcounts⟩
  · cases hm

private theorem ended_sound {e : AttemptEnd} (h : Sound s) (hm : s.step o (.ended e nowMs)=some s') : Sound s' := by
  rw [step] at hm
  split at hm
  · rename_i mayPrompt hplace
    obtain ⟨⟨p,failure,error⟩,-,rfl⟩ := Option.map_eq_some_iff.mp hm
    have hturned : s.reconnectRefused=false := by
      have hturned := h.turned
      rwa [Turned,hplace] at hturned
    have hcounts := h.counts
    rw [Counts,hplace] at hcounts
    have hkept : (({s with poller := p} : SshTail).reconnected failure error nowMs).latch.Kept :=
      reconnected_kept h.kept
    obtain ⟨hat,hlog,hretry,-⟩ := @reconnected_frame {s with poller := p} failure error nowMs
    refine ⟨hkept,?_,?_⟩
    · rw [Turned,hat]
      intro _ hlatched
      refine ⟨failure,nowMs,s.log,hlog,?_⟩
      have hgone : gaveUp ReconnectGrace.kDefaultGraceMs (.ended failure nowMs::s.log)=true := by
        rw [← hlog,← hlatched]
        exact hkept.refused.symm
      rw [gaveUp,show gaveUp ReconnectGrace.kDefaultGraceMs s.log=false from h.kept.refused.symm.trans hturned,
        Bool.or_false] at hgone
      exact hgone
    · rw [Counts,hat]
      exact hretry.trans hcounts
  · cases hm

private theorem polled_sound {a : PollAnswers} (h : Sound s) (hm : s.step o (.polled a)=some s') : Sound s' := by
  rw [step] at hm
  split at hm
  · rename_i refused hplace
    have hturned := h.turned
    have hcounts := h.counts
    rw [Turned,hplace] at hturned
    rw [Counts,hplace] at hcounts
    dsimp only at hm
    split at hm
    · obtain rfl := Option.some_inj.mp hm
      refine ⟨h.kept,fun hfresh hlatched => ?_,hcounts⟩
      exact absurd (hturned.2 hfresh) (by simp [show s.reconnectRefused=true from hlatched])
    · cases hm
  · cases hm

private theorem rest_sound {wcSized : Bool} (h : Sound s)
    (hm : s.step o (.rest nowMs wcSized)=some s') : Sound s' := by
  rw [step] at hm
  split at hm
  · rename_i refused hplace
    have hturned := h.turned
    have hcounts := h.counts
    rw [Turned,hplace] at hturned
    rw [Counts,hplace] at hcounts
    split at hm
    · rename_i hstop
      obtain rfl := Option.some_inj.mp hm
      exact ⟨h.kept,hstop,hcounts⟩
    split at hm
    · obtain rfl := Option.some_inj.mp hm
      exact ⟨h.kept,trivial,hcounts⟩
    · obtain rfl := Option.some_inj.mp hm
      refine ⟨h.kept,hturned,?_,fun _ => rfl⟩
      intro hup
      by_cases hslow : s.slow=true ∧ refused=false
      · exact ⟨hslow.2,if_pos hslow⟩
      · exact absurd (if_neg hslow) hup
  · cases hm

private theorem wake_sound (h : Sound s) (hm : s.step o .wake=some s') : Sound s' := by
  rw [step] at hm
  split at hm
  · obtain rfl := Option.some_inj.mp hm
    exact ⟨h.kept,trivial,rfl⟩
  · cases hm

/-- Whenever somebody asks. -/
theorem poke_sound (h : Sound s) (hm : s.step o .poke=some s') : Sound s' := by
  obtain rfl := Option.some_inj.mp hm
  exact ⟨h.kept.ask true,h.turned.keeps rfl rfl (Or.inl rfl) id,h.counts.keeps rfl rfl fun hstop => ⟨hstop,rfl⟩⟩

/-- Whenever it is stopped. -/
theorem stop_sound (h : Sound s) (hm : s.step o .stop=some s') : Sound s' := by
  rw [step] at hm
  split at hm
  · obtain rfl := Option.some_inj.mp hm
    exact h
  · obtain rfl := Option.some_inj.mp hm
    refine ⟨h.kept,h.turned.keeps rfl rfl (Or.inr ⟨rfl,rfl⟩) fun _ => rfl,?_⟩
    exact h.counts.keeps rfl rfl fun hstop => by cases hstop

theorem step_sound (h : Sound s) (hm : s.step o m=some s') : Sound s' := by
  cases m with
  | look => exact look_sound h hm
  | turn => exact turn_sound h hm
  | ended e nowMs => exact ended_sound h hm
  | polled a => exact polled_sound h hm
  | rest nowMs wcSized => exact rest_sound h hm
  | wake => exact wake_sound h hm
  | poke => exact poke_sound h hm
  | stop => exact stop_sound h hm

theorem tailing_sound (h : Tailing o s) : Sound s := by
  induction h with
  | start f attended => exact started_sound f attended
  | move _ hm ih => exact step_sound ih hm

/-- A run of moves. -/
theorem tailing_run {ms : List TailMove} (h : Tailing o s) (hms : ms.foldlM (step o) s=some s') : Tailing o s' := by
  induction ms generalizing s with
  | nil =>
    obtain rfl := Option.some_inj.mp hms
    exact h
  | cons m ms ih =>
    rw [List.foldlM_cons] at hms
    obtain ⟨t,hm,hms⟩ := Option.bind_eq_some_iff.mp hms
    exact ih (h.move hm) hms

/-- Whenever it is asked, each attempt may ask a person exactly where somebody has asked for it since the one
before, and none begins after one that failed for good; the latch is down exactly from such a one to the next
time somebody asks. -/
theorem attempts_permitted (h : Tailing o s) : Permitted ReconnectGrace.kDefaultGraceMs s.log ∧
    s.reconnectRefused=gaveUp ReconnectGrace.kDefaultGraceMs s.log :=
  have hs := tailing_sound h
  ⟨hs.kept.permitted,hs.kept.refused⟩

/-- While a sleep lasts its deadline stays. -/
theorem step_sleeping {refused : Bool} {wakeMs : ℤ} (hm : s.step o m=some s')
    (hplace : s.place=.sleeping refused wakeMs)
    (hplace' : s'.place=.sleeping refused wakeMs) : s'.retryAtMs=s.retryAtMs := by
  cases m with
  | poke =>
    obtain rfl := Option.some_inj.mp hm
    rfl
  | stop =>
    rw [step] at hm
    split at hm <;>
    · obtain rfl := Option.some_inj.mp hm
      rfl
  | wake =>
    simp only [step,hplace,Option.some.injEq] at hm
    subst hm
    cases hplace'
  | _ => simp [step,hplace] at hm

/-- A deadline is up exactly while the worker sleeps, after a failure, in a turn that it began with the latch
open, and is the end of that sleep, as long as it lasts; where nothing will be tried then, the attempt before it
is the one that failed for good. -/
theorem countdown_ends (h : Tailing o s) :
    (s.retryAtMs≠0→∃wakeMs,s.place=.sleeping false wakeMs ∧ s.retryAtMs=wakeMs) ∧
    (∀refused wakeMs,s.place=.sleeping refused wakeMs→s.stopping=false→
      s.retryAtMs=if s.slow ∧ refused=false then wakeMs else 0) ∧
    (∀m s',s.step o m=some s'→∀refused wakeMs,s.place=.sleeping refused wakeMs→s'.place=.sleeping refused wakeMs→
      s'.retryAtMs=s.retryAtMs) ∧
    (s.retryAtMs≠0 → gaveUp ReconnectGrace.kDefaultGraceMs s.log=true→s.JustGaveUp) := by
  obtain ⟨hkept,hturned,hcounts⟩ := tailing_sound h
  rw [Counts] at hcounts
  have hup (hne : s.retryAtMs≠0) : ∃wakeMs,s.place=.sleeping false wakeMs ∧ s.retryAtMs=wakeMs := by
    cases hplace : s.place with
    | sleeping refused wakeMs =>
      rw [hplace] at hcounts
      obtain ⟨rfl,hend⟩ := hcounts.1 hne
      exact ⟨wakeMs,rfl,hend⟩
    | top | turning _ | attempting _ | polling _ | resting _ | done =>
      rw [hplace] at hcounts
      exact absurd hcounts hne
  refine ⟨hup,?_,fun m s' hm refused wakeMs => step_sleeping hm,?_⟩
  · intro refused wakeMs hplace hruns
    rw [hplace] at hcounts
    exact hcounts.2 hruns
  · intro hne hgone
    obtain ⟨wakeMs,hplace,-⟩ := hup hne
    rw [Turned,hplace] at hturned
    exact hturned rfl (hkept.refused.trans hgone)

/-! ## It tries again -/

/-- Nobody has stopped the tail, it has no session and has not given up, and its worker is not in an attempt. -/
structure Waits (s : SshTail) : Prop where
  running : s.stopping=false
  session : s.poller.session=false
  unlatched : s.reconnectRefused=false
  place : ∀mayPrompt,s.place≠.attempting mayPrompt

/-- How many moves of the worker there are to the next attempt, at most. -/
def away : TailPlace→ℕ
  | .turning false => 1
  | .top => 2
  | .sleeping _ _ => 3
  | .resting _ => 4
  | .turning true => 5
  | _ => 0

private theorem away_le (place : TailPlace) : away place≤5 := by
  cases place with
  | turning refused => cases refused <;> simp [away]
  | top | attempting _ | polling _ | resting _ | sleeping _ _ | done => simp [away]

theorem Waits.away_pos (hw : Waits s) (h : Sound s) : 0 < away s.place := by
  have hturned := h.turned
  rw [Turned] at hturned
  cases hplace : s.place with
  | turning refused => cases refused <;> simp [away]
  | attempting mayPrompt => exact absurd hplace (hw.place mayPrompt)
  | polling refused =>
    rw [hplace] at hturned
    exact absurd hw.session (by simp [hturned.1])
  | done =>
    rw [hplace] at hturned
    exact absurd hw.running (by simp [show s.stopping=true from hturned])
  | top | resting _ | sleeping _ _ => simp [away]

/-- Each move of the worker begins an attempt or comes nearer to one. -/
theorem Waits.nearer (hw : Waits s) (h : Sound s) (hworker : m.isWorker=true) (hm : s.step o m=some s') :
    (∃mayPrompt,s'.log=.began mayPrompt::s.log) ∨ Waits s' ∧ s'.log=s.log ∧ away s'.place < away s.place := by
  have hpos := hw.away_pos h
  cases m with
  | look =>
    rw [step] at hm
    split at hm
    · rename_i hplace
      obtain rfl := Option.some_inj.mp hm
      rw [hw.running,if_neg (by simp),hw.unlatched,hplace]
      exact Or.inr ⟨⟨rfl,hw.session,rfl,by simp⟩,rfl,by simp [away]⟩
    · cases hm
  | turn =>
    rw [step] at hm
    split at hm
    · rename_i refused hplace
      rw [if_neg (by simp [hw.session])] at hm
      split at hm
      · rename_i hrefused
        obtain rfl := Option.some_inj.mp hm
        rw [hplace,hrefused]
        exact Or.inr ⟨⟨hw.running,hw.session,hw.unlatched,by simp⟩,rfl,by simp [away]⟩
      · obtain rfl := Option.some_inj.mp hm
        exact Or.inl ⟨_,rfl⟩
    · cases hm
  | ended e nowMs =>
    rw [step] at hm
    split at hm
    · rename_i mayPrompt hplace
      exact absurd hplace (hw.place mayPrompt)
    · cases hm
  | polled a =>
    rw [step] at hm
    split at hm
    · rename_i refused hplace
      rw [hplace] at hpos
      exact absurd hpos (by simp [away])
    · cases hm
  | rest nowMs wcSized =>
    rw [step] at hm
    split at hm
    · rename_i refused hplace
      rw [if_neg (by simp [hw.running])] at hm
      split at hm
      · obtain rfl := Option.some_inj.mp hm
        rw [hplace]
        exact Or.inr ⟨⟨hw.running,hw.session,hw.unlatched,by simp⟩,rfl,by simp [away]⟩
      · obtain rfl := Option.some_inj.mp hm
        rw [hplace]
        exact Or.inr ⟨⟨hw.running,hw.session,hw.unlatched,by simp⟩,rfl,by simp [away]⟩
    · cases hm
  | wake =>
    rw [step] at hm
    split at hm
    · rename_i refused wakeMs hplace
      obtain rfl := Option.some_inj.mp hm
      rw [hplace]
      exact Or.inr ⟨⟨hw.running,hw.session,hw.unlatched,by simp⟩,rfl,by simp [away]⟩
    · cases hm
  | poke => cases hworker
  | stop => cases hworker

/-- The history only grows. -/
theorem step_log (hm : s.step o m=some s') : s.log<:+s'.log := by
  cases m with
  | look | wake =>
    rw [step] at hm
    split at hm
    · obtain rfl := Option.some_inj.mp hm
      exact List.suffix_rfl
    · cases hm
  | turn =>
    rw [step] at hm
    split at hm
    · split at hm
      · obtain rfl := Option.some_inj.mp hm
        exact List.suffix_rfl
      split at hm
      · obtain rfl := Option.some_inj.mp hm
        exact List.suffix_rfl
      · obtain rfl := Option.some_inj.mp hm
        exact List.suffix_cons _ _
    · cases hm
  | ended e nowMs =>
    rw [step] at hm
    split at hm
    · obtain ⟨⟨p,failure,error⟩,-,rfl⟩ := Option.map_eq_some_iff.mp hm
      rw [(@reconnected_frame {s with poller := p} failure error nowMs).2.1]
      exact List.suffix_cons _ _
    · cases hm
  | polled a =>
    rw [step] at hm
    split at hm
    · dsimp only at hm
      split at hm
      · obtain rfl := Option.some_inj.mp hm
        exact List.suffix_rfl
      · cases hm
    · cases hm
  | rest nowMs wcSized =>
    rw [step] at hm
    split at hm
    · split at hm
      · obtain rfl := Option.some_inj.mp hm
        exact List.suffix_rfl
      split at hm
      · obtain rfl := Option.some_inj.mp hm
        exact List.suffix_rfl
      · obtain rfl := Option.some_inj.mp hm
        exact List.suffix_rfl
    · cases hm
  | poke =>
    obtain rfl := Option.some_inj.mp hm
    exact List.suffix_cons _ _
  | stop =>
    rw [step] at hm
    split at hm
    · obtain rfl := Option.some_inj.mp hm
      exact List.suffix_rfl
    · obtain rfl := Option.some_inj.mp hm
      exact List.suffix_rfl

private theorem run_log {ms : List TailMove} (hms : ms.foldlM (step o) s=some s') : s.log<:+s'.log := by
  induction ms generalizing s with
  | nil =>
    obtain rfl := Option.some_inj.mp hms
    exact List.suffix_rfl
  | cons m ms ih =>
    rw [List.foldlM_cons] at hms
    obtain ⟨t,hm,hms⟩ := Option.bind_eq_some_iff.mp hms
    exact (step_log hm).trans (ih hms)

theorem Waits.begins {ms : List TailMove} (hw : Waits s) (h : Sound s) (hworker : ∀m∈ms,m.isWorker=true)
    (hlength : away s.place ≤ ms.length) (hms : ms.foldlM (step o) s=some s') :
    ∃mayPrompt,(.began mayPrompt::s.log)<:+s'.log := by
  induction ms generalizing s with
  | nil => exact absurd (hw.away_pos h) (by simpa using hlength)
  | cons m ms ih =>
    rw [List.foldlM_cons] at hms
    obtain ⟨t,hm,hms⟩ := Option.bind_eq_some_iff.mp hms
    rcases hw.nearer h (hworker m List.mem_cons_self) hm with ⟨mayPrompt,hbegan⟩ | ⟨hwaits,hlog,hnearer⟩
    · exact ⟨mayPrompt,hbegan ▸ run_log hms⟩
    · rw [← hlog]
      rw [List.length_cons] at hlength
      exact ih hwaits (step_sound h hm) (fun m hmem => hworker m (List.mem_cons_of_mem _ hmem)) (by omega) hms

/-- A tail that has lost its session, or never had one, begins an attempt within five moves of its worker, unless it
is stopped or the last attempt failed for good. -/
theorem tries_again {ms : List TailMove} (h : Tailing o s) (hruns : s.stopping=false)
    (hsession : s.poller.session=false)
    (hopen : gaveUp ReconnectGrace.kDefaultGraceMs s.log=false) (hplace : ∀mayPrompt,s.place≠.attempting mayPrompt)
    (hworker : ∀m∈ms,m.isWorker=true) (hlength : 5 ≤ ms.length) (hms : ms.foldlM (step o) s=some s') :
    ∃mayPrompt,(.began mayPrompt::s.log)<:+s'.log := by
  have hs := tailing_sound h
  have hw : Waits s := ⟨hruns,hsession,hs.kept.refused.trans hopen,hplace⟩
  exact hw.begins hs hworker ((away_le s.place).trans hlength) hms

section Unattended

def plainOptions : SshFetchOptions := ⟨plainNames,1000,0⟩

/-- An unattended attempt in which somebody is missed after having asked, and the sleep after it. -/
def askedMeanwhile : List TailMove := [.look,.turn,.poke,.ended (.early .needsPerson "password") 7]

/-- The attempt that was asked for is not made. -/
theorem attempts_permitted_meanwhile : ∃s,Tailing plainOptions s ∧
    s.log=[.ended .needsPerson 7,.asked true,.began false,.asked false] ∧ s.reconnectRefused=true ∧
    Permitted ReconnectGrace.kDefaultGraceMs s.log := by
  obtain ⟨s,hs,hlog,hlatch⟩ : ∃s,askedMeanwhile.foldlM (step plainOptions) (started idleFetcher false)=some s ∧
      s.log=[.ended .needsPerson 7,.asked true,.began false,.asked false] ∧ s.reconnectRefused=true :=
        ⟨_,rfl,rfl,rfl⟩
  have ht := tailing_run (.start idleFetcher false) hs
  exact ⟨s,ht,hlog,hlatch,(attempts_permitted ht).1⟩

/-- The end of a sleep after which nothing is tried. -/
theorem countdown_ends_refused : ∃s,Tailing plainOptions s ∧ s.retryAtMs=5007 ∧ s.reconnectRefused=true ∧
    s.JustGaveUp := by
  obtain ⟨s,hs,hretry,hlatch⟩ : ∃s,[TailMove.look,.turn,.ended (.early .refused "rejected") 7,.rest 7 false].foldlM
      (step plainOptions) (started idleFetcher false)=some s ∧ s.retryAtMs=5007 ∧ s.reconnectRefused=true :=
    ⟨_,rfl,rfl,rfl⟩
  have ht := tailing_run (.start idleFetcher false) hs
  have hgone := (tailing_sound ht).kept.refused.symm.trans hlatch
  exact ⟨s,ht,hretry,hlatch,(countdown_ends ht).2.2.2 (by rw [hretry]; decide) hgone⟩

theorem tries_again_unreachable : ∃s,Tailing plainOptions s ∧
    ∃mayPrompt,[.began mayPrompt,.asked false]<:+s.log := by
  obtain ⟨s,hs⟩ : ∃s,[TailMove.look,.turn,.ended (.early .unreachable "down") 7,.rest 7 false,.wake].foldlM
      (step plainOptions) (started idleFetcher false)=some s := ⟨_,rfl⟩
  have hbegun := tries_again (.start idleFetcher false) rfl rfl rfl (by simp [started])
    (by simp [TailMove.isWorker])
    (by simp) hs
  exact ⟨s,tailing_run (.start idleFetcher false) hs,hbegun⟩

end Unattended

end SshTail

end Loftail
