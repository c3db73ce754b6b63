import Loftail.AppendOnlyLog
import Loftail.TailHistory

/-! # The worker of a tail over a console

As over SSH, but for one thing: what an attempt sets up to read the log with is left in place where the log cannot
be opened, and a turn that finds it in place makes no attempt. -/
namespace Loftail
open TailHistory

/-- `kSlowPollMs`. -/
def kSlowPollMs : ℤ := 5000

/-- `SerialFetchOptions`. -/
structure SerialFetchOptions (Profile : Type) where
  profile : Profile
  tailStartBytes : ℕ
  deriving DecidableEq

/-- `ConsoleSession::Ready`. -/
inductive Ready
  | ok
  | refused (reason : String)
  | notYet (reason : String)

/-- What opening the log came to: its size can be asked for, or the text says why not. -/
inductive Opening.Answer
  | settled
  | refused (why : String)
  | unsettled (why : String)

/-- What an attempt is answered. -/
structure ConsoleAttempt where
  endpoint : Except String Unit
  ready : Ready
  toolsThere : Bool
  opened : Opening.Answer
  stat : Option (ℕ×ℤ)
  begins : Bool
  fetch : FetchCall

/-- What a poll is answered: `stat` is what the far end would say of the log's size; `classified` is the text of
its answer to what is wrong with the path. -/
structure ConsoleAnswers (Profile : Type) where
  rebooted : Bool
  current : SerialFetchOptions Profile
  attempt : ConsoleAttempt
  moved : Bool
  stat : Option (ℕ×ℤ)
  classified : Option String
  reopened : Opening.Answer
  fresh : Option (ℕ×ℤ)
  begins : Bool
  fetch : FetchCall

inductive ConsoleMove (Profile : Type)
  | look
  | polled (a : ConsoleAnswers Profile) (nowMs : ℤ)
  | rest (nowMs : ℤ)
  | wake
  | poke (attended : Bool)
  | stop

inductive ConsolePlace
  | top
  | polling
  | resting
  | sleeping (wakeMs : ℤ)
  | done

/-- The fetcher and its loop. `exec` is what the log is read with, and whether it has a way to ask for the log's
size. -/
structure ConsoleTail (Profile : Type) where
  fetcher : Fetcher
  exec : Option Bool
  options : SerialFetchOptions Profile
  signInAtOnce : Bool
  stopping : Bool
  latch : Latch
  lastSize : ℤ
  lastMtime : ℤ
  retryAtMs : ℤ
  place : ConsolePlace

namespace ConsoleTail
variable {Profile : Type}

def setState (s : ConsoleTail Profile) (state : FetchState) : ConsoleTail Profile :=
  if s.fetcher.state=state then s else {s with fetcher := s.fetcher.setState state,retryAtMs := 0}

def setWaiting (s : ConsoleTail Profile) (message : String) : ConsoleTail Profile :=
  {s with fetcher := s.fetcher.setWaiting message,retryAtMs := 0}

/-- A refusal, which is latched. -/
def refuse (s : ConsoleTail Profile) (message : String) (nowMs : ℤ) : ConsoleTail Profile :=
  {s with latch := s.latch.refuse nowMs,fetcher := s.fetcher.setError message}

/-- A call of `ConsoleFetcher::fetchForward`, once it has returned. -/
def fetched (s : ConsoleTail Profile) (names : FetchNames) (from_ to_ : ℕ) (call : FetchCall) :
    Option (ConsoleTail Profile×Bool) :=
  match ConsoleFetcher.fetchForward s.fetcher names from_ to_ call with
  | (_,none) => none
  | (f,some ok) => some ({s with fetcher := f},ok)

/-- The part of `ConsoleFetcher::establish` after the sign-in. -/
def signedIn (s : ConsoleTail Profile) (names : FetchNames) (a : ConsoleAttempt) (nowMs : ℤ) :
    Option (ConsoleTail Profile) :=
  let s := {s with exec := some false}
  if a.toolsThere=false then
    some (s.setWaiting
      (names.host++" answered, but `tail` and `head` are not there — loftail cannot read a log without them."))
  else
    let s := s.setState .priming
    match a.opened with
    | .refused why => some (s.refuse why nowMs)
    | .unsettled why => some (s.setWaiting why)
    | .settled =>
      let s := {s with exec := some true}
      match a.stat with
      | none => some (s.setWaiting (names.path++" is not readable on "++names.host++" right now."))
      | some (size,mtime) =>
        let begun := s.fetcher.beginGeneration names size s.options.tailStartBytes a.begins
        let s := {s with fetcher := begun.1}
        if begun.2=false then some s else
          (s.fetched names s.fetcher.baseOffset size a.fetch).map fun r =>
            if r.2 then {r.1 with lastSize := size,lastMtime := mtime}.setState .live else r.1

/-- `ConsoleFetcher::establish`. -/
def establish (s : ConsoleTail Profile) (names : FetchNames) (current : SerialFetchOptions Profile)
    (a : ConsoleAttempt) (nowMs : ℤ) : Option (ConsoleTail Profile) :=
  let s := {s with options := current}
  match a.endpoint with
  | .error why => some (s.setWaiting why)
  | .ok _ =>
    let s := {s with latch := s.latch.begin_}
    match a.ready with
    | .refused reason =>
      let trying := (s.latch.grace.keepTrying nowMs).2
      let s := {s with latch := s.latch.miss nowMs}
      some (if trying then s.setWaiting reason else {s with fetcher := s.fetcher.setError reason})
    | .notYet reason => some ({s with latch := s.latch.fail .unreachable nowMs}.setWaiting reason)
    | .ok => {s with latch := s.latch.signIn nowMs}.signedIn names a nowMs

/-- What the poll's one question about the log justifies. -/
def measured (s : ConsoleTail Profile) (names : FetchNames) (a : ConsoleAnswers Profile) (size : ℕ) (mtime : ℤ) :
    Option (ConsoleTail Profile) :=
  let consumed := s.fetcher.consumed
  let verdict := rotationVerdict ⟨size,mtime,s.lastSize,s.lastMtime,consumed,false,false,0⟩
  let s := {s with lastSize := size,lastMtime := mtime}
  if verdict=.rotated then
    let s := s.setState .priming
    match a.reopened with
    | .settled =>
      let s := {s with exec := some true}
      let size := (a.fresh.map Prod.fst).getD 0
      let begun := s.fetcher.beginGeneration names size s.options.tailStartBytes a.begins
      let s := {s with fetcher := begun.1}
      if begun.2=false then some s else
        (s.fetched names s.fetcher.baseOffset size a.fetch).map fun r => if r.2 then r.1.setState .live else r.1
    | .refused why => some ({s with exec := some false}.setWaiting why)
    | .unsettled why => some ({s with exec := some false}.setWaiting why)
  else if consumed < size then
    (s.fetched names consumed size a.fetch).map fun r => if r.2 then r.1.setState .live else r.1
  else some (s.setState .live)

/-- `ConsoleFetcher::pollOnce`, once it has returned. -/
def pollOnce [DecidableEq Profile] (s : ConsoleTail Profile) (names : FetchNames) (a : ConsoleAnswers Profile)
    (nowMs : ℤ) : Option (ConsoleTail Profile) :=
  if a.rebooted then some ({s with exec := none}.setWaiting (names.host++" restarted — signing in again")) else
  match s.exec with
  | none => s.establish names a.current a.attempt nowMs
  | some settled =>
    if a.moved then
      some {({s with exec := none} : ConsoleTail Profile).setWaiting
        (names.displayHost++" moved to another address — signing in again") with signInAtOnce := true}
    else if a.current.profile≠s.options.profile ∨ a.current.tailStartBytes≠s.options.tailStartBytes then
      some ({s with exec := none}.setWaiting ("Applying the new settings for "++names.displayHost))
    else
      -- Nothing is asked of the log's size where there is no way to ask for it.
      match (if settled then a.stat else none) with
      | none =>
        match a.classified with
        | some text => some (s.setWaiting text)
        | none => some ({s with exec := none}.setWaiting
          ("Lost the console on "++names.host++" — signing in again"))
      | some (size,mtime) => s.measured names a size mtime

def slow (s : ConsoleTail Profile) : Bool := s.fetcher.state=.error ∨ s.fetcher.state=.waiting

/-- The presets' poll intervals, and what appears in messages. -/
structure Far (Profile : Type) where
  names : FetchNames
  pollMs : Profile→ℤ

/-- `ConsoleFetcher::tailLoop`, `pokeNow` and `requestStop`. -/
def step [DecidableEq Profile] (far : Far Profile) (s : ConsoleTail Profile) :
    ConsoleMove Profile→Option (ConsoleTail Profile)
  | .look =>
    match s.place with
    | .top => some {s with place := if s.stopping then .done else if s.latch.refused then .resting else .polling}
    | _ => none
  | .polled a nowMs =>
    match s.place with
    | .polling => (s.pollOnce far.names a nowMs).map fun s =>
        {s with place := if s.signInAtOnce then .top else .resting,signInAtOnce := false}
    | _ => none
  | .rest nowMs =>
    match s.place with
    | .resting =>
      if s.stopping then some {s with place := .done} else
        let pollMs := far.pollMs s.options.profile
        let wakeMs := nowMs+if s.slow then max pollMs kSlowPollMs else max 200 pollMs
        some {s with retryAtMs := if s.slow ∧ s.latch.refused=false then wakeMs else 0,place := .sleeping wakeMs}
    | _ => none
  | .wake =>
    match s.place with
    | .sleeping _ => some {s with retryAtMs := 0,place := .top}
    | _ => none
  | .poke attended => some {s with latch := s.latch.ask attended}
  | .stop => some (if s.stopping then s else {s.setState .disconnected with stopping := true})

/-- As `ConsoleFetcher::start` leaves it. -/
def started (f : Fetcher) (options : SerialFetchOptions Profile) (attended : Bool) : ConsoleTail Profile where
  fetcher := {f with state := .connecting}
  exec := none
  options := options
  signInAtOnce := false
  stopping := false
  latch := .initial attended
  lastSize := 0
  lastMtime := kUnknownMtime
  retryAtMs := 0
  place := .top

/-- The states of a tail. -/
inductive Tailing [DecidableEq Profile] (far : Far Profile) : ConsoleTail Profile→Prop
  | start (f : Fetcher) (options : SerialFetchOptions Profile) (attended : Bool) : Tailing far
    (started f options attended)
  | move {s s' : ConsoleTail Profile} {m : ConsoleMove Profile} (h : Tailing far s) (hm : s.step far m=some s') :
    Tailing far s'

/-! ## What a turn leaves as it was -/

section Frame
variable {s t u : ConsoleTail Profile} {names : FetchNames} {nowMs : ℤ}

/-- All but the fetcher, what it reads the log with and what it saw of it. -/
structure Same (s t : ConsoleTail Profile) : Prop where
  latch : t.latch=s.latch
  stopping : t.stopping=s.stopping
  retry : s.retryAtMs=0→t.retryAtMs=0

theorem Same.refl (s : ConsoleTail Profile) : Same s s := ⟨rfl,rfl,id⟩

theorem Same.trans (h : Same s t) (h' : Same t u) : Same s u :=
  ⟨h'.latch.trans h.latch,h'.stopping.trans h.stopping,fun hz => h'.retry (h.retry hz)⟩

theorem same_setState (s : ConsoleTail Profile) (state : FetchState) : Same s (s.setState state) := by
  rw [setState]
  split
  · exact .refl s
  · exact ⟨rfl,rfl,fun _ => rfl⟩

private theorem same_setWaiting (s : ConsoleTail Profile) (message : String) : Same s (s.setWaiting message) :=
  ⟨rfl,rfl,fun _ => rfl⟩

private theorem fetched_same {from_ to_ : ℕ} {call : FetchCall} {r : ConsoleTail Profile×Bool}
    (h : s.fetched names from_ to_ call=some r) : Same s r.1 := by
  rw [fetched] at h
  split at h
  · cases h
  · obtain rfl := Option.some_inj.mp h
    exact ⟨rfl,rfl,id⟩

/-- A fetch, and the state it leaves where it worked. -/
theorem fetched_live {from_ to_ : ℕ} {call : FetchCall} {f : ConsoleTail Profile → ConsoleTail Profile}
    (hf : ∀s,Same s (f s)) (h : ((s.fetched names from_ to_ call).map fun r => if r.2 then f r.1 else r.1)=some t) :
    Same s t := by
  obtain ⟨r,hr,rfl⟩ := Option.map_eq_some_iff.mp h
  have hsame := fetched_same hr
  split
  · exact hsame.trans (hf r.1)
  · exact hsame

private theorem measured_same {a : ConsoleAnswers Profile} {size : ℕ} {mtime : ℤ}
    (h : s.measured names a size mtime=some t) :
    Same s t := by
  rw [measured] at h
  dsimp only at h
  have hsized : Same s {s with lastSize := size,lastMtime := mtime} := ⟨rfl,rfl,id⟩
  split at h
  · have hpriming := hsized.trans (same_setState {s with lastSize := size,lastMtime := mtime} .priming)
    split at h
    · split at h
      · obtain rfl := Option.some_inj.mp h
        exact ⟨hpriming.1,hpriming.2,hpriming.3⟩
      · have hlive := fetched_live (fun s => same_setState s .live) h
        exact hpriming.trans ⟨hlive.1,hlive.2,hlive.3⟩
    · obtain rfl := Option.some_inj.mp h
      exact ⟨hpriming.1,hpriming.2,fun _ => rfl⟩
    · obtain rfl := Option.some_inj.mp h
      exact ⟨hpriming.1,hpriming.2,fun _ => rfl⟩
  split at h
  · exact hsized.trans (fetched_live (fun s => same_setState s .live) h)
  · obtain rfl := Option.some_inj.mp h
    exact hsized.trans (same_setState _ .live)

/-- After the sign-in there is at most a refusal. -/
theorem signedIn_same {a : ConsoleAttempt} (h : s.signedIn names a nowMs=some t) :
    Same s t ∨ t.latch=s.latch.refuse nowMs ∧ t.stopping=s.stopping ∧ (s.retryAtMs=0→t.retryAtMs=0) := by
  rw [signedIn] at h
  dsimp only at h
  split at h
  · obtain rfl := Option.some_inj.mp h
    exact Or.inl ⟨rfl,rfl,fun _ => rfl⟩
  have hexec : Same s {s with exec := some false} := ⟨rfl,rfl,id⟩
  have hpriming := hexec.trans (same_setState {s with exec := some false} .priming)
  split at h
  · obtain rfl := Option.some_inj.mp h
    exact Or.inr ⟨congrArg (Latch.refuse · nowMs) hpriming.latch,hpriming.stopping,hpriming.retry⟩
  · obtain rfl := Option.some_inj.mp h
    exact Or.inl (hpriming.trans (same_setWaiting _ _))
  · left
    split at h
    · obtain rfl := Option.some_inj.mp h
      exact ⟨hpriming.1,hpriming.2,fun _ => rfl⟩
    · rename_i size mtime hstat
      have hseen (r : ConsoleTail Profile) :
        Same r (({r with lastSize := size,lastMtime := mtime}).setState .live) :=
        (⟨rfl,rfl,id⟩ : Same r {r with lastSize := size,lastMtime := mtime}).trans (same_setState _ .live)
      split at h
      · obtain rfl := Option.some_inj.mp h
        exact ⟨hpriming.1,hpriming.2,hpriming.3⟩
      · have hlive := fetched_live hseen h
        exact hpriming.trans ⟨hlive.1,hlive.2,hlive.3⟩

end Frame

section Loop
variable [DecidableEq Profile] {far : Far Profile} {names : FetchNames} {s s' t u : ConsoleTail Profile}
  {a : ConsoleAnswers Profile} {nowMs : ℤ} {m : ConsoleMove Profile} {ms : List (ConsoleMove Profile)}

omit [DecidableEq Profile] in
/-- An attempt is one of the latch's. -/
theorem establish_kept {current : SerialFetchOptions Profile} {attempt : ConsoleAttempt}
    (h : s.establish names current attempt nowMs=some t) (hk : s.latch.Kept) (hfree : s.latch.refused=false) :
    t.latch.Kept ∧ t.stopping=s.stopping ∧ (s.retryAtMs=0→t.retryAtMs=0) := by
  have hbegan := hk.begin_ hfree
  rw [establish] at h
  dsimp only at h
  split at h
  · obtain rfl := Option.some_inj.mp h
    exact ⟨hk,rfl,fun _ => rfl⟩
  split at h
  · obtain rfl := Option.some_inj.mp h
    split
    · exact ⟨hbegan.miss,rfl,fun _ => rfl⟩
    · exact ⟨hbegan.miss,rfl,id⟩
  · obtain rfl := Option.some_inj.mp h
    exact ⟨hbegan.fail (Or.inl rfl),rfl,fun _ => rfl⟩
  · have hin := @Latch.Kept.signIn _ nowMs hbegan
    rcases signedIn_same h with hsame | ⟨hlatch,hstop,hretry⟩
    · rw [hsame.latch]
      exact ⟨hin,hsame.stopping,hsame.retry⟩
    · rw [hlatch]
      exact ⟨hin.refuse,hstop,hretry⟩

private theorem pollOnce_kept (h : s.pollOnce names a nowMs=some t) (hk : s.latch.Kept)
    (hfree : s.latch.refused=false) :
    t.latch.Kept ∧ t.stopping=s.stopping ∧ (s.retryAtMs=0→t.retryAtMs=0) := by
  rw [pollOnce] at h
  split at h
  · obtain rfl := Option.some_inj.mp h
    exact ⟨hk,rfl,fun _ => rfl⟩
  split at h
  · exact establish_kept h hk hfree
  dsimp only at h
  split at h
  · obtain rfl := Option.some_inj.mp h
    exact ⟨hk,rfl,fun _ => rfl⟩
  split at h
  · obtain rfl := Option.some_inj.mp h
    exact ⟨hk,rfl,fun _ => rfl⟩
  split at h
  · split at h
    · obtain rfl := Option.some_inj.mp h
      exact ⟨hk,rfl,fun _ => rfl⟩
    · obtain rfl := Option.some_inj.mp h
      exact ⟨hk,rfl,fun _ => rfl⟩
  · have hsame := measured_same h
    exact ⟨hsame.latch ▸ hk,hsame.stopping,hsame.retry⟩

/-- A deadline is up only while the worker sleeps, and while another attempt is to come. -/
def Counts (s : ConsoleTail Profile) : Prop :=
  match s.place with
  | .sleeping wakeMs => s.retryAtMs≠0→s.latch.refused=false ∧ s.retryAtMs=wakeMs
  | _ => s.retryAtMs=0

structure Sound (s : ConsoleTail Profile) : Prop where
  kept : s.latch.Kept
  polling : s.place=.polling→s.latch.refused=false
  counts : Counts s

theorem step_sound (h : Sound s) (hm : s.step far m=some s') : Sound s' := by
  have hcounts := h.counts
  rw [Counts] at hcounts
  cases m with
  | look =>
    rw [step] at hm
    split at hm
    · rename_i hplace
      obtain rfl := Option.some_inj.mp hm
      rw [hplace] at hcounts
      refine ⟨h.kept,fun hpolling => ?_,?_⟩
      · dsimp only at hpolling
        split at hpolling
        · cases hpolling
        split at hpolling
        · cases hpolling
        · rename_i hopen
          exact Bool.eq_false_iff.mpr hopen
      · rw [Counts]
        dsimp only
        split
        · rename_i wakeMs hsleeping
          split at hsleeping
          · cases hsleeping
          split at hsleeping <;> cases hsleeping
        · exact hcounts
    · cases hm
  | polled a nowMs =>
    rw [step] at hm
    split at hm
    · rename_i hplace
      rw [hplace] at hcounts
      obtain ⟨t,ht,rfl⟩ := Option.map_eq_some_iff.mp hm
      obtain ⟨hkept,-,hretry⟩ := pollOnce_kept ht h.kept (h.polling hplace)
      refine ⟨hkept,fun hpolling => ?_,?_⟩
      · dsimp only at hpolling
        split at hpolling <;> cases hpolling
      · rw [Counts]
        dsimp only
        split
        · rename_i wakeMs hsleeping
          split at hsleeping <;> cases hsleeping
        · exact hretry hcounts
    · cases hm
  | rest nowMs =>
    rw [step] at hm
    split at hm
    · rename_i hplace
      rw [hplace] at hcounts
      split at hm
      · obtain rfl := Option.some_inj.mp hm
        exact ⟨h.kept,by simp,hcounts⟩
      · obtain rfl := Option.some_inj.mp hm
        refine ⟨h.kept,by simp,fun hup => ?_⟩
        dsimp only at hup ⊢
        split at hup
        · rename_i hslow
          exact ⟨hslow.2,if_pos hslow⟩
        · exact absurd rfl hup
    · cases hm
  | wake =>
    rw [step] at hm
    split at hm
    · obtain rfl := Option.some_inj.mp hm
      exact ⟨h.kept,by simp,rfl⟩
    · cases hm
  | poke attended =>
    obtain rfl := Option.some_inj.mp hm
    refine ⟨h.kept.ask attended,fun _ => rfl,?_⟩
    rw [Counts]
    dsimp only
    split
    · rename_i wakeMs hplace
      rw [hplace] at hcounts
      exact fun hup => ⟨rfl,(hcounts hup).2⟩
    · rename_i hplace
      split at hcounts
      · rename_i wakeMs hsleeping
        exact absurd hsleeping (hplace wakeMs)
      · exact hcounts
  | stop =>
    obtain rfl := Option.some_inj.mp hm
    split
    · exact h
    · rw [setState]
      split
      · exact ⟨h.kept,h.polling,hcounts⟩
      · refine ⟨h.kept,h.polling,?_⟩
        rw [Counts]
        dsimp only
        split
        · exact fun hup => absurd rfl hup
        · rfl

theorem tailing_sound (h : Tailing far s) : Sound s := by
  induction h with
  | start f options attended => exact ⟨Latch.kept_initial attended,by simp [started],rfl⟩
  | move _ hm ih => exact step_sound ih hm

theorem tailing_run (h : Tailing far s) (hms : ms.foldlM (step far) s=some t) : Tailing far t := by
  induction ms generalizing s with
  | nil =>
    obtain rfl := Option.some_inj.mp hms
    exact h
  | cons m ms ih =>
    rw [List.foldlM_cons] at hms
    obtain ⟨u,hm,hms⟩ := Option.bind_eq_some_iff.mp hms
    exact ih (h.move hm) hms

/-- Over a console too each attempt may ask a person exactly where somebody has asked for it since the one
before, and none begins after one that failed for good; and no deadline is ever up for a tail that has given up.
-/
theorem turns_permitted (h : Tailing far s) : Permitted ReconnectGrace.kDefaultGraceMs s.latch.log ∧
    s.latch.refused=gaveUp ReconnectGrace.kDefaultGraceMs s.latch.log ∧
    (s.retryAtMs≠0 → gaveUp ReconnectGrace.kDefaultGraceMs s.latch.log=false ∧
      ∃wakeMs,s.place=.sleeping wakeMs ∧ s.retryAtMs=wakeMs) := by
  obtain ⟨hkept,-,hcounts⟩ := tailing_sound h
  refine ⟨hkept.permitted,hkept.refused,fun hup => ?_⟩
  rw [Counts] at hcounts
  split at hcounts
  · rename_i wakeMs hplace
    obtain ⟨hopen,hend⟩ := hcounts hup
    exact ⟨hkept.refused.symm.trans hopen,wakeMs,hplace,hend⟩
  · exact absurd hcounts hup

/-! ## A log that was not there when the tail signed in -/

/-- An attempt that signs in and cannot open the log, without being refused. -/
structure Unopened (a : ConsoleAnswers Profile) : Prop where
  running : a.rebooted=false
  found : ∃u,a.attempt.endpoint=.ok u
  ready : a.attempt.ready=.ok
  opened : a.attempt.toolsThere=false ∨ ∃why,a.attempt.opened=.unsettled why

/-- The device has not restarted or moved, the settings are as they were, and the far end says what is wrong
with the path, be it nothing. -/
structure Quiet (options : SerialFetchOptions Profile) (a : ConsoleAnswers Profile) : Prop where
  running : a.rebooted=false
  here : a.moved=false
  profile : a.current.profile=options.profile
  tail : a.current.tailStartBytes=options.tailStartBytes
  classified : ∃text,a.classified=some text

/-- Nothing of a log has been taken in. -/
structure Untouched (f g : Fetcher) : Prop where
  generation : g.generation=f.generation
  committed : g.committedSize=f.committedSize
  spools : g.spools=f.spools
  reads : g.reads=f.reads

/-- The attempts of a history. -/
def attempts (log : TailHistory) : ℕ := log.countP fun entry => match entry with
  | .began _ => true
  | _ => false

/-- What is left in place where the log was not opened, and everything since. -/
structure Stranded (s t : ConsoleTail Profile) : Prop where
  exec : t.exec=some false
  options : t.options=s.options
  fetcher : Untouched s.fetcher t.fetcher
  unasked : attempts t.latch.log=attempts s.latch.log

theorem stranded_poll (hexec : s.exec=some false) (h : s.pollOnce names a nowMs=some t) :
    (Quiet s.options a→∃text,t=s.setWaiting text) ∧ (¬Quiet s.options a→t.exec=none) := by
  rw [pollOnce] at h
  split at h
  · rename_i hrebooted
    obtain rfl := Option.some_inj.mp h
    exact ⟨fun hq => absurd hrebooted (by simp [hq.running]),fun _ => rfl⟩
  rename_i hrunning
  rw [hexec] at h
  dsimp only at h
  split at h
  · rename_i hmoved
    obtain rfl := Option.some_inj.mp h
    exact ⟨fun hq => absurd hmoved (by simp [hq.here]),fun _ => rfl⟩
  rename_i hhere
  split at h
  · rename_i hchanged
    obtain rfl := Option.some_inj.mp h
    refine ⟨fun hq => ?_,fun _ => rfl⟩
    rcases hchanged with hprofile | htail
    · exact absurd hq.profile hprofile
    · exact absurd hq.tail htail
  rename_i hsame
  rw [if_neg (by simp)] at h
  dsimp only at h
  split at h
  · rename_i text htext
    obtain rfl := Option.some_inj.mp h
    refine ⟨fun _ => ⟨text,rfl⟩,fun hq => ?_⟩
    simp only [not_or,not_not] at hsame
    exact absurd ⟨Bool.eq_false_iff.mpr hrunning,Bool.eq_false_iff.mpr hhere,hsame.1,hsame.2,text,htext⟩ hq
  · rename_i hunknown
    obtain rfl := Option.some_inj.mp h
    refine ⟨fun hq => ?_,fun _ => rfl⟩
    obtain ⟨text,htext⟩ := hq.classified
    exact absurd (hunknown.symm.trans htext) (by simp)

private theorem unopened_exec (hexec : s.exec=none) (hu : Unopened a) (h : s.pollOnce names a nowMs=some t) :
    t.exec=some false ∧ t.options=a.current := by
  obtain ⟨_,hfound⟩ := hu.found
  rw [pollOnce,if_neg (by simp [hu.running]),hexec] at h
  dsimp only at h
  rw [establish,hfound] at h
  dsimp only at h
  rw [hu.ready] at h
  dsimp only at h
  rw [signedIn] at h
  dsimp only at h
  split at h
  · obtain rfl := Option.some_inj.mp h
    exact ⟨rfl,rfl⟩
  · rename_i htools
    rcases hu.opened with hnone | ⟨why,hopened⟩
    · exact absurd hnone htools
    · rw [hopened] at h
      obtain rfl := Option.some_inj.mp h
      rw [setState]
      split
      · exact ⟨rfl,rfl⟩
      · exact ⟨rfl,rfl⟩

omit [DecidableEq Profile] in
theorem Stranded.status (h : Stranded s t) (hexec : u.exec=t.exec) (hoptions : u.options=t.options)
    (hfetcher : Untouched t.fetcher u.fetcher) (hlog : attempts u.latch.log=attempts t.latch.log) :
    Stranded s u where
  exec := hexec.trans h.exec
  options := hoptions.trans h.options
  fetcher := ⟨hfetcher.1.trans h.fetcher.1,hfetcher.2.trans h.fetcher.2,hfetcher.3.trans h.fetcher.3,
    hfetcher.4.trans h.fetcher.4⟩
  unasked := hlog.trans h.unasked

theorem Stranded.step (h : Stranded s t) (hquiet : ∀a nowMs,m=.polled a nowMs→Quiet s.options a)
    (hm : t.step far m=some u) : Stranded s u := by
  have hsame : Untouched t.fetcher t.fetcher := ⟨rfl,rfl,rfl,rfl⟩
  cases m with
  | look | wake =>
    rw [ConsoleTail.step] at hm
    split at hm
    · obtain rfl := Option.some_inj.mp hm
      exact h.status rfl rfl hsame rfl
    · cases hm
  | polled a nowMs =>
    rw [ConsoleTail.step] at hm
    split at hm
    · obtain ⟨v,hv,rfl⟩ := Option.map_eq_some_iff.mp hm
      have hq := hquiet a nowMs rfl
      rw [← h.options] at hq
      obtain ⟨text,rfl⟩ := (stranded_poll h.exec hv).1 hq
      exact h.status rfl rfl ⟨rfl,rfl,rfl,rfl⟩ rfl
    · cases hm
  | rest nowMs =>
    rw [ConsoleTail.step] at hm
    split at hm
    · split at hm
      · obtain rfl := Option.some_inj.mp hm
        exact h.status rfl rfl hsame rfl
      · obtain rfl := Option.some_inj.mp hm
        exact h.status rfl rfl hsame rfl
    · cases hm
  | poke attended =>
    obtain rfl := Option.some_inj.mp hm
    exact h.status rfl rfl hsame rfl
  | stop =>
    obtain rfl := Option.some_inj.mp hm
    split
    · exact h
    · rw [setState]
      split
      · exact h.status rfl rfl hsame rfl
      · exact h.status rfl rfl ⟨rfl,rfl,rfl,rfl⟩ rfl

theorem Stranded.run (h : Stranded s t) (hquiet : ∀a nowMs,.polled a nowMs∈ms→Quiet s.options a)
    (hms : ms.foldlM (ConsoleTail.step far) t=some u) : Stranded s u := by
  induction ms generalizing t with
  | nil =>
    obtain rfl := Option.some_inj.mp hms
    exact h
  | cons m ms ih =>
    rw [List.foldlM_cons] at hms
    obtain ⟨v,hm,hms⟩ := Option.bind_eq_some_iff.mp hms
    refine ih (h.step (fun a nowMs hpoll => ?_) hm)
      (fun a nowMs hmem => hquiet a nowMs (List.mem_cons_of_mem _ hmem)) hms
    exact hquiet a nowMs (hpoll ▸ List.mem_cons_self)

/-- Where an attempt has signed in and could not open the log, nothing of the log is taken in and no attempt made
again, be the log there by now and whoever asks, until the device restarts or moves, the settings change or the far
end does not say what is wrong with the path; the poll that sees one of these lets the next one sign in. -/
theorem stranded_waits (hexec : s.exec=none) (hu : Unopened a) (hm : s.step far (.polled a nowMs)=some s')
    (hquiet : ∀b laterMs,.polled b laterMs∈ms→Quiet a.current b) (hms : ms.foldlM (step far) s'=some t) :
    Untouched s'.fetcher t.fetcher ∧ attempts t.latch.log=attempts s'.latch.log ∧
      ∀b laterMs u,t.step far (.polled b laterMs)=some u→
        (Quiet a.current b→u.exec=some false ∧ u.fetcher.state=.waiting) ∧ (¬Quiet a.current b→u.exec=none) := by
  have hfirst : s'.exec=some false ∧ s'.options=a.current := by
    rw [step] at hm
    split at hm
    · obtain ⟨v,hv,rfl⟩ := Option.map_eq_some_iff.mp hm
      have hleft := unopened_exec hexec hu hv
      exact ⟨hleft.1,hleft.2⟩
    · cases hm
  have hstart : Stranded s' s' := ⟨hfirst.1,rfl,⟨rfl,rfl,rfl,rfl⟩,rfl⟩
  have hstranded := hstart.run (fun b laterMs hmem => by rw [hfirst.2]; exact hquiet b laterMs hmem) hms
  refine ⟨hstranded.fetcher,hstranded.unasked,fun b laterMs u hu => ?_⟩
  have hoptions := hstranded.options.trans hfirst.2
  rw [step] at hu
  split at hu
  · obtain ⟨v,hv,rfl⟩ := Option.map_eq_some_iff.mp hu
    have hpoll := stranded_poll hstranded.exec hv
    rw [hoptions] at hpoll
    refine ⟨fun hq => ?_,hpoll.2⟩
    obtain ⟨text,rfl⟩ := hpoll.1 hq
    exact ⟨hstranded.exec,rfl⟩
  · cases hu

section Late

def plainFar : Far Unit := ⟨plainNames,fun _ => 2000⟩

def plainSettings : SerialFetchOptions Unit := ⟨(),0⟩

/-- The device signs in, and the log is not there. -/
def missingLog : ConsoleAnswers Unit where
  rebooted := false
  current := plainSettings
  attempt := ⟨.ok (),.ok,true,.unsettled "missing",none,true,⟨true,[],0⟩⟩
  moved := false
  stat := none
  classified := some "missing"
  reopened := .settled
  fresh := none
  begins := true
  fetch := ⟨true,[],0⟩

/-- It has two bytes by now. -/
def lateLog : ConsoleAnswers Unit := {missingLog with stat := some (2,5),classified := some "present"}

def lateMoves : List (ConsoleMove Unit) := [.rest 7,.poke true,.wake,.look,.polled lateLog 5007]

theorem stranded_waits_late : ∃s t,Tailing plainFar s ∧ lateMoves.foldlM (step plainFar) s=some t ∧
    t.fetcher.committedSize=0 ∧ attempts t.latch.log=1 := by
  obtain ⟨s,hs⟩ : ∃s,(started idleFetcher plainSettings true).step plainFar .look=some s := ⟨_,rfl⟩
  obtain ⟨s',hs',hsize,hlog,hexec⟩ : ∃s',s.step plainFar (.polled missingLog 0)=some s' ∧
    s'.fetcher.committedSize=0 ∧
      attempts s'.latch.log=1 ∧ s.exec=none := by
    obtain rfl := Option.some_inj.mp hs
    exact ⟨_,rfl,rfl,rfl,rfl⟩
  obtain ⟨t,ht⟩ : ∃t,lateMoves.foldlM (step plainFar) s'=some t := by
    obtain rfl := Option.some_inj.mp hs
    obtain rfl := Option.some_inj.mp hs'
    exact ⟨_,rfl⟩
  have hquiet : ∀b laterMs,.polled b laterMs∈lateMoves→Quiet missingLog.current b := by
    intro b laterMs hmem
    obtain ⟨rfl,-⟩ : b=lateLog ∧ laterMs=5007 := by simpa [lateMoves] using hmem
    exact ⟨rfl,rfl,rfl,rfl,_,rfl⟩
  have hwaits := stranded_waits hexec ⟨rfl,⟨(),rfl⟩,rfl,Or.inr ⟨_,rfl⟩⟩ hs' hquiet ht
  exact ⟨s',t,((Tailing.start _ _ _).move hs).move hs',ht,hwaits.1.committed.trans hsize,hwaits.2.1.trans hlog⟩

theorem turns_permitted_counting : ∃s : ConsoleTail Unit,Tailing plainFar s ∧ s.retryAtMs=5007 ∧
    s.latch.log=[.ended .none 0,.began true,.asked true] ∧
    gaveUp ReconnectGrace.kDefaultGraceMs s.latch.log=false := by
  obtain ⟨s,hs,hretry,hlog⟩ : ∃s,[ConsoleMove.look,.polled missingLog 0,.rest 7].foldlM (step plainFar)
      (started idleFetcher plainSettings true)=some s ∧ s.retryAtMs=5007 ∧
      s.latch.log=[.ended .none 0,.began true,.asked true] := ⟨_,rfl,rfl,rfl⟩
  have ht := tailing_run (.start _ _ _) hs
  exact ⟨s,ht,hretry,hlog,((turns_permitted ht).2.2 (by rw [hretry]; decide)).1⟩

end Late

end Loop

end ConsoleTail

end Loftail
