import Loftail.SerialLoginMachine

/-! # What a login conversation can do

One turn is told once; what a whole conversation keeps is derived from it. -/
namespace Loftail

inductive LoginEvent
  | feed (arrived : Bytes) (nowMs : ℤ)
  | tick (nowMs : ℤ)
  | reset (nowMs : ℤ)

namespace SerialLoginMachine

def turn (m : SerialLoginMachine) : LoginEvent→SerialLoginMachine×LoginAction
  | .feed arrived nowMs => m.feed arrived nowMs
  | .tick nowMs => m.tick nowMs
  | .reset nowMs => (m.reset nowMs,.wait)

/-- One more attempt can be spent without it being the last. -/
def HasAttempt (m : SerialLoginMachine) : Prop := ((m.attemptsSpent+1 : ℕ) : ℤ) < m.profile.attempts

/-- A prompt is recognised, and is answered with a fresh budget of attempts. -/
def recognisesPrompt (m : SerialLoginMachine) : LoginEvent→Bool
  | .feed arrived _ =>
    let n := m.receive arrived
    let login := n.windowMatches m.profile.loginPromptRe
    let password := n.windowMatches m.profile.passwordPromptRe
    !n.windowMatches m.profile.rebootRe &&
      match m.step with
      | .idle => login || password
      | .probing => login || password
      | .confirmShell => !n.windowHasMarker && (login || password)
      | .sentUser => password
      | _ => false
  | _ => false

/-- What a turn can do. -/
inductive Turns (m : SerialLoginMachine) : LoginEvent→SerialLoginMachine×LoginAction→Prop
  | reset {now : ℤ} : Turns m (.reset now) (m.reset now,.wait)
  | heard {arrived : Bytes} {now : ℤ} : Turns m (.feed arrived now) (m.receive arrived,.wait)
  | rebooted {arrived : Bytes} {now : ℤ} : Turns m (.feed arrived now)
      ({m.receive arrived with sawReboot := true,window := []},.ofKind .reboot)
  | user {arrived : Bytes} {now : ℤ} (step : m.step=.idle ∨ m.step=.probing ∨ m.step=.confirmShell)
      (seen : (m.receive arrived).windowMatches m.profile.loginPromptRe=true)
      (recognised : m.recognisesPrompt (.feed arrived now)=true) :
      Turns m (.feed arrived now) ((m.receive arrived).noteProgress.sendUser now)
  | userAgain {arrived : Bytes} {now : ℤ} (step : m.step=.sentUser) (left : m.HasAttempt) :
      Turns m (.feed arrived now) ({m.receive arrived with attemptsSpent := m.attemptsSpent+1}.sendUser now)
  | password {arrived : Bytes} {now : ℤ}
      (step : m.step=.idle ∨ m.step=.probing ∨ m.step=.confirmShell ∨ m.step=.sentUser)
      (seen : (m.receive arrived).windowMatches m.profile.passwordPromptRe=true)
      (recognised : m.recognisesPrompt (.feed arrived now)=true) :
      Turns m (.feed arrived now) ((m.receive arrived).noteProgress.sendPassword now)
  | answered {arrived : Bytes} {now : ℤ} (step : m.step=.confirmShell ∨ m.step=.runStartup)
      (seen : (m.receive arrived).windowHasMarker=true)
      (live : (m.receive arrived).windowMatches m.profile.rebootRe=false) :
      Turns m (.feed arrived now) ((m.receive arrived).noteProgress.runNextStartupCommand now)
  | refused {arrived : Bytes} {now : ℤ} {spent : ℕ} {reason : String} (step : m.step=.sentUser ∨
    m.step=.sentPassword) :
      Turns m (.feed arrived now) ({m.receive arrived with attemptsSpent := spent}.fail reason)
  | waits {now : ℤ} : Turns m (.tick now) (m,.wait)
  | waited {now : ℤ} (step : m.step=.runStartup) (left : m.HasAttempt) :
      Turns m (.tick now) ({m with attemptsSpent := m.attemptsSpent+1,stepSinceMs := now},.wait)
  | nudges {now : ℤ} (step : m.step=.idle) : Turns m (.tick now) (m.write [newline] .probing now false)
  | renudges {now : ℤ} (step : m.step=.confirmShell) (left : m.HasAttempt) :
      Turns m (.tick now) ({m with attemptsSpent := m.attemptsSpent+1}.write [newline] .probing now false)
  | probes {now : ℤ} (step : m.step=.probing ∨ m.step=.sentUser ∨ m.step=.sentPassword) (left : m.HasAttempt) :
      Turns m (.tick now) ({m with attemptsSpent := m.attemptsSpent+1}.write
        (probeLine m.marker) .confirmShell now false)
  | gaveUp {now : ℤ} {spent : ℕ} {reason : String} (step : m.step≠.ready ∧ m.step≠.failed) :
      Turns m (.tick now) ({m with attemptsSpent := spent}.fail reason)

variable {m : SerialLoginMachine} {arrived : Bytes} {now : ℤ}

theorem receive_profile : (m.receive arrived).profile=m.profile := rfl

theorem classify_turns (h : m.step=.idle ∨ m.step=.probing)
    (hreboot : (m.receive arrived).windowMatches m.profile.rebootRe=false) :
    Turns m (.feed arrived now) ((m.receive arrived).classify now) := by
  have hrecognises : m.recognisesPrompt (.feed arrived now)=
    ((m.receive arrived).windowMatches m.profile.loginPromptRe ||
      (m.receive arrived).windowMatches m.profile.passwordPromptRe) := by
    rcases h with h | h <;> simp [recognisesPrompt,h,hreboot]
  unfold classify
  rw [receive_profile]
  split_ifs with hlogin hpassword
  · exact .user (h.imp_right Or.inl) hlogin (by rw [hrecognises,hlogin,Bool.true_or])
  · exact .password (h.imp_right Or.inl) hpassword (by rw [hrecognises,hpassword,Bool.or_true])
  · exact .heard

theorem spend_cases {reason : String} {go : SerialLoginMachine→SerialLoginMachine×LoginAction} :
    m.spend reason go={m with attemptsSpent := m.attemptsSpent+1}.fail reason ∨
      m.HasAttempt ∧ m.spend reason go=go {m with attemptsSpent := m.attemptsSpent+1} := by
  unfold spend HasAttempt
  dsimp only
  split_ifs with h
  · exact Or.inl rfl
  · exact Or.inr ⟨lt_of_not_ge h,rfl⟩

private theorem answer_turns (hreboot : m.step≠.failed→(m.receive arrived).windowMatches m.profile.rebootRe=false) :
    Turns m (.feed arrived now) ((m.receive arrived).answer now) := by
  have hstep : (m.receive arrived).step=m.step := rfl
  unfold answer
  rw [hstep,receive_profile]
  cases hs : m.step with
  | idle => exact classify_turns (Or.inl hs) (hreboot (by rw [hs]; decide))
  | probing => exact classify_turns (Or.inr hs) (hreboot (by rw [hs]; decide))
  | confirmShell =>
    have hquiet := hreboot (by rw [hs]; decide)
    dsimp only
    split_ifs with hmarker hlogin hpassword
    · exact .answered (Or.inl hs) hmarker hquiet
    · exact .user (Or.inr (Or.inr hs)) hlogin (by simp [recognisesPrompt,hs,hquiet,hmarker,hlogin])
    · exact .password (Or.inr (Or.inr (Or.inl hs))) hpassword
        (by simp [recognisesPrompt,hs,hquiet,hmarker,hpassword])
    · exact .heard
  | sentUser =>
    have hquiet := hreboot (by rw [hs]; decide)
    dsimp only
    split_ifs with hpassword hlogin
    · exact .password (Or.inr (Or.inr (Or.inr hs))) hpassword (by simp [recognisesPrompt,hs,hquiet,hpassword])
    · rcases spend_cases with h | ⟨hleft,h⟩
      · rw [h]
        exact .refused (Or.inl hs)
      · rw [h]
        exact .userAgain hs hleft
    · exact .heard
  | sentPassword =>
    dsimp only
    split_ifs
    · exact .refused (Or.inr hs)
    · exact .heard
  | runStartup =>
    have hquiet := hreboot (by rw [hs]; decide)
    dsimp only
    split_ifs with hmarker
    · exact .answered (Or.inr hs) hmarker hquiet
    · exact .heard
  | ready => exact .heard
  | failed => exact .heard

private theorem feed_turns : Turns m (.feed arrived now) (m.feed arrived now) := by
  unfold feed
  dsimp only
  split_ifs with h
  · exact .rebooted
  · exact answer_turns fun hlive => Bool.eq_false_iff.mpr fun hseen => h ⟨hlive,hseen⟩

private theorem tick_turns : Turns m (.tick now) (m.tick now) := by
  unfold tick
  split_ifs with hend hidle
  · exact .waits
  · exact .nudges hidle
  · exact .waits
  · rcases spend_cases with h | ⟨hleft,h⟩
    · rw [h]
      exact .gaveUp (not_or.mp hend)
    · rw [h]
      unfold guess
      dsimp only
      split
      case h_1 hs => exact .probes (Or.inl hs) hleft
      case h_2 hs => exact .renudges hs hleft
      case h_3 hs => exact .probes (Or.inr (Or.inl hs)) hleft
      case h_4 hs => exact .probes (Or.inr (Or.inr hs)) hleft
      case h_5 hs => exact .waited hs hleft
      case h_6 hs => exact absurd hs hidle
      case h_7 hs => exact absurd (Or.inl hs) hend
      case h_8 hs => exact absurd (Or.inr hs) hend

theorem turn_turns (event : LoginEvent) : Turns m event (m.turn event) := by
  cases event with
  | feed => exact feed_turns
  | tick => exact tick_turns
  | reset => exact .reset

/-- A turn leaves the settings alone. -/
structure SameSettings (m n : SerialLoginMachine) : Prop where
  profile : n.profile=m.profile
  deviceName : n.deviceName=m.deviceName
  loginUser : n.loginUser=m.loginUser
  password : n.password=m.password
  token : n.token=m.token

theorem runNextStartupCommand_cases (m : SerialLoginMachine) (now : ℤ) :
    (m.profile.startupCommands[m.startupIndex]?=none ∧
      m.runNextStartupCommand now=(m.enter .ready now,.ofKind .done)) ∨
      ∃command,m.profile.startupCommands[m.startupIndex]?=some command ∧ m.runNextStartupCommand now=
        {m with startupIndex := m.startupIndex+1}.write (commandLine m.marker command) .runStartup now false := by
  unfold runNextStartupCommand
  cases h : m.profile.startupCommands[m.startupIndex]? with
  | none => exact Or.inl ⟨rfl,rfl⟩
  | some command => exact Or.inr ⟨command,rfl,rfl⟩

theorem turns_settings {event : LoginEvent} {x : SerialLoginMachine×LoginAction} (h : Turns m event x) :
    m.SameSettings x.1 := by
  cases h with
  | @answered arrived now =>
    rcases runNextStartupCommand_cases (m.receive arrived).noteProgress now with ⟨-,hnext⟩ | ⟨command,-,hnext⟩
    · rw [hnext]
      exact ⟨rfl,rfl,rfl,rfl,rfl⟩
    · rw [hnext]
      exact ⟨rfl,rfl,rfl,rfl,rfl⟩
  | _ => exact ⟨rfl,rfl,rfl,rfl,rfl⟩

end SerialLoginMachine

open SerialLoginMachine

/-! ## Conversations -/

/-- What a conversation did: a line written, with the step that it began, or a marker found in what had
arrived since the line before. -/
inductive LoginEntry
  | wrote (bytes : Bytes) (next : LoginStep)
  | found (text : Bytes)
  deriving DecidableEq

/-- A conversation, with what arrived since the window was cleared, and with what it did and how many
prompts it recognised since the last reset. -/
structure LoginRun where
  machine : SerialLoginMachine
  since : Bytes
  log : List LoginEntry
  prompts : ℕ

/-- What an action adds to the log. -/
def entriesOf (x : SerialLoginMachine×LoginAction) (text : Bytes) : List LoginEntry :=
  match x.2.kind with
  | .write => (if x.1.step=.runStartup then [.found text] else [])++[.wrote x.2.bytes x.1.step]
  | .done => [.found text]
  | _ => []

namespace LoginRun

def record (r : LoginRun) (event : LoginEvent) (x : SerialLoginMachine×LoginAction) : LoginRun :=
  let kept (text : Bytes) : Bytes := if x.2.kind=.wait ∨ x.2.kind=.fail then text else []
  let prompts := r.prompts+(r.machine.recognisesPrompt event).toNat
  match event with
  | .reset _ => ⟨x.1,[],[],0⟩
  | .feed arrived _ => ⟨x.1,kept (r.since++arrived),r.log++entriesOf x (r.since++arrived),prompts⟩
  | .tick _ => ⟨x.1,kept r.since,r.log++entriesOf x r.since,prompts⟩

def after (r : LoginRun) (event : LoginEvent) : LoginRun := r.record event (r.machine.turn event)

def run (r : LoginRun) (events : List LoginEvent) : LoginRun := events.foldl after r

theorem run_append (r : LoginRun) (events others : List LoginEvent) : r.run
    (events++others)=(r.run events).run others :=
  List.foldl_append

def start (m : SerialLoginMachine) : LoginRun := ⟨m,[],[],0⟩

end LoginRun

end Loftail
