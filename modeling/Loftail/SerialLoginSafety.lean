import Loftail.SerialLoginRuns
import Mathlib.Tactic.SplitIfs

/-! # The login conversation leaks nothing and misses no reboot -/
namespace Loftail

/-! ## The window -/

theorem lastWindow_eq (text : Bytes) : lastWindow text=text.drop (text.length-kWindowBytes) := by
  unfold lastWindow
  split_ifs with h
  · rfl
  · have hzero : text.length-kWindowBytes=0 := Nat.sub_eq_zero_of_le (Nat.le_of_not_lt h)
    rw [hzero]
    rfl

private theorem lastWindow_length (text : Bytes) : (lastWindow text).length ≤ kWindowBytes := by
  rw [lastWindow_eq,List.length_drop]
  exact Nat.sub_le_iff_le_add'.mpr (by omega)

/-- A window is kept as if everything had been. -/
theorem lastWindow_append (text arrived : Bytes) : lastWindow (lastWindow text++arrived)=lastWindow
    (text++arrived) := by
  by_cases h : kWindowBytes < text.length
  · have htext : lastWindow text=text.drop (text.length-kWindowBytes) := lastWindow_eq text
    have hlen : (lastWindow text).length=kWindowBytes := by
      rw [htext,List.length_drop]
      omega
    have happend : lastWindow text++arrived=(text++arrived).drop (text.length-kWindowBytes) := by
      rw [htext,List.drop_append_of_le_length (Nat.sub_le _ _)]
    have hcut : text.length-kWindowBytes+(kWindowBytes+arrived.length-kWindowBytes)=
        text.length+arrived.length-kWindowBytes := by omega
    rw [lastWindow_eq,lastWindow_eq (text++arrived),List.length_append,hlen,happend,List.drop_drop,
      List.length_append,hcut]
  · have hall : lastWindow text=text := if_neg h
    rw [hall]

namespace SerialLoginMachine

variable {m : SerialLoginMachine} {event : LoginEvent} {x : SerialLoginMachine×LoginAction}

/-! ## The password -/

/-- What a write is. -/
structure Written (m : SerialLoginMachine) (event : LoginEvent) (x : SerialLoginMachine×LoginAction) : Prop where
  /-- The window is emptied. -/
  cleared : x.2.kind=.write→x.1.window=[]
  /-- The password answers its prompt, and is flagged. -/
  password : x.2.sensitive=true→x.2.kind=.write ∧ x.2.bytes=m.passwordLine ∧
    ∃arrived now,event=.feed arrived now ∧ (m.receive arrived).windowMatches m.profile.passwordPromptRe=true
  /-- Nothing else is written than what does not come from it. -/
  plain : x.2.sensitive=false→x.2.bytes=[] ∨ x.2.bytes=[newline] ∨ x.2.bytes=m.userLine ∨
    x.2.bytes=probeLine m.marker ∨
    ∃command∈m.profile.startupCommands,x.2.bytes=commandLine m.marker command

private theorem turns_written (h : Turns m event x) : m.Written event x := by
  cases h with
  | user => exact ⟨fun _ => rfl,fun hs => absurd hs Bool.false_ne_true,fun _ => Or.inr (Or.inr (Or.inl rfl))⟩
  | userAgain => exact ⟨fun _ => rfl,fun hs => absurd hs Bool.false_ne_true,fun _ => Or.inr (Or.inr (Or.inl rfl))⟩
  | @password arrived now step seen => exact ⟨fun _ => rfl,fun _ => ⟨rfl,rfl,arrived,now,rfl,seen⟩,fun hs =>
    absurd hs.symm Bool.false_ne_true⟩
  | @answered arrived now =>
    rcases runNextStartupCommand_cases (m.receive arrived).noteProgress now with ⟨-,hnext⟩ |
      ⟨command,hcommand,hnext⟩
    · rw [hnext]
      exact ⟨fun _ => rfl,fun hs => absurd hs Bool.false_ne_true,fun _ => Or.inl rfl⟩
    · rw [hnext]
      exact ⟨fun _ => rfl,fun hs => absurd hs Bool.false_ne_true,
        fun _ => Or.inr (Or.inr (Or.inr (Or.inr ⟨command,List.mem_of_getElem? hcommand,rfl⟩)))⟩
  | nudges => exact ⟨fun _ => rfl,fun hs => absurd hs Bool.false_ne_true,fun _ => Or.inr (Or.inl rfl)⟩
  | renudges => exact ⟨fun _ => rfl,fun hs => absurd hs Bool.false_ne_true,fun _ => Or.inr (Or.inl rfl)⟩
  | probes => exact ⟨fun _ => rfl,fun hs => absurd hs Bool.false_ne_true,fun _ =>
    Or.inr (Or.inr (Or.inr (Or.inl rfl)))⟩
  | _ => exact ⟨fun hk => LoginActionKind.noConfusion hk,fun hs => absurd hs Bool.false_ne_true,fun _ => Or.inl rfl⟩

/-! ### What depends on it -/

def withPassword (p : Bytes) (m : SerialLoginMachine) : SerialLoginMachine := {m with password := p}

/-- The same turn with another password. -/
def swapPassword (p : Bytes) (x : SerialLoginMachine×LoginAction) : SerialLoginMachine×LoginAction :=
  (x.1.withPassword p,if x.2.sensitive then {x.2 with bytes := p++[newline]} else x.2)

variable {p arrived : Bytes} {now : ℤ}

theorem classify_blind : (m.withPassword p).classify now=swapPassword p (m.classify now) := by
  have hmatches : ∀re,(m.withPassword p).windowMatches re=m.windowMatches re := fun re => by cases re <;> rfl
  unfold classify
  rw [hmatches,hmatches]
  change (if m.windowMatches m.profile.loginPromptRe=true then _
    else if m.windowMatches m.profile.passwordPromptRe=true then _ else _)=_
  split_ifs <;> rfl

theorem runNextStartupCommand_blind :
    (m.withPassword p).runNextStartupCommand now=swapPassword p (m.runNextStartupCommand now) := by
  have hnext : (m.withPassword p).profile.startupCommands[(m.withPassword p).startupIndex]?=
      m.profile.startupCommands[m.startupIndex]? := rfl
  unfold runNextStartupCommand
  rw [hnext]
  cases m.profile.startupCommands[m.startupIndex]? <;> rfl

theorem spend_blind {reason : String} {go : SerialLoginMachine→SerialLoginMachine×LoginAction}
    (hgo : ∀m : SerialLoginMachine,go (m.withPassword p)=swapPassword p (go m)) :
    (m.withPassword p).spend reason go=swapPassword p (m.spend reason go) := by
  unfold spend
  dsimp only
  change (if m.profile.attempts ≤ ((m.attemptsSpent+1 : ℕ) : ℤ) then _ else _)=_
  split_ifs
  · rfl
  · exact hgo {m with attemptsSpent := m.attemptsSpent+1}

private theorem answer_blind : (m.withPassword p).answer now=swapPassword p (m.answer now) := by
  have hmatches : ∀re,(m.withPassword p).windowMatches re=m.windowMatches re := fun re => by cases re <;> rfl
  have hmarker : (m.withPassword p).windowHasMarker=m.windowHasMarker := rfl
  have hstep : (m.withPassword p).step=m.step := rfl
  have hprofile : (m.withPassword p).profile=m.profile := rfl
  have hspend : ∀reason,(m.withPassword p).spend reason (fun m => m.sendUser now)=
      swapPassword p (m.spend reason fun m => m.sendUser now) := fun _ => spend_blind fun _ => rfl
  unfold answer
  rw [hmarker,hstep,hprofile,hmatches,hmatches]
  cases hs : m.step with
  | idle => exact classify_blind
  | probing => exact classify_blind
  | confirmShell =>
    dsimp only
    split_ifs
    · exact runNextStartupCommand_blind (m:=m.noteProgress)
    · rfl
    · rfl
    · rfl
  | sentUser =>
    dsimp only
    split_ifs
    · rfl
    · exact hspend _
    · rfl
  | sentPassword =>
    dsimp only
    split_ifs <;> rfl
  | runStartup =>
    dsimp only
    split_ifs
    · exact runNextStartupCommand_blind (m:=m.noteProgress)
    · rfl
  | ready => rfl
  | failed => rfl

private theorem guess_blind : (m.withPassword p).guess now=swapPassword p (m.guess now) := by
  have hstep : (m.withPassword p).step=m.step := rfl
  unfold guess
  dsimp only
  rw [hstep]
  cases m.step <;> rfl

/-- Only what is flagged depends on the password. -/
theorem turn_blind : (m.withPassword p).turn event=swapPassword p (m.turn event) := by
  cases event with
  | feed arrived now =>
    have hreceive : (m.withPassword p).receive arrived=(m.receive arrived).withPassword p := rfl
    have hmatches : ∀re,((m.receive arrived).withPassword p).windowMatches re=
      (m.receive arrived).windowMatches re :=
      fun re => by cases re <;> rfl
    change (m.withPassword p).feed arrived now=swapPassword p (m.feed arrived now)
    unfold feed
    dsimp only
    rw [hreceive,hmatches]
    change (if m.step≠.failed ∧ (m.receive arrived).windowMatches m.profile.rebootRe=true then _ else _)=
      swapPassword p (if m.step≠.failed ∧ (m.receive arrived).windowMatches m.profile.rebootRe=true then _ else _)
    split_ifs
    · rfl
    · exact answer_blind
  | tick now =>
    have hstep : (m.withPassword p).step=m.step := rfl
    have hwait : (m.withPassword p).waitingText=m.waitingText := rfl
    change (m.withPassword p).tick now=swapPassword p (m.tick now)
    unfold tick
    rw [hstep,hwait]
    change (if m.step=.ready ∨ m.step=.failed then _ else if m.step=.idle then _
      else if now-m.stepSinceMs < m.profile.promptTimeoutMs then _ else _)=_
    split_ifs
    · rfl
    · rfl
    · rfl
    · exact spend_blind (fun _ => guess_blind)
  | reset => rfl

/-! ## A reboot -/

private theorem feed_reboot (hstep : m.step≠.failed)
    (hseen : (m.receive arrived).windowMatches m.profile.rebootRe=true) :
    m.feed arrived now=({m.receive arrived with sawReboot := true,window := []},.ofKind .reboot) := by
  unfold feed
  exact if_pos ⟨hstep,hseen⟩

end SerialLoginMachine

open SerialLoginMachine

/-! ## The conversation -/

/-- The startup commands sent. -/
def startupSends (log : List LoginEntry) : List Bytes :=
  log.filterMap fun entry =>
    match entry with
    | .wrote bytes .runStartup => some bytes
    | _ => none

/-- The `n`-th question is open: what asked for the shell, and each command before it, was answered by a
marker in what arrived after it. -/
inductive Asked (marker : Bytes) (commands : List String) : ℕ→List LoginEntry→Prop
  | probe {log : List LoginEntry} (none : startupSends log=[]) :
      Asked marker commands 0 (log++[.wrote (probeLine marker) .confirmShell])
  | command {n : ℕ} {log : List LoginEntry} {text : Bytes} {command : String} (before : Asked marker commands n log)
      (answered : hasMarkerLine marker (lastWindow text)=true) (next : commands[n]?=some command) :
      Asked marker commands (n+1) (log++[.found text,.wrote (commandLine marker command) .runStartup])

/-- All was asked and answered. -/
def Answered (marker : Bytes) (commands : List String) (log : List LoginEntry) : Prop :=
  ∃asked text,log=asked++[.found text] ∧ Asked marker commands commands.length asked ∧
    hasMarkerLine marker (lastWindow text)=true

variable {marker : Bytes} {commands : List String} {log : List LoginEntry} {n : ℕ}

theorem startupSends_append {more : List LoginEntry} : startupSends
    (log++more)=startupSends log++startupSends more :=
  List.filterMap_append ..

theorem asked_sends (h : Asked marker commands n log) : startupSends log=(commands.take n).map
    (commandLine marker) := by
  induction h with
  | probe hnone =>
    rw [startupSends_append,hnone]
    rfl
  | @command n log text command _ _ hnext ih =>
    have hsend : startupSends [.found text,.wrote (commandLine marker command) .runStartup]=
      [commandLine marker command] := rfl
    rw [startupSends_append,ih,hsend,List.take_add_one,hnext,List.map_append]
    rfl

/-- What a step says about the conversation. -/
def Conversed (marker : Bytes) (commands : List String) (n : ℕ) (log : List LoginEntry) : LoginStep→Prop
  | .confirmShell => n=0 ∧ Asked marker commands 0 log
  | .runStartup => Asked marker commands n log
  | .ready => n=commands.length ∧ Answered marker commands log
  | .failed => startupSends log=(commands.take n).map (commandLine marker)
  | _ => n=0 ∧ startupSends log=[]

theorem conversed_sends {step : LoginStep} (h : Conversed marker commands n log step) :
    startupSends log=(commands.take n).map (commandLine marker) := by
  cases step with
  | confirmShell =>
    obtain ⟨rfl,h⟩ := h
    exact asked_sends h
  | runStartup => exact asked_sends h
  | ready =>
    obtain ⟨rfl,asked,text,rfl,hasked,-⟩ := h
    rw [startupSends_append,asked_sends hasked]
    exact List.append_nil _
  | failed => exact h
  | _ =>
    obtain ⟨rfl,h⟩ := h
    exact h

theorem conversed_zero {step : LoginStep} (h : Conversed marker commands n log step)
    (hs : step≠.runStartup ∧ step≠.ready ∧ step≠.failed) : n=0 ∧ startupSends log=[] := by
  cases step with
  | confirmShell =>
    obtain ⟨rfl,h⟩ := h
    exact ⟨rfl,asked_sends h⟩
  | runStartup => exact absurd rfl hs.1
  | ready => exact absurd rfl hs.2.1
  | failed => exact absurd rfl hs.2.2
  | _ => exact h

private theorem asked_le (h : Asked marker commands n log) : n ≤ commands.length := by
  cases h with
  | probe => exact Nat.zero_le _
  | command _ _ hnext => exact (List.getElem?_eq_some_iff.mp hnext).1

/-- What a conversation keeps. -/
structure Conversing (marker : Bytes) (profile : SerialProfile) (r : LoginRun) : Prop where
  marker_eq : r.machine.marker=marker
  profile_eq : r.machine.profile=profile
  window : r.machine.window=lastWindow r.since
  conversed : Conversed marker profile.startupCommands r.machine.startupIndex r.log r.machine.step

variable {profile : SerialProfile}

private theorem record_conversing {r : LoginRun} {event : LoginEvent} {x : SerialLoginMachine×LoginAction}
    (h : Conversing marker profile r) (ht : Turns r.machine event x) : Conversing marker profile
    (r.record event x) := by
  obtain ⟨hmarker,hprofile,hwindow,hconversed⟩ := h
  have hreceive : ∀arrived,(r.machine.receive arrived).window=lastWindow (r.since++arrived) := by
    intro arrived
    rw [← lastWindow_append,← hwindow]
    rfl
  have hsettings := turns_settings ht
  have hkept : x.1.marker=marker := by
    unfold SerialLoginMachine.marker
    rw [hsettings.token]
    exact hmarker
  have hkept' : x.1.profile=profile := hsettings.profile.trans hprofile
  have hsame : Conversed marker profile.startupCommands r.machine.startupIndex (r.log++[]) r.machine.step := by
    rw [List.append_nil]
    exact hconversed
  have hfailed : startupSends (r.log++[])=(profile.startupCommands.take r.machine.startupIndex).map
    (commandLine marker) := by
    rw [List.append_nil]
    exact conversed_sends hconversed
  -- before the shell is there, a line that begins no startup command changes nothing
  have hbefore : r.machine.step≠.runStartup ∧ r.machine.step≠.ready ∧ r.machine.step≠.failed→
      ∀bytes next,next≠.runStartup → r.machine.startupIndex=0 ∧ startupSends (r.log++[.wrote bytes next])=[] := by
    intro hs bytes next hnext
    obtain ⟨hzero,hnone⟩ := conversed_zero hconversed hs
    rw [startupSends_append,hnone]
    refine ⟨hzero,?_⟩
    cases next with
    | runStartup => exact absurd rfl hnext
    | _ => rfl
  cases ht with
  | reset => exact ⟨hkept,hkept',rfl,rfl,rfl⟩
  | heard => exact ⟨hkept,hkept',hreceive _,hsame⟩
  | rebooted => exact ⟨hkept,hkept',rfl,hsame⟩
  | user step => exact ⟨hkept,hkept',rfl,
    hbefore (by rcases step with h | h | h <;> rw [h] <;> decide) _ .sentUser (by decide)⟩
  | userAgain step => exact ⟨hkept,hkept',rfl,hbefore (by rw [step]; decide) _ .sentUser (by decide)⟩
  | password step =>
    exact ⟨hkept,hkept',rfl,hbefore (by rcases step with h | h | h | h <;> rw [h] <;> decide) _ .sentPassword
      (by decide)⟩
  | @answered arrived now step seen =>
    have hasked : Asked marker profile.startupCommands r.machine.startupIndex r.log := by
      rcases step with hs | hs
      · rw [hs] at hconversed
        rw [hconversed.1]
        exact hconversed.2
      · rw [hs] at hconversed
        exact hconversed
    have hfound : hasMarkerLine marker (lastWindow (r.since++arrived))=true := by
      rw [← hmarker,← hreceive]
      exact seen
    rcases runNextStartupCommand_cases (r.machine.receive arrived).noteProgress now with ⟨hnone,hnext⟩ |
      ⟨command,hsome,hnext⟩
    · have hindex : r.machine.startupIndex=profile.startupCommands.length := by
        apply Nat.le_antisymm (asked_le hasked)
        rw [← hprofile]
        exact List.getElem?_eq_none_iff.mp hnone
      rw [hnext] at hkept hkept' ⊢
      exact ⟨hkept,hkept',rfl,hindex,r.log,r.since++arrived,rfl,hindex ▸ hasked,hfound⟩
    · rw [hnext] at hkept hkept' ⊢
      refine ⟨hkept,hkept',rfl,?_⟩
      have hline : commandLine r.machine.marker command=commandLine marker command := by rw [hmarker]
      have hnext : profile.startupCommands[r.machine.startupIndex]?=some command := by
        rw [← hprofile]
        exact hsome
      have hcommand := Asked.command hasked hfound hnext
      rw [← hline] at hcommand
      exact hcommand
  | refused => exact ⟨hkept,hkept',hreceive _,hfailed⟩
  | waits => exact ⟨hkept,hkept',hwindow,hsame⟩
  | waited => exact ⟨hkept,hkept',hwindow,hsame⟩
  | nudges step => exact ⟨hkept,hkept',rfl,hbefore (by rw [step]; decide) _ .probing (by decide)⟩
  | renudges step => exact ⟨hkept,hkept',rfl,hbefore (by rw [step]; decide) _ .probing (by decide)⟩
  | probes step =>
    obtain ⟨hzero,hnone⟩ := conversed_zero hconversed (by rcases step with h | h | h <;> rw [h] <;> decide)
    have hprobe : probeLine r.machine.marker=probeLine marker := by rw [hmarker]
    have hasked : Asked marker profile.startupCommands 0 _ := Asked.probe hnone
    rw [← hprobe] at hasked
    exact ⟨hkept,hkept',rfl,hzero,hasked⟩
  | gaveUp => exact ⟨hkept,hkept',hwindow,hfailed⟩

private theorem run_conversing {r : LoginRun} (h : Conversing marker profile r) (events : List LoginEvent) :
    Conversing marker profile (r.run events) := by
  induction events generalizing r with
  | nil => exact h
  | cons event events ih => exact ih (record_conversing h (turn_turns event))

private theorem start_conversing (profile : SerialProfile) (deviceName loginUser : String) (password : Bytes)
    (token : ℕ) (now : ℤ) :
    Conversing (initial profile deviceName loginUser password token now).marker profile
      (.start (initial profile deviceName loginUser password token now)) :=
  ⟨rfl,rfl,rfl,rfl,rfl⟩

/-- What holds wherever a conversation has got to, whatever comes next. -/
structure LoginSafe (profile : SerialProfile) (r : LoginRun) (event : LoginEvent) : Prop where
  window : r.machine.window=lastWindow r.since ∧ r.machine.window.length ≤ kWindowBytes
  written : r.machine.Written event (r.machine.turn event)
  blind : ∀p,(r.machine.withPassword p).turn event=swapPassword p (r.machine.turn event)
  reboot : ∀arrived now,event=.feed arrived now → r.machine.step≠.failed→
    (r.machine.receive arrived).windowMatches profile.rebootRe=true→
      (r.machine.turn event).2=.ofKind .reboot ∧ (r.machine.turn event).1.sawReboot=true
  ready : r.machine.step=.ready→Answered r.machine.marker profile.startupCommands r.log
  order : startupSends r.log=(profile.startupCommands.take r.machine.startupIndex).map
    (commandLine r.machine.marker)

/-- The password is written where it is asked for and nowhere else, each line written empties the
window, a reboot is reported at once, and the startup commands are sent in order, each answered. -/
theorem login_safe (profile : SerialProfile) (deviceName loginUser : String) (password : Bytes)
    (token : ℕ) (now : ℤ) (events : List LoginEvent) (event : LoginEvent) :
    LoginSafe profile ((LoginRun.start (initial profile deviceName loginUser password token now)).run
      events) event := by
  let m := initial profile deviceName loginUser password token now
  let r := (LoginRun.start m).run events
  obtain ⟨hmarker,hprofile,hwindow,hconversed⟩ : Conversing m.marker profile r :=
    run_conversing (start_conversing ..) events
  refine ⟨⟨hwindow,?_⟩,turns_written (turn_turns event),fun p => turn_blind,?_,?_,?_⟩
  · change r.machine.window.length ≤ _
    rw [hwindow]
    exact lastWindow_length _
  · rintro arrived now rfl hstep hseen
    have hseen : (r.machine.receive arrived).windowMatches r.machine.profile.rebootRe=true := by
      rw [hprofile]
      exact hseen
    have hfeed : r.machine.feed arrived now=_ := feed_reboot hstep hseen
    change (r.machine.feed arrived now).2=_ ∧ (r.machine.feed arrived now).1.sawReboot=true
    rw [hfeed]
    exact ⟨rfl,rfl⟩
  · intro hstep
    change Answered r.machine.marker _ _
    rw [hmarker]
    have hready : Conversed m.marker profile.startupCommands r.machine.startupIndex r.log .ready :=
      hstep ▸ hconversed
    exact hready.2
  · change startupSends r.log=(_ : List String).map (commandLine r.machine.marker)
    rw [hmarker]
    exact conversed_sends hconversed

end Loftail
