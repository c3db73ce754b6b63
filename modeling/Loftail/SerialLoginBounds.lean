import Loftail.SerialLoginRuns
import Mathlib.Data.List.Infix
import Mathlib.Tactic.SplitIfs

/-! # How much a login conversation writes

Between two recognised prompts the attempts bound what is written; a recognised prompt buys a fresh
budget. -/
namespace Loftail
open SerialLoginMachine

/-- The lines written. -/
def writes (log : List LoginEntry) : ℕ :=
  log.countP fun entry =>
    match entry with
    | .wrote _ _ => true
    | _ => false

/-- How often the password was sent. -/
def passwordSends (log : List LoginEntry) : ℕ :=
  log.countP fun entry =>
    match entry with
    | .wrote _ .sentPassword => true
    | _ => false

/-- What bought a fresh budget. -/
def progress (r : LoginRun) : ℕ := r.prompts+r.machine.startupIndex+(if r.machine.step=.ready then 1 else 0)

/-- The budget that is used up. -/
def used (r : LoginRun) : ℕ := if r.machine.step=.failed then
    r.machine.profile.attempts.toNat else r.machine.attemptsSpent

structure Budgeted (profile : SerialProfile) (r : LoginRun) : Prop where
  profile_eq : r.machine.profile=profile
  index : r.machine.startupIndex ≤ profile.startupCommands.length
  used_le : used r ≤ profile.attempts.toNat
  written : writes r.log ≤ (if r.machine.step=.idle then 0 else 1)+progress r*(profile.attempts.toNat+1)+used r
  passwords : passwordSends r.log ≤ r.prompts

variable {profile : SerialProfile} {r : LoginRun} {event : LoginEvent} {x : SerialLoginMachine×LoginAction}

theorem writes_append {log more : List LoginEntry} : writes (log++more)=writes log+writes more := List.countP_append

theorem passwordSends_append {log more : List LoginEntry} :
    passwordSends (log++more)=passwordSends log+passwordSends more := List.countP_append

section Accounting

variable {r' : LoginRun} (hprofile : r'.machine.profile=profile)
  (hindex : r'.machine.startupIndex ≤ profile.startupCommands.length)
    (hpasswords : passwordSends r'.log ≤ r'.prompts)
include hprofile hindex hpasswords

/-- A turn that writes nothing. -/
theorem budgeted_quiet (h : Budgeted profile r) (hprogress : progress r ≤ progress r') (hused : used r ≤ used r')
    (hle : used r' ≤ profile.attempts.toNat) (hlog : writes r'.log=writes r.log)
    (hstep : r'.machine.step=.idle → r.machine.step=.idle) : Budgeted profile r' := by
  refine ⟨hprofile,hindex,hle,?_,hpasswords⟩
  have hwritten := h.written
  have hmul := Nat.mul_le_mul_right (profile.attempts.toNat+1) hprogress
  rw [hlog]
  by_cases hidle : r'.machine.step=.idle
  · rw [if_pos (hstep hidle)] at hwritten
    rw [if_pos hidle]
    omega
  · rw [if_neg hidle]
    split_ifs at hwritten <;> omega

/-- A turn that writes for an attempt. -/
theorem budgeted_attempt (h : Budgeted profile r) (hprogress : progress r ≤ progress r') (hused : used r'=used r+1)
    (hle : used r' ≤ profile.attempts.toNat) (hlog : writes r'.log=writes r.log+1) (hstep : r'.machine.step≠.idle) :
    Budgeted profile r' := by
  refine ⟨hprofile,hindex,hle,?_,hpasswords⟩
  have hwritten := h.written
  have hmul := Nat.mul_le_mul_right (profile.attempts.toNat+1) hprogress
  rw [hlog,if_neg hstep]
  split_ifs at hwritten <;> omega

/-- A turn that writes for something recognised. -/
theorem budgeted_progress (h : Budgeted profile r) (hprogress : progress r+1 ≤ progress r')
    (hle : used r' ≤ profile.attempts.toNat) (hlog : writes r'.log ≤ writes r.log+1)
    (hstep : r'.machine.step≠.idle) :
    Budgeted profile r' := by
  refine ⟨hprofile,hindex,hle,?_,hpasswords⟩
  have hwritten := h.written
  have hused := h.used_le
  have hmul := Nat.mul_le_mul_right (profile.attempts.toNat+1) hprogress
  rw [Nat.succ_mul] at hmul
  rw [if_neg hstep]
  split_ifs at hwritten <;> omega

end Accounting

theorem progress_kept (r : LoginRun) (n : ℕ) :
    progress r ≤ r.prompts+n+r.machine.startupIndex+(if r.machine.step=.ready then 1 else 0) := by
  unfold progress
  omega

theorem progress_stopped (hstep : r.machine.step≠.ready) (n : ℕ) :
    progress r ≤ r.prompts+n+r.machine.startupIndex+0 := by
  unfold progress
  rw [if_neg hstep]
  omega

/-- What is recognised before the login is through counts. -/
theorem progress_fresh (hstep : r.machine.step≠.ready) (n : ℕ) :
    progress r+1 ≤ r.prompts+1+r.machine.startupIndex+n := by
  unfold progress
  rw [if_neg hstep]
  omega

theorem progress_prompt (hrecognised : r.machine.recognisesPrompt event=true) (hstep : r.machine.step≠.ready) :
    progress r+1 ≤ r.prompts+(r.machine.recognisesPrompt event).toNat+r.machine.startupIndex+0 := by
  rw [hrecognised]
  exact progress_fresh hstep 0

theorem used_running (hstep : r.machine.step≠.failed) : used r=r.machine.attemptsSpent := if_neg hstep

theorem writes_wrote (log : List LoginEntry) (bytes : Bytes) (next : LoginStep) :
    writes (log++[.wrote bytes next])=writes log+1 := writes_append

namespace Budgeted

theorem attempt_left (h : Budgeted profile r) (hleft : r.machine.HasAttempt) :
    r.machine.attemptsSpent+1 ≤ profile.attempts.toNat := by
  have hcount : ((r.machine.attemptsSpent+1 : ℕ) : ℤ) < profile.attempts := by
    rw [← h.profile_eq]
    exact hleft
  omega

/-- What is no password is sent without one. -/
theorem passwords_kept (h : Budgeted profile r) {more : List LoginEntry} (hmore : passwordSends more=0) (n : ℕ) :
    passwordSends (r.log++more) ≤ r.prompts+n := by
  rw [passwordSends_append,hmore]
  exact h.passwords.trans (Nat.le_add_right _ _)

/-- A turn that only looks. -/
theorem looked (h : Budgeted profile r) {n : ℕ} {since : Bytes} {m : SerialLoginMachine}
    (hprofile : m.profile=profile)
    (hindex : m.startupIndex=r.machine.startupIndex) (hstep : m.step=r.machine.step)
    (hspent : m.attemptsSpent=r.machine.attemptsSpent) : Budgeted profile ⟨m,since,r.log++[],r.prompts+n⟩ := by
  have hused : used ⟨m,since,r.log++[],r.prompts+n⟩=used r := by
    simp only [used,hstep,hspent,hprofile,h.profile_eq]
  refine budgeted_quiet hprofile (hindex ▸ h.index) (h.passwords_kept rfl n) h ?_ hused.ge (hused ▸ h.used_le) ?_
    (fun hidle => hstep ▸ hidle)
  · show progress r ≤ r.prompts+n+m.startupIndex+(if m.step=.ready then 1 else 0)
    rw [hindex,hstep]
    exact progress_kept r n
  · rw [List.append_nil]

/-- A turn that waits once more for a startup command. -/
theorem waited (h : Budgeted profile r) {now : ℤ} (step : r.machine.step=.runStartup)
    (left : r.machine.HasAttempt) :
    Budgeted profile (r.record (.tick now) ({r.machine with
      attemptsSpent := r.machine.attemptsSpent+1,stepSinceMs := now},.wait)) := by
  let m : SerialLoginMachine := {r.machine with attemptsSpent := r.machine.attemptsSpent+1,stepSinceMs := now}
  have hspent : used r=r.machine.attemptsSpent := used_running (by rw [step]; decide)
  have hspent' : used (r.record (.tick now) (m,.wait))=r.machine.attemptsSpent+1 :=
    if_neg (by simp [LoginRun.record,m,step])
  have hlog : writes (r.log++[])=writes r.log := congrArg writes (List.append_nil _)
  refine budgeted_quiet h.profile_eq h.index (h.passwords_kept rfl _) h (progress_kept r _) ?_ ?_ hlog id
  · change used r ≤ used (r.record (.tick now) (m,.wait))
    rw [hspent,hspent']
    exact Nat.le_succ _
  · change used (r.record (.tick now) (m,.wait)) ≤ _
    rw [hspent']
    exact h.attempt_left left

/-- The first line, which no attempt is spent on. -/
theorem nudged (h : Budgeted profile r) {now : ℤ} (step : r.machine.step=.idle) :
    Budgeted profile (r.record (.tick now) (r.machine.write [newline] .probing now false)) := by
  have hstep : r.machine.step≠.ready ∧ r.machine.step≠.failed := by rw [step]; decide
  have hused := h.used_le
  have hwritten := h.written
  have hmul := Nat.mul_le_mul_right (profile.attempts.toNat+1) (progress_stopped hstep.1 0)
  rw [used_running hstep.2] at hused
  rw [if_pos step,used_running hstep.2] at hwritten
  refine ⟨h.profile_eq,h.index,hused,?_,h.passwords_kept rfl _⟩
  change writes (r.log++[.wrote [newline] .probing]) ≤
    1+(r.prompts+0+r.machine.startupIndex+0)*(profile.attempts.toNat+1)+
    r.machine.attemptsSpent
  rw [writes_wrote]
  omega

/-- The shell's answer: the next startup command is sent, or the login is through. -/
theorem answered (h : Budgeted profile r) {arrived : Bytes} {now : ℤ}
    (step : r.machine.step=.confirmShell ∨ r.machine.step=.runStartup) :
    Budgeted profile (r.record (.feed arrived now)
      ((r.machine.receive arrived).noteProgress.runNextStartupCommand now)) := by
  have hstep : r.machine.step≠.ready := by rcases step with h | h <;> rw [h] <;> decide
  have hprogress := progress_fresh hstep 0
  rcases runNextStartupCommand_cases (r.machine.receive arrived).noteProgress now with ⟨-,hnext⟩ |
    ⟨command,hsome,hnext⟩
  · rw [hnext]
    have hlog : writes (r.log++[.found (r.since++arrived)])=writes r.log := writes_append
    refine budgeted_progress h.profile_eq h.index (h.passwords_kept rfl _) h ?_ (Nat.zero_le _)
      (hlog.le.trans (Nat.le_succ _))
      (fun hs => LoginStep.noConfusion hs)
    change progress r+1 ≤ r.prompts+_+r.machine.startupIndex+1
    omega
  · rw [hnext]
    have hindex : r.machine.startupIndex+1 ≤ profile.startupCommands.length := by
      rw [← h.profile_eq]
      exact (List.getElem?_eq_some_iff.mp hsome).1
    have hlog : ∀bytes,writes (r.log++[.found (r.since++arrived),.wrote bytes .runStartup])=writes r.log+1 :=
      fun _ => writes_append
    refine budgeted_progress h.profile_eq hindex (h.passwords_kept rfl _) h ?_ (Nat.zero_le _) (hlog _).le
      (fun hs => LoginStep.noConfusion hs)
    change progress r+1 ≤ r.prompts+_+(r.machine.startupIndex+1)+0
    omega

/-- A conversation that is over has used its budget up. -/
theorem lost (h : Budgeted profile r) {m : SerialLoginMachine} {n : ℕ} {since : Bytes}
    (hprofile : m.profile=profile)
    (hindex : m.startupIndex=r.machine.startupIndex) (hfailed : m.step=.failed) (hstep : r.machine.step≠.ready) :
    Budgeted profile ⟨m,since,r.log++[],r.prompts+n⟩ := by
  have hused : used ⟨m,since,r.log++[],r.prompts+n⟩=profile.attempts.toNat := by
    rw [used,if_pos hfailed,hprofile]
  refine budgeted_quiet hprofile (hindex ▸ h.index) (h.passwords_kept rfl n) h ?_ (hused ▸ h.used_le) hused.le ?_
    (fun hidle => absurd (hidle.symm.trans hfailed) (by decide))
  · show progress r ≤ r.prompts+n+m.startupIndex+(if m.step=.ready then 1 else 0)
    rw [hindex,hfailed]
    exact progress_stopped hstep n
  · rw [List.append_nil]

end Budgeted

private theorem record_budgeted (h : Budgeted profile r) (ht : Turns r.machine event x) : Budgeted profile
    (r.record event x) := by
  cases ht with
  | reset => exact ⟨h.profile_eq,Nat.zero_le _,Nat.zero_le _,Nat.zero_le _,Nat.zero_le _⟩
  | heard => exact h.looked h.profile_eq rfl rfl rfl
  | rebooted => exact h.looked h.profile_eq rfl rfl rfl
  | waits => exact h.looked h.profile_eq rfl rfl rfl
  | waited step left => exact h.waited step left
  | refused step => exact h.lost h.profile_eq rfl rfl (by rcases step with h | h <;> rw [h] <;> decide)
  | gaveUp step => exact h.lost h.profile_eq rfl rfl step.1
  | user step _ recognised =>
    have hstep : r.machine.step≠.ready := by rcases step with h | h | h <;> rw [h] <;> decide
    exact budgeted_progress h.profile_eq h.index (h.passwords_kept rfl _) h (progress_prompt recognised hstep)
      (Nat.zero_le _)
      (writes_wrote ..).le (fun hs => LoginStep.noConfusion hs)
  | @password arrived now step _ recognised =>
    have hstep : r.machine.step≠.ready := by rcases step with h | h | h | h <;> rw [h] <;> decide
    have hsent : passwordSends (r.log++[.wrote r.machine.passwordLine .sentPassword]) ≤
        r.prompts+(r.machine.recognisesPrompt (.feed arrived now)).toNat := by
      rw [passwordSends_append,recognised]
      exact Nat.add_le_add_right h.passwords 1
    exact budgeted_progress h.profile_eq h.index hsent h (progress_prompt recognised hstep) (Nat.zero_le _)
      (writes_wrote ..).le (fun hs => LoginStep.noConfusion hs)
  | userAgain step left =>
    have hstep : r.machine.step≠.ready ∧ r.machine.step≠.failed := by rw [step]; decide
    exact budgeted_attempt h.profile_eq h.index (h.passwords_kept rfl _) h (progress_stopped hstep.1 _)
      (congrArg Nat.succ (used_running hstep.2).symm) (h.attempt_left left) (writes_wrote ..)
        (fun hs => LoginStep.noConfusion hs)
  | renudges step left =>
    have hstep : r.machine.step≠.ready ∧ r.machine.step≠.failed := by rw [step]; decide
    exact budgeted_attempt h.profile_eq h.index (h.passwords_kept rfl _) h (progress_stopped hstep.1 _)
      (congrArg Nat.succ (used_running hstep.2).symm) (h.attempt_left left) (writes_wrote ..)
        (fun hs => LoginStep.noConfusion hs)
  | probes step left =>
    have hstep : r.machine.step≠.ready ∧ r.machine.step≠.failed := by
      rcases step with h | h | h <;> rw [h] <;> decide
    exact budgeted_attempt h.profile_eq h.index (h.passwords_kept rfl _) h (progress_stopped hstep.1 _)
      (congrArg Nat.succ (used_running hstep.2).symm) (h.attempt_left left) (writes_wrote ..)
        (fun hs => LoginStep.noConfusion hs)
  | nudges step => exact h.nudged step
  | answered step _ _ => exact h.answered step

private theorem run_budgeted (h : Budgeted profile r) (events : List LoginEvent) : Budgeted profile
    (r.run events) := by
  induction events generalizing r with
  | nil => exact h
  | cons event events ih => exact ih (record_budgeted h (turn_turns event))

/-- Between a reset and its end a conversation writes no more than its attempts, its startup commands and
the prompts it recognises allow, and sends the password no oftener than it recognises a prompt. -/
theorem login_bounded (profile : SerialProfile) (deviceName loginUser : String) (password : Bytes)
    (token : ℕ) (now : ℤ) (events : List LoginEvent) :
    let r := (LoginRun.start (initial profile deviceName loginUser password token now)).run events
    writes r.log ≤ (r.prompts+profile.startupCommands.length+2)*(profile.attempts.toNat+1) ∧
      passwordSends r.log ≤ r.prompts := by
  intro r
  have hstart : Budgeted profile (.start (initial profile deviceName loginUser password token now)) :=
    ⟨rfl,Nat.zero_le _,Nat.zero_le _,Nat.zero_le _,Nat.zero_le _⟩
  have hr : Budgeted profile r := run_budgeted hstart events
  have hindex := hr.index
  have hused := hr.used_le
  have hprogress : progress r ≤ r.prompts+profile.startupCommands.length+1 := by
    unfold progress
    split_ifs <;> omega
  have hmul := Nat.mul_le_mul_right (profile.attempts.toNat+1) hprogress
  have hone : (if r.machine.step=.idle then 0 else 1) ≤ 1 := by split_ifs <;> omega
  refine ⟨?_,hr.passwords⟩
  calc writes r.log ≤ 1+progress r*(profile.attempts.toNat+1)+used r := hr.written.trans (by omega)
    _ ≤ (r.prompts+profile.startupCommands.length+1)*(profile.attempts.toNat+1)+(profile.attempts.toNat+1) :=
      by omega
    _ = (r.prompts+profile.startupCommands.length+2)*(profile.attempts.toNat+1) := (Nat.succ_mul _ _).symm

/-! ## A device that keeps asking -/

/-- The two prompts, as a preset has them when nobody wrote one. -/
def plainProfile : SerialProfile :=
  ⟨some fun window => decide (ascii "login:"<:+:window),some fun window =>
    decide (ascii "Password:"<:+:window),5000,3,[],none⟩

/-- After the password the device is silent for one timeout, and then asks for the user again. -/
def askingAgain (now : ℤ) : List LoginEvent :=
  [.feed (ascii "login: ") now,.feed (ascii "Password: ") now,.tick (now+5000)]

/-- The machine in a step that it has just begun. -/
def began (step : LoginStep) (now : ℤ) (spent : ℕ) : SerialLoginMachine :=
  ⟨plainProfile,"ttyUSB0","root",ascii "hunter2",7,step,[],now,spent,0,false,""⟩

variable {log : List LoginEntry} {prompts : ℕ} {now since : ℤ} {spent : ℕ}

private theorem after_login : (LoginRun.mk (began .confirmShell since spent) [] log prompts).after
    (.feed (ascii "login: ") now)=
    ⟨began .sentUser now 0,[],log++[.wrote (ascii "root\n") .sentUser],prompts+1⟩ := rfl

private theorem after_password : (LoginRun.mk (began .sentUser since spent) [] log prompts).after
    (.feed (ascii "Password: ") now)=
    ⟨began .sentPassword now 0,[],log++[.wrote (ascii "hunter2\n") .sentPassword],prompts+1⟩ := rfl

private theorem after_timeout : (LoginRun.mk (began .sentPassword now 0) [] log prompts).after (.tick (now+5000))=
    ⟨began .confirmShell (now+5000) 1,[],
      log++[.wrote (probeLine (began .idle 0 0).marker) .confirmShell],prompts⟩ := by
  have hover : ¬now+5000-(began .sentPassword now 0).stepSinceMs <
    (began .sentPassword now 0).profile.promptTimeoutMs := by
    change ¬now+5000-now < 5000
    omega
  have htick : (began .sentPassword now 0).tick (now+5000)=
      (began .confirmShell (now+5000) 1,⟨.write,probeLine (began .idle 0 0).marker,false,""⟩) := by
    unfold tick
    rw [if_neg (by simp [began]),if_neg (by simp [began]),if_neg hover]
    rfl
  change LoginRun.record _ _ ((began .sentPassword now 0).tick (now+5000))=_
  rw [htick]
  rfl

/-- Each time round the password is sent once more, and nothing is used up. -/
theorem askingAgain_run : ∃more,passwordSends more=1 ∧
    (LoginRun.mk (began .confirmShell now 1) [] log prompts).run (askingAgain now)=
      ⟨began .confirmShell (now+5000) 1,[],log++more,prompts+2⟩ := by
  refine ⟨[.wrote (ascii "root\n") .sentUser,.wrote (ascii "hunter2\n") .sentPassword,
    .wrote (probeLine (began .idle 0 0).marker) .confirmShell],rfl,?_⟩
  unfold LoginRun.run askingAgain
  rw [List.foldl_cons,after_login,List.foldl_cons,after_password,List.foldl_cons,after_timeout,List.append_assoc,
    List.append_assoc]
  rfl

/-- A device that asks `count` times. -/
def asksFor (now : ℤ) : ℕ→List LoginEvent
  | 0 => []
  | count+1 => askingAgain now++asksFor (now+5000) count

private theorem asksFor_run (count : ℕ) : passwordSends
    ((LoginRun.mk (began .confirmShell now 1) [] log prompts).run
    (asksFor now count)).log=passwordSends log+count := by
  induction count generalizing now log prompts with
  | zero => rfl
  | succ count ih =>
    obtain ⟨more,hmore,hround⟩ : ∃more,passwordSends more=1 ∧
        (LoginRun.mk (began .confirmShell now 1) [] log prompts).run (askingAgain now)=
          ⟨began .confirmShell (now+5000) 1,[],log++more,prompts+2⟩ := askingAgain_run
    have happend : asksFor now (count+1)=askingAgain now++asksFor (now+5000) count := rfl
    rw [happend,LoginRun.run_append,hround,ih,passwordSends_append,hmore]
    omega

/-- No function of the attempts and of the number of startup commands bounds how often the password is
sent. -/
theorem passwordSends_unbounded : ¬∃bound : ℕ→ℕ→ℕ,∀profile deviceName loginUser password token now events,
    passwordSends ((LoginRun.start (initial profile deviceName loginUser password token now)).run events).log ≤
      bound profile.attempts.toNat profile.startupCommands.length := by
  rintro ⟨bound,hbound⟩
  let count := bound 3 0+1
  let probed : List LoginEvent := [.tick 0,.tick 5000]
  have hprobed : (LoginRun.start (initial plainProfile "ttyUSB0" "root" (ascii "hunter2") 7 0)).run probed=
      ⟨began .confirmShell 5000 1,[],
        [.wrote [newline] .probing,.wrote (probeLine (began .idle 0 0).marker) .confirmShell],0⟩ := rfl
  have hsent := hbound plainProfile "ttyUSB0" "root" (ascii "hunter2") 7 0 (probed++asksFor 5000 count)
  rw [LoginRun.run_append,hprobed,asksFor_run] at hsent
  have hle : count ≤ bound 3 0 := (Nat.le_add_left _ _).trans hsent
  omega

end Loftail
