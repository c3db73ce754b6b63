import Loftail.SerialLoginRuns
import Mathlib.Data.List.Basic

/-! # Startup commands at a device that answers in order

A device takes the lines typed at it one after another. Of what it prints only this is told apart: where
the marker of an executed line begins. -/
namespace Loftail
open SerialLoginMachine

/-- A line typed at the device. -/
inductive TypedLine
  | plain
  | probe
  | startup (i : ℕ)
  deriving DecidableEq

/-- A printed byte, and the line whose marker begins with it. -/
abbrev PrintedByte := Byte×Option TypedLine

/-- A machine at a device: the lines not yet taken, what is printed and not yet received, how many
startup commands have finished, and the markers received since the window was cleared. -/
structure SerialConsole where
  machine : SerialLoginMachine
  queue : List TypedLine
  output : List PrintedByte
  finished : ℕ
  seen : List TypedLine

inductive ConsoleEvent
  | prints (text : Bytes)
  | executes
  | takes
  | delivers (count : ℕ) (nowMs : ℤ)
  | ticks (nowMs : ℤ)

/-- The markers that begin in a stretch of output. -/
def markersIn (output : List PrintedByte) : List TypedLine := output.filterMap (·.2)

def plainText (text : Bytes) : List PrintedByte := text.map fun b => (b,none)

/-- The marker as an executed line prints it. -/
def printedMarker (marker : Bytes) (line : TypedLine) : List PrintedByte :=
  match marker with
  | [] => []
  | b::marker => (b,some line)::plainText (marker++[newline])

namespace SerialConsole

def start (m : SerialLoginMachine) : SerialConsole := ⟨m,[],[],0,[]⟩

/-- The line that an action types. -/
def typed (m : SerialLoginMachine) (x : SerialLoginMachine×LoginAction) : List TypedLine :=
  if x.2.kind=.write then
    match x.1.step with
    | .confirmShell => [.probe]
    | .runStartup => [.startup m.startupIndex]
    | _ => [.plain]
  else []

/-- What the machine does when it receives markers, and leaves some output. -/
def answers (c : SerialConsole) (received : List TypedLine) (output : List PrintedByte)
    (x : SerialLoginMachine×LoginAction) : SerialConsole :=
  {c with
   machine := x.1
   queue := c.queue++typed c.machine x
   output
   seen := if x.2.kind=.wait ∨ x.2.kind=.fail then c.seen++received else []}

/-- The next line is executed: a startup command finishes, and a line that echoes the marker prints it. -/
def executed (c : SerialConsole) (line : TypedLine) (queue : List TypedLine) : SerialConsole :=
  match line with
  | .plain => {c with queue}
  | .probe => {c with queue,output := c.output++printedMarker c.machine.marker .probe}
  | .startup i => {c with queue,output := c.output++printedMarker c.machine.marker (.startup i),finished := i+1}

def after (c : SerialConsole) : ConsoleEvent→SerialConsole
  | .prints text => {c with output := c.output++plainText text}
  | .executes =>
    match c.queue with
    | [] => c
    | line::queue => c.executed line queue
  -- a line is taken as a user name or a password
  | .takes => {c with queue := c.queue.tail}
  | .delivers count now =>
    c.answers (markersIn (c.output.take count)) (c.output.drop count)
      (c.machine.turn (.feed ((c.output.take count).map (·.1)) now))
  | .ticks now => c.answers [] c.output (c.machine.turn (.tick now))

def run (c : SerialConsole) (events : List ConsoleEvent) : SerialConsole := events.foldl after c

/-- The marker is recognised in what arrives. -/
def recognisesMarker (m : SerialLoginMachine) (arrived : Bytes) : Prop :=
  (m.step=.confirmShell ∨ m.step=.runStartup) ∧ (m.receive arrived).windowMatches m.profile.rebootRe=false ∧
    (m.receive arrived).windowHasMarker=true

/-- A marker line that the window shows was printed since the window was cleared. -/
def Shown (c : SerialConsole) : ConsoleEvent→Prop
  | .delivers count _ => recognisesMarker c.machine ((c.output.take count).map (·.1))→
      c.seen++markersIn (c.output.take count)≠[]
  | _ => True

/-- When the shell is confirmed no other probe is unanswered. -/
def Settled (c : SerialConsole) : ConsoleEvent→Prop
  | .delivers count _ => recognisesMarker c.machine ((c.output.take count).map (·.1))→c.machine.step=.confirmShell→
      .probe∉c.queue ∧ markersIn (c.output.drop count)=[]
  | _ => True

/-- Something holds at each step of a run. -/
def Throughout (p : SerialConsole → ConsoleEvent→Prop) : SerialConsole→List ConsoleEvent→Prop
  | _,[] => True
  | c,event::events => p c event ∧ Throughout p (c.after event) events

instance (m : SerialLoginMachine) (arrived : Bytes) : Decidable (recognisesMarker m arrived) :=
  inferInstanceAs (Decidable (_ ∧ _ ∧ _))

instance decidableShown (c : SerialConsole) : ∀event,Decidable (Shown c event)
  | .delivers count _ => inferInstanceAs (Decidable
    (recognisesMarker c.machine ((c.output.take count).map (·.1))→c.seen++markersIn (c.output.take count)≠[]))
  | .prints _ => isTrue trivial
  | .executes => isTrue trivial
  | .takes => isTrue trivial
  | .ticks _ => isTrue trivial

instance decidableSettled (c : SerialConsole) : ∀event,Decidable (Settled c event)
  | .delivers count _ =>
    inferInstanceAs (Decidable
    (recognisesMarker c.machine ((c.output.take count).map (·.1))→c.machine.step=.confirmShell→
      .probe∉c.queue ∧ markersIn (c.output.drop count)=[]))
  | .prints _ => isTrue trivial
  | .executes => isTrue trivial
  | .takes => isTrue trivial
  | .ticks _ => isTrue trivial

instance decidableThroughout (p : SerialConsole → ConsoleEvent→Prop) [∀c event,Decidable (p c event)] :
    ∀c events,Decidable (Throughout p c events)
  | _,[] => isTrue trivial
  | c,event::events =>
    have := decidableThroughout p (c.after event) events
    inferInstanceAs (Decidable (p c event ∧ Throughout p (c.after event) events))

/-- A command is sent after the one before it finished, and the login is done after all of them. -/
def InTurn (c : SerialConsole) : Prop :=
  c.machine.startupIndex ≤ c.finished+1 ∧
    (c.machine.step=.ready→c.finished=c.machine.profile.startupCommands.length)

/-! ## What a run keeps -/

def startups (queue : List TypedLine) : List ℕ :=
  queue.filterMap fun line =>
    match line with
    | .startup i => some i
    | _ => none

variable {c : SerialConsole} {profile : SerialProfile} {received queue : List TypedLine} {output : List PrintedByte}

theorem startups_append {more : List TypedLine} : startups (queue++more)=startups queue++startups more :=
  List.filterMap_append ..

theorem markersIn_append {more : List PrintedByte} : markersIn (output++more)=markersIn output++markersIn more :=
  List.filterMap_append ..

theorem markersIn_plainText (text : Bytes) : markersIn (plainText text)=[] := by
  induction text with
  | nil => rfl
  | cons b text ih => exact ih

private theorem markersIn_printedMarker (marker : Bytes) (line : TypedLine) :
    (markersIn (printedMarker marker line)).length ≤ 1 := by
  cases marker with
  | nil => exact Nat.zero_le _
  | cons b marker =>
    have hone : markersIn (printedMarker (b::marker) line)=line::markersIn (plainText (marker++[newline])) := rfl
    rw [hone,markersIn_plainText]
    exact Nat.le_refl _

/-- What a step says about the commands; the markers are those received or on their way. -/
def StepKeeps (commands finished index : ℕ) (queue markers : List TypedLine) : LoginStep→Prop
  | .runStartup => .probe∉queue ∧
      ((index=finished+1 ∧ markers=[]) ∨ (index=finished ∧ startups queue=[] ∧ markers.length ≤ 1))
  | .ready => index=finished ∧ finished=commands
  | .failed => True
  | _ => index=0

/-- One startup command at most is typed and not finished, and it is the last one sent. -/
structure Ordered (profile : SerialProfile) (c : SerialConsole) : Prop where
  profile_eq : c.machine.profile=profile
  queue : startups c.queue=[] ∨ ∃n,startups c.queue=[n] ∧ c.machine.startupIndex=n+1 ∧ c.finished=n
  index : c.machine.startupIndex ≤ c.finished+1 ∧ c.finished ≤ c.machine.startupIndex
  limit : c.machine.startupIndex ≤ profile.startupCommands.length
  step : StepKeeps profile.startupCommands.length c.finished c.machine.startupIndex c.queue
    (c.seen++markersIn c.output)
    c.machine.step

private theorem prints_ordered (h : Ordered profile c) (text : Bytes) : Ordered profile
    (c.after (.prints text)) := by
  obtain ⟨hprofile,hqueue,hindex,hlimit,hstep⟩ := h
  refine ⟨hprofile,hqueue,hindex,hlimit,?_⟩
  have hmarkers : markersIn (c.output++plainText text)=markersIn c.output := by
    rw [markersIn_append,markersIn_plainText,List.append_nil]
  change StepKeeps _ _ _ _ (c.seen++markersIn (c.output++plainText text)) _
  rw [hmarkers]
  exact hstep

/-- What is left of the queue holds fewer commands. -/
theorem startups_tail (queue : List TypedLine) : startups queue.tail=startups queue ∨
    startups queue.tail=(startups queue).tail := by
  cases queue with
  | nil => exact Or.inl rfl
  | cons line queue =>
    cases line with
    | startup => exact Or.inr rfl
    | _ => exact Or.inl rfl

private theorem stepKeeps_tail {commands finished index : ℕ} {markers : List TypedLine} {step : LoginStep}
    (h : StepKeeps commands finished index queue markers step) :
    StepKeeps commands finished index queue.tail markers step := by
  cases step with
  | runStartup =>
    obtain ⟨hprobe,hmarkers⟩ := h
    refine ⟨fun hmem => hprobe (List.mem_of_mem_tail hmem),?_⟩
    rcases hmarkers with hopen | ⟨hdone,hnone,hone⟩
    · exact Or.inl hopen
    · refine Or.inr ⟨hdone,?_,hone⟩
      rcases startups_tail queue with h | h
      · rw [h,hnone]
      · rw [h,hnone]
        rfl
  | _ => exact h

theorem takes_ordered (h : Ordered profile c) : Ordered profile (c.after .takes) := by
  obtain ⟨hprofile,hqueue,hindex,hlimit,hstep⟩ := h
  refine ⟨hprofile,?_,hindex,hlimit,stepKeeps_tail hstep⟩
  change startups c.queue.tail=[] ∨ ∃n,startups c.queue.tail=[n] ∧ _
  rcases startups_tail c.queue with h | h
  · rw [h]
    exact hqueue
  · rw [h]
    rcases hqueue with hnone | ⟨n,hone,-⟩
    · rw [hnone]
      exact Or.inl rfl
    · rw [hone]
      exact Or.inl rfl

/-- Only while a startup command runs do the markers matter. -/
theorem stepKeeps_markers {commands finished index : ℕ} {markers others : List TypedLine} {step : LoginStep}
    (h : StepKeeps commands finished index queue markers step) (hs : step≠.runStartup) :
    StepKeeps commands finished index queue others step := by
  cases step with
  | runStartup => exact absurd rfl hs
  | _ => exact h

private theorem stepKeeps_fewer {commands finished index : ℕ} {fewer markers : List TypedLine} {step : LoginStep}
    (h : StepKeeps commands finished index queue (fewer++markers) step) :
    StepKeeps commands finished index queue markers step := by
  cases step with
  | runStartup =>
    obtain ⟨hprobe,⟨hopen,hempty⟩ | ⟨hdone,hnone,hone⟩⟩ := h
    · exact ⟨hprobe,Or.inl ⟨hopen,(List.append_eq_nil_iff.mp hempty).2⟩⟩
    · rw [List.length_append] at hone
      exact ⟨hprobe,Or.inr ⟨hdone,hnone,by omega⟩⟩
  | _ => exact h

private theorem executes_ordered (h : Ordered profile c) : Ordered profile (c.after .executes) := by
  cases hq : c.queue with
  | nil =>
    have hsame : c.after .executes=c := by simp [after,hq]
    rwa [hsame]
  | cons line queue =>
    have hexecutes : c.after .executes=c.executed line queue := by simp [after,hq]
    have htakes : c.after .takes={c with queue} := by simp [after,hq]
    obtain ⟨hprofile,hqueue,hindex,hlimit,hstep⟩ := takes_ordered h
    rw [htakes] at hprofile hqueue hindex hlimit hstep
    rw [hexecutes]
    cases line with
    | plain => exact ⟨hprofile,hqueue,hindex,hlimit,hstep⟩
    | probe =>
      refine ⟨hprofile,hqueue,hindex,hlimit,stepKeeps_markers hstep ?_⟩
      intro hs
      have hrun := h.step
      have hs : c.machine.step=.runStartup := hs
      rw [hs,hq] at hrun
      exact hrun.1 (List.mem_cons_self ..)
    | startup i =>
      -- it is the one command that is open
      obtain ⟨hnone,hopen,hfinished⟩ : startups queue=[] ∧ c.machine.startupIndex=i+1 ∧ c.finished=i := by
        have hall := h.queue
        have hhead : startups c.queue=i::startups queue := by rw [hq]; rfl
        rw [hhead] at hall
        rcases hall with hnone | ⟨n,hone,hindex,hfinished⟩
        · cases hnone
        · obtain ⟨rfl,hnone⟩ := List.cons.inj hone
          exact ⟨hnone,hindex,hfinished⟩
      refine ⟨hprofile,Or.inl hnone,⟨hopen.le.trans (Nat.le_succ _),hopen.ge⟩,hlimit,?_⟩
      have hmarkers : markersIn (c.output++printedMarker c.machine.marker (.startup i))=
          markersIn c.output++markersIn (printedMarker c.machine.marker (.startup i)) := markersIn_append
      have hone := markersIn_printedMarker c.machine.marker (.startup i)
      have hkept := h.step
      change StepKeeps _ (i+1) c.machine.startupIndex queue
        (c.seen++markersIn (c.output++printedMarker c.machine.marker (.startup i))) c.machine.step
      cases hs : c.machine.step with
      | runStartup =>
        rw [hs] at hkept
        obtain ⟨hprobe,⟨-,hempty⟩ | ⟨hdone,-⟩⟩ := hkept
        · obtain ⟨hseen,houtput⟩ := List.append_eq_nil_iff.mp hempty
          refine ⟨fun hmem => hprobe (by rw [hq]; exact List.mem_cons_of_mem _ hmem),Or.inr ⟨hopen,hnone,?_⟩⟩
          rw [hmarkers,hseen,houtput]
          exact hone
        · omega
      | ready =>
        rw [hs] at hkept
        have hdone := hkept.1
        omega
      | failed => trivial
      | _ =>
        rw [hs] at hkept
        have hzero : c.machine.startupIndex=0 := hkept
        omega

/-- What the machine types before the shell is there. -/
theorem typed_startups {m : SerialLoginMachine} {x : SerialLoginMachine×LoginAction} (h : x.1.step≠.runStartup) :
    startups (typed m x)=[] := by
  unfold typed
  split
  · cases hs : x.1.step with
    | runStartup => exact absurd hs h
    | _ => rfl
  · rfl

theorem answers_ordered {event : LoginEvent} {x : SerialLoginMachine×LoginAction} (h : Ordered profile c)
    (ht : Turns c.machine event x) (hevent : ∀now,event≠.reset now)
    (hmarkers : markersIn c.output=received++markersIn output)
    (hshown : ∀arrived now,event=.feed arrived now → recognisesMarker c.machine arrived→
      c.seen++received≠[] ∧ (c.machine.step=.confirmShell → .probe∉c.queue ∧ markersIn output=[])) :
    Ordered profile (c.answers received output x) := by
  have hprofile : x.1.profile=profile := (turns_settings ht).profile.trans h.profile_eq
  obtain ⟨-,hqueue,hindex,hlimit,hstep⟩ := h
  have hzero : c.machine.step≠.runStartup ∧ c.machine.step≠.ready ∧ c.machine.step≠.failed→
    c.machine.startupIndex=0 := by
    intro hs
    cases hc : c.machine.step with
    | runStartup => exact absurd hc hs.1
    | ready => exact absurd hc hs.2.1
    | failed => exact absurd hc hs.2.2
    | _ =>
      rw [hc] at hstep
      exact hstep
  have htyped : x.1.step≠.runStartup→startups (c.queue++typed c.machine x)=startups c.queue := by
    intro hs
    rw [startups_append,typed_startups hs,List.append_nil]
  have hcalm : x.1.step≠.runStartup→startups (c.queue++typed c.machine x)=[] ∨
      ∃n,startups (c.queue++typed c.machine x)=[n] ∧ c.machine.startupIndex=n+1 ∧ c.finished=n := by
    intro hs
    rw [htyped hs]
    exact hqueue
  have hquiet : startups (c.queue++[])=[] ∨ ∃n,startups (c.queue++[])=[n] ∧ c.machine.startupIndex=n+1 ∧
    c.finished=n := by
    rw [List.append_nil]
    exact hqueue
  have hsame : StepKeeps profile.startupCommands.length c.finished c.machine.startupIndex (c.queue++[])
      ((c.seen++received)++markersIn output) c.machine.step := by
    rw [List.append_nil,List.append_assoc,← hmarkers]
    exact hstep
  cases ht with
  | reset => exact absurd rfl (hevent _)
  | heard => exact ⟨hprofile,hquiet,hindex,hlimit,hsame⟩
  | waits => exact ⟨hprofile,hquiet,hindex,hlimit,hsame⟩
  | waited => exact ⟨hprofile,hquiet,hindex,hlimit,hsame⟩
  | rebooted =>
    refine ⟨hprofile,hquiet,hindex,hlimit,?_⟩
    exact stepKeeps_fewer hsame
  | user step => exact ⟨hprofile,hcalm fun hs => LoginStep.noConfusion hs,hindex,hlimit,
    hzero (by rcases step with h | h | h <;> rw [h] <;> decide)⟩
  | userAgain step => exact ⟨hprofile,hcalm fun hs => LoginStep.noConfusion hs,hindex,hlimit,
    hzero (by rw [step]; decide)⟩
  | password step =>
    exact ⟨hprofile,hcalm fun hs => LoginStep.noConfusion hs,hindex,hlimit,
      hzero (by rcases step with h | h | h | h <;> rw [h] <;> decide)⟩
  | refused => exact ⟨hprofile,hquiet,hindex,hlimit,trivial⟩
  | gaveUp => exact ⟨hprofile,hquiet,hindex,hlimit,trivial⟩
  | nudges step => exact ⟨hprofile,hcalm fun hs => LoginStep.noConfusion hs,hindex,hlimit,
    hzero (by rw [step]; decide)⟩
  | renudges step => exact ⟨hprofile,hcalm fun hs => LoginStep.noConfusion hs,hindex,hlimit,
    hzero (by rw [step]; decide)⟩
  | probes step =>
    exact ⟨hprofile,hcalm fun hs => LoginStep.noConfusion hs,hindex,hlimit,
      hzero (by rcases step with h | h | h <;> rw [h] <;> decide)⟩
  | @answered arrived now step seen live =>
    obtain ⟨hmarker,hsettled⟩ := hshown arrived now rfl ⟨step,live,seen⟩
    obtain ⟨hprobe,hnone,hfinished,hleft⟩ : .probe∉c.queue ∧ startups c.queue=[] ∧
      c.machine.startupIndex=c.finished ∧
        markersIn output=[] := by
      rcases step with hs | hs
      · rw [hs] at hstep
        have hindex0 : c.machine.startupIndex=0 := hstep
        obtain ⟨hprobe,hleft⟩ := hsettled hs
        refine ⟨hprobe,?_,by omega,hleft⟩
        rcases hqueue with hnone | ⟨n,-,hopen,-⟩
        · exact hnone
        · omega
      · rw [hs,hmarkers,← List.append_assoc] at hstep
        obtain ⟨hprobe,⟨-,hempty⟩ | ⟨hdone,hnone,hone⟩⟩ := hstep
        · exact absurd (List.append_eq_nil_iff.mp hempty).1 hmarker
        · have hpositive := List.length_pos_iff.mpr hmarker
          rw [List.length_append] at hone
          exact ⟨hprobe,hnone,hdone,List.length_eq_zero_iff.mp (by omega)⟩
    rcases runNextStartupCommand_cases (c.machine.receive arrived).noteProgress now with ⟨hend,hnext⟩ |
      ⟨command,hsome,hnext⟩
    · rw [hnext] at hprofile ⊢
      have hall : profile.startupCommands.length ≤ c.machine.startupIndex := by
        rw [← hprofile]
        exact List.getElem?_eq_none_iff.mp hend
      have hdone : c.finished=profile.startupCommands.length := by omega
      exact ⟨hprofile,hquiet,hindex,hlimit,hfinished,hdone⟩
    · rw [hnext] at hprofile ⊢
      have hmore : c.machine.startupIndex+1 ≤ profile.startupCommands.length := by
        rw [← hprofile]
        exact (List.getElem?_eq_some_iff.mp hsome).1
      have hopen : startups (c.queue++[.startup c.machine.startupIndex])=[c.machine.startupIndex] := by
        rw [startups_append,hnone]
        rfl
      have hnext : c.machine.startupIndex+1 ≤ c.finished+1 ∧ c.finished ≤ c.machine.startupIndex+1 := by omega
      refine ⟨hprofile,Or.inr ⟨c.machine.startupIndex,hopen,rfl,hfinished.symm⟩,hnext,hmore,?_,
        Or.inl ⟨congrArg Nat.succ hfinished,hleft⟩⟩
      intro hmem
      rcases List.mem_append.mp hmem with hold | hnew
      · exact hprobe hold
      · cases List.mem_singleton.mp hnew

private theorem after_ordered {event : ConsoleEvent} (h : Ordered profile c) (hshown : c.Shown event)
    (hsettled : c.Settled event) :
    Ordered profile (c.after event) := by
  cases event with
  | prints text => exact prints_ordered h text
  | executes => exact executes_ordered h
  | takes => exact takes_ordered h
  | delivers count now =>
    have hmarkers : markersIn c.output=markersIn (c.output.take count)++markersIn (c.output.drop count) := by
      rw [← markersIn_append,List.take_append_drop]
    apply answers_ordered h (turn_turns _) (fun _ => LoginEvent.noConfusion) hmarkers
    rintro arrived now ⟨rfl,rfl⟩ hmarker
    exact ⟨hshown hmarker,hsettled hmarker⟩
  | ticks now =>
    apply answers_ordered h (turn_turns _) (fun _ => LoginEvent.noConfusion) rfl
    rintro arrived now' ⟨⟩

private theorem run_ordered {events : List ConsoleEvent} (h : Ordered profile c)
    (hshown : Throughout Shown c events)
    (hsettled : Throughout Settled c events) : Ordered profile (c.run events) := by
  induction events generalizing c with
  | nil => exact h
  | cons event events ih => exact ih (after_ordered h hshown.1 hsettled.1) hshown.2 hsettled.2

/-- Where the shell is confirmed only once no other probe is unanswered, the startup commands run one
after another, each to its end. -/
theorem startup_in_turn (profile : SerialProfile) (deviceName loginUser : String) (password : Bytes)
    (token : ℕ) (now : ℤ) (events : List ConsoleEvent) (hshown : Throughout Shown
      (start (initial profile deviceName loginUser password token now)) events)
    (hsettled : Throughout Settled (start (initial profile deviceName loginUser password token now)) events) :
    ((start (initial profile deviceName loginUser password token now)).run events).InTurn := by
  have hstart : Ordered profile (start (initial profile deviceName loginUser password token now)) :=
    ⟨rfl,Or.inl rfl,⟨Nat.zero_le _,Nat.zero_le _⟩,Nat.zero_le _,rfl⟩
  obtain ⟨hprofile,-,hindex,-,hstep⟩ := run_ordered hstart hshown hsettled
  refine ⟨hindex.1,?_⟩
  intro hready
  rw [hready] at hstep
  rw [hprofile]
  exact hstep.2

/-- Two commands that quieten a console. -/
def quietProfile : SerialProfile := ⟨none,none,5000,4,["dmesg -n 1","stty -echo"],none⟩

def quietMachine : SerialLoginMachine := initial quietProfile "ttyUSB0" "root" [] 7 0

/-- The device answers a probe before the next is sent. -/
def answeredRun : List ConsoleEvent :=
  [.ticks 0,.ticks 5000,.executes,.prints (ascii "echo LFTL-7\r\n"),.executes,.delivers 32 5010,.executes,
    .delivers 32 5020]

theorem startup_in_turn_answered : ((start quietMachine).run answeredRun).machine.startupIndex=2 ∧
    ((start quietMachine).run answeredRun).InTurn :=
  ⟨by decide,startup_in_turn quietProfile "ttyUSB0" "root" [] 7 0 answeredRun (by decide) (by decide)⟩

/-- The device is slow, and a second probe is sent. -/
def probedTwice : List ConsoleEvent :=
  [.ticks 0,.ticks 5000,.ticks 10000,.ticks 15000,.executes,.prints (ascii "echo LFTL-7\r\n"),.executes,
    .delivers 32 15010,
   .executes,.prints (ascii "echo LFTL-7\r\n"),.executes,.delivers 32 15020]

theorem startup_out_of_turn : ¬∀events,Throughout Shown (start quietMachine) events →
    ((start quietMachine).run events).InTurn := by
  intro h
  have hshown : Throughout Shown (start quietMachine) probedTwice := by decide
  exact absurd (h probedTwice hshown).1 (by decide)

end SerialConsole

end Loftail
