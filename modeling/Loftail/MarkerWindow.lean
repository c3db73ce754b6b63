import Loftail.SerialLoginBounds
import Loftail.SerialLoginSafety

/-! # A marker found in the sliding window

The window is cut at its front at any byte, and what it ends with may not be a whole line yet. -/
namespace Loftail
open LineSearch SerialLoginMachine

/-! ## Lines of a part of a text -/

section Lines
variable {α : Type*} [DecidableEq α] {sep : α}

/-- The lines that a separator ends. -/
def endedLines (sep : α) (text : List α) : List (List α) := (text.splitOn sep).dropLast

/-- What no separator ends yet. -/
def unendedLine (sep : α) (text : List α) : List α := (text.splitOn sep).getLastD []

/-- The line that a text begins with. -/
def frontLine (sep : α) (text : List α) : List α := (text.splitOn sep).headD []

private theorem splitOn_append_unbroken {line : List α} (hline : sep∉line) (text : List α) :
    (line++text).splitOn sep=(text.splitOn sep).modifyHead (line++·) := by
  induction text using line_induction sep with
  | hlast last hlast =>
    have hboth : sep∉line++last := by simp [hline,hlast]
    rw [List.splitOn_eq_singleton hboth,List.splitOn_eq_singleton hlast]
    rfl
  | hline first text hfirst _ =>
    have hboth : sep∉line++first := by simp [hline,hfirst]
    rw [← List.append_assoc,List.splitOn_append_cons_self_of_not_mem hboth,
      List.splitOn_append_cons_self_of_not_mem hfirst]
    rfl

/-- The lines of a text are those of its first part, and those of the rest, the first of which goes on
what the first part ends with. -/
theorem splitOn_append (before text : List α) :
    (before++text).splitOn sep=endedLines sep before++(text.splitOn sep).modifyHead
    (unendedLine sep before++·) := by
  unfold endedLines unendedLine
  induction before using line_induction sep with
  | hlast last hlast =>
    rw [List.splitOn_eq_singleton hlast]
    exact splitOn_append_unbroken hlast text
  | hline first before hfirst ih =>
    rw [List.append_assoc,List.cons_append,List.splitOn_append_cons_self_of_not_mem hfirst,
      List.splitOn_append_cons_self_of_not_mem hfirst,ih]
    have hne : before.splitOn sep≠[] := List.splitOn_ne_nil _ _
    cases hb : before.splitOn sep with
    | nil => exact absurd hb hne
    | cons l ls => rfl

/-- A line of the rest is one of the whole text, unless its front is cut or no separator ends it. -/
theorem ended_of_part {before text line : List α} (hline : line∈text.splitOn sep)
    (hfront : unendedLine sep before=[] ∨ line≠frontLine sep text) (hback : line≠unendedLine sep text) :
    line∈endedLines sep (before++text) := by
  unfold endedLines
  rw [splitOn_append]
  unfold frontLine at hfront
  unfold unendedLine at hback
  cases hs : text.splitOn sep with
  | nil =>
    rw [hs] at hline
    cases hline
  | cons first rest =>
    rw [hs] at hline hfront hback
    cases rest with
    | nil => exact absurd (List.mem_singleton.mp hline) hback
    | cons next rest =>
      rw [List.modifyHead_cons,List.dropLast_append_of_ne_nil (List.cons_ne_nil _ _),
        List.dropLast_cons_of_ne_nil (List.cons_ne_nil _ _)]
      apply List.mem_append_right
      obtain rfl | hrest := List.mem_cons.mp hline
      · obtain hbegins | hcut := hfront
        · rw [hbegins]
          exact List.mem_cons_self
        · exact absurd rfl hcut
      · apply List.mem_cons_of_mem
        exact List.mem_dropLast_of_mem_of_ne_getLastD (d:=first) hrest hback

end Lines

/-- A line that was ended, and whose entire content is the marker. -/
def hasEndedMarkerLine (marker text : Bytes) : Bool := (endedLines newline text).any fun line =>
    trimBlanks line=marker

/-- Neither a front line that is cut nor a line that is not ended shows the marker. -/
structure Plain (marker before window : Bytes) : Prop where
  front : unendedLine newline before=[] ∨ trimBlanks (frontLine newline window)≠marker
  back : trimBlanks (unendedLine newline window)≠marker

private theorem frontLine_mem (text : Bytes) : frontLine newline text∈text.splitOn newline := by
  unfold frontLine
  cases hs : text.splitOn newline with
  | nil => exact absurd hs (List.splitOn_ne_nil _ _)
  | cons line lines => exact List.mem_cons_self

private theorem unendedLine_mem (text : Bytes) : unendedLine newline text∈text.splitOn newline := by
  unfold unendedLine
  have hne : text.splitOn newline≠[] := List.splitOn_ne_nil _ _
  rw [List.getLastD_eq_getLast?,List.getLast?_eq_some_getLast hne]
  exact List.getLast_mem hne

theorem hasMarkerLine_iff {marker text : Bytes} :
    hasMarkerLine marker text=true↔∃line∈text.splitOn newline,trimBlanks line=marker := by
  unfold hasMarkerLine
  simp

private theorem hasEndedMarkerLine_iff {marker text : Bytes} :
    hasEndedMarkerLine marker text=true↔∃line∈endedLines newline text,trimBlanks line=marker := by
  unfold hasEndedMarkerLine
  simp

/-- A marker in a plain window is one in the text that the window is the end of. -/
theorem Plain.ended {marker before window : Bytes} (h : Plain marker before window)
    (hfound : hasMarkerLine marker window=true) :
    hasEndedMarkerLine marker (before++window)=true := by
  obtain ⟨line,hline,hmarker⟩ := hasMarkerLine_iff.mp hfound
  apply hasEndedMarkerLine_iff.mpr
  refine ⟨line,ended_of_part hline ?_ ?_,hmarker⟩
  · exact h.front.imp_right fun hcut heq => hcut (heq ▸ hmarker)
  · exact fun heq => h.back (heq ▸ hmarker)

/-- Where the window is not plain the marker is found, whatever was received. -/
theorem found_of_not_plain {marker before window : Bytes} (h : ¬Plain marker before window) :
    hasMarkerLine marker window=true := by
  apply hasMarkerLine_iff.mpr
  by_cases hback : trimBlanks (unendedLine newline window)=marker
  · exact ⟨_,unendedLine_mem window,hback⟩
  · by_cases hfront : trimBlanks (frontLine newline window)=marker
    · exact ⟨_,frontLine_mem window,hfront⟩
    · exact absurd ⟨.inr hfront,hback⟩ h

/-! ## What was received in a step -/

/-- A conversation, with what was received since the step was entered. -/
structure StepRun where
  machine : SerialLoginMachine
  received : Bytes

namespace StepRun

/-- A step is entered where a line is written or the conversation is done. -/
def after (r : StepRun) (event : LoginEvent) : StepRun :=
  let x := r.machine.turn event
  let entered := x.2.kind=.write ∨ x.2.kind=.done
  match event with
  | .reset _ => ⟨x.1,[]⟩
  | .feed arrived _ => ⟨x.1,if entered then [] else r.received++arrived⟩
  | .tick _ => ⟨x.1,if entered then [] else r.received⟩

def run (r : StepRun) (events : List LoginEvent) : StepRun := events.foldl after r

def start (m : SerialLoginMachine) : StepRun := ⟨m,[]⟩

/-- The window is the end of what was received. -/
def Windowed (r : StepRun) : Prop := r.machine.window<:+r.received

theorem receive_suffix {m : SerialLoginMachine} {received : Bytes} (h : m.window<:+received) (arrived : Bytes) :
    (m.receive arrived).window<:+received++arrived := by
  obtain ⟨before,rfl⟩ := h
  have hkept : (m.receive arrived).window<:+m.window++arrived := by
    change lastWindow (m.window++arrived)<:+m.window++arrived
    rw [lastWindow_eq]
    exact List.drop_suffix _ _
  exact hkept.trans ⟨before,(List.append_assoc ..).symm⟩

private theorem after_windowed {r : StepRun} (h : r.Windowed) (event : LoginEvent) : (r.after event).Windowed := by
  have ht := turn_turns (m:=r.machine) event
  unfold Windowed after
  generalize r.machine.turn event=x at ht
  cases ht with
  | reset | rebooted | nudges | renudges | probes | user | userAgain | password => exact List.nil_suffix
  | heard | refused => exact receive_suffix h _
  | waits | waited | gaveUp => exact h
  | @answered arrived now _ _ _ =>
    obtain ⟨-,hnext⟩ | ⟨command,-,hnext⟩ := runNextStartupCommand_cases (r.machine.receive arrived).noteProgress now
    · rw [hnext]
      exact List.nil_suffix
    · rw [hnext]
      exact List.nil_suffix

private theorem run_windowed {r : StepRun} (h : r.Windowed) (events : List LoginEvent) :
    (r.run events).Windowed := by
  induction events generalizing r with
  | nil => exact h
  | cons event events ih => exact ih (after_windowed h event)

/-- The window once these bytes have arrived. -/
def window (r : StepRun) (arrived : Bytes) : Bytes := (r.machine.receive arrived).window

/-- What was received of a step and is no longer in the window. -/
def dropped (r : StepRun) (arrived : Bytes) : Bytes :=
  (r.received++arrived).take ((r.received++arrived).length-(r.window arrived).length)

private theorem Windowed.dropped_append {r : StepRun} (h : r.Windowed) (arrived : Bytes) :
    r.dropped arrived++r.window arrived=r.received++arrived := by
  obtain ⟨before,hbefore⟩ := receive_suffix h arrived
  have hlen : (r.received++arrived).length-(r.window arrived).length=before.length := by
    rw [← hbefore,List.length_append]
    exact Nat.add_sub_cancel ..
  unfold dropped
  rw [hlen,← hbefore,List.take_left]
  rfl

/-- The marker is looked for in what has arrived, and found. -/
def Finds (r : StepRun) (arrived : Bytes) : Prop :=
  (r.machine.step=.confirmShell ∨ r.machine.step=.runStartup) ∧
    (r.machine.receive arrived).windowMatches r.machine.profile.rebootRe=false ∧
    (r.machine.receive arrived).windowHasMarker=true

/-- What this step of the run receives shows the marker in no line that is cut or not ended. -/
def PlainFeed (r : StepRun) (arrived : Bytes) : Prop := Plain r.machine.marker (r.dropped arrived)
    (r.window arrived)

end StepRun

/-- Where what arrives is plain, a marker found was received in a line of its own; where it is not, the marker
is found whether it was or not. -/
theorem marker_received (profile : SerialProfile) (deviceName loginUser : String) (password : Bytes)
    (token : ℕ) (now : ℤ) (events : List LoginEvent) (arrived : Bytes) :
    let r := (StepRun.start (initial profile deviceName loginUser password token now)).run events
    (r.PlainFeed arrived → r.Finds arrived → hasEndedMarkerLine r.machine.marker (r.received++arrived)=true) ∧
      (r.machine.step=.confirmShell ∨ r.machine.step=.runStartup →
        (r.machine.receive arrived).windowMatches r.machine.profile.rebootRe=false → ¬r.PlainFeed arrived →
          r.Finds arrived) := by
  intro r
  have hbegan : (StepRun.start (initial profile deviceName loginUser password token now)).Windowed :=
    List.nil_suffix
  have hwindowed : r.Windowed := StepRun.run_windowed hbegan events
  constructor
  · intro hplain hfinds
    rw [← hwindowed.dropped_append arrived]
    exact hplain.ended hfinds.2.2
  · intro hstep hlive hplain
    exact ⟨hstep,hlive,found_of_not_plain hplain⟩

/-- The shell's echo, and its answer on a line of its own. -/
theorem marker_received_answer :
    hasEndedMarkerLine (ascii "LFTL-0") ([]++ascii "echo LFTL-0\r\nLFTL-0\r\n# ")=true :=
  (marker_received plainProfile "ttyUSB0" "root" [] 0 0 [.tick 0,.tick 5000]
    (ascii "echo LFTL-0\r\nLFTL-0\r\n# ")).1
    ⟨.inl rfl,by decide⟩ ⟨.inl rfl,by decide,by decide⟩

/-- The echo of the probe, and output without a newline that pushes the front of the echo out of the window. -/
def burst : Bytes := ascii "echo LFTL-0\n"++List.replicate 4089 0x78

theorem burst_eq : burst=ascii "echo LFTL-0"++newline::List.replicate 4089 0x78 := by
  have hany : ∀rest : Bytes,ascii "echo LFTL-0\n"++rest=ascii "echo LFTL-0"++newline::rest := fun _ => rfl
  exact hany _

private theorem burst_window : lastWindow burst=ascii "LFTL-0"++newline::List.replicate 4089 0x78 := by
  have hdrop : ∀rest : Bytes,(ascii "echo LFTL-0"++newline::rest).drop 5=ascii "LFTL-0"++newline::rest :=
    fun _ => rfl
  have hlen : burst.length-kWindowBytes=5 := by
    rw [burst_eq,List.length_append,List.length_cons,List.length_replicate]
    decide
  rw [lastWindow_eq,hlen,burst_eq]
  exact hdrop _

/-- The echo alone, its front cut, is taken for the marker, and the board is declared ready. -/
theorem marker_not_received :
    let r := (StepRun.start (initial plainProfile "ttyUSB0" "root" [] 0 0)).run [.tick 0,.tick 5000]
    r.Finds burst ∧ hasEndedMarkerLine r.machine.marker (r.received++burst)=false ∧
      (r.machine.feed burst 5001).1.step=.ready := by
  intro r
  have hreceive : ∀text,(r.machine.receive text).window=lastWindow text := fun _ => rfl
  have hwindow : (r.machine.receive burst).window=ascii "LFTL-0"++newline::List.replicate 4089 0x78 := by
    rw [hreceive,burst_window]
  have hfound : (r.machine.receive burst).windowHasMarker=true := by
    apply hasMarkerLine_iff.mpr
    rw [hwindow,List.splitOn_append_cons_self_of_not_mem (by decide)]
    exact ⟨_,List.mem_cons_self,by decide⟩
  refine ⟨⟨.inl rfl,rfl,hfound⟩,?_,?_⟩
  · have hnone : ∀text : Bytes,r.received++text=text := fun _ => rfl
    have hrest : newline∉List.replicate 4089 (0x78 : Byte) := fun h =>
      absurd (List.eq_of_mem_replicate h) (by decide)
    unfold hasEndedMarkerLine endedLines
    rw [hnone,burst_eq,List.splitOn_append_cons_self_of_not_mem (by decide),List.splitOn_eq_singleton hrest]
    decide
  · have hanswer : ∀text,r.machine.feed text 5001=(r.machine.receive text).answer 5001 := fun _ => rfl
    have hstep : ∀text,(r.machine.receive text).step=.confirmShell := fun _ => rfl
    have hdone : ∀text,((r.machine.receive text).noteProgress.runNextStartupCommand 5001).1.step=.ready :=
      fun _ => rfl
    rw [hanswer]
    unfold answer
    rw [hstep]
    dsimp only
    rw [if_pos hfound]
    exact hdone burst

end Loftail
