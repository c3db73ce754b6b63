import Mathlib.Data.Int.Notation
import Mathlib.Data.List.Basic

/-! # What the attempts of a tail have come to

A tail tries to sign in, unattended unless somebody has asked for it. What its history allows: whether the next
attempt may ask a person, and whether there is one. -/
namespace Loftail

/-- `SshSession::Failure`. -/
inductive Failure
  | none | unreachable | noSuchFile | needsPerson | refused
  deriving DecidableEq

/-- The window in which a tail that has signed in before goes on trying. -/
structure ReconnectGrace where
  graceMs : ℤ
  signedInOnce : Bool
  waiting : Bool
  firstFailureMs : ℤ
  deriving DecidableEq

namespace ReconnectGrace

/-- `kDefaultGraceMs`. -/
def kDefaultGraceMs : ℤ := 300000

def initial : ReconnectGrace := ⟨kDefaultGraceMs,false,false,0⟩

def signedIn (g : ReconnectGrace) : ReconnectGrace :=
    {g with signedInOnce := true,waiting := false,firstFailureMs := 0}

def keepTrying (g : ReconnectGrace) (nowMs : ℤ) : ReconnectGrace×Bool :=
  if g.signedInOnce=false then (g,false)
  else if g.waiting=false then ({g with waiting := true,firstFailureMs := nowMs},true)
  else (g,decide (nowMs-g.firstFailureMs < g.graceMs))

end ReconnectGrace

/-- What a tail's history is made of: an attempt was asked for, with or without somebody to ask in it; one
began; one ended. -/
inductive TailEntry
  | asked (attended : Bool)
  | began (mayPrompt : Bool)
  | ended (failure : Failure) (nowMs : ℤ)
  deriving DecidableEq

/-- The newest entry first. -/
abbrev TailHistory := List TailEntry

namespace TailHistory

/-- Somebody who can be asked has asked since the last attempt began. -/
def askedSince : TailHistory→Bool
  | [] => false
  | .asked attended::_ => attended
  | .began _::_ => false
  | .ended _ _::log => askedSince log

def signedInEver : TailHistory→Bool
  | [] => false
  | .ended .none _::_ => true
  | _::log => signedInEver log

/-- When an attempt first needed a person, since the last that signed in. -/
def outage : TailHistory→Option ℤ
  | [] => none
  | .ended .none _::_ => none
  | .ended .needsPerson nowMs::log => some ((outage log).getD nowMs)
  | _::log => outage log

/-- A failure that another attempt does not mend: a refusal, or somebody missing at a place that was never signed in
to, or where somebody has been missing for the whole of the grace. -/
def terminal (graceMs : ℤ) (log : TailHistory) (failure : Failure) (nowMs : ℤ) : Bool :=
  match failure with
  | .refused => true
  | .needsPerson => !log.signedInEver || log.outage.any fun first => decide (graceMs≤nowMs-first)
  | _ => false

/-- The last attempt somebody asked for, or one after it, has failed for good. -/
def gaveUp (graceMs : ℤ) : TailHistory→Bool
  | [] => false
  | .asked _::_ => false
  | .began _::log => gaveUp graceMs log
  | .ended failure nowMs::log => terminal graceMs log failure nowMs || gaveUp graceMs log

/-- Each attempt may ask a person exactly where somebody has asked for it since the one before, and none begins
after one that has failed for good. -/
def Permitted (graceMs : ℤ) (log : TailHistory) : Prop :=
  ∀later mayPrompt earlier,log=later++.began mayPrompt::earlier→
    mayPrompt=askedSince earlier ∧ gaveUp graceMs earlier=false

section
variable {graceMs nowMs : ℤ} {log : TailHistory} {entry : TailEntry} {mayPrompt : Bool}

private theorem permitted_nil : Permitted graceMs [] := by
  intro later mayPrompt earlier h
  simp at h

theorem Permitted.cons (h : Permitted graceMs log) (hentry : ∀mayPrompt,entry≠.began mayPrompt) :
    Permitted graceMs (entry::log) := by
  intro later mayPrompt earlier hlog
  cases later with
  | nil => exact absurd (List.cons.inj hlog).1 (hentry mayPrompt)
  | cons e later => exact h later mayPrompt earlier (List.cons.inj hlog).2

theorem Permitted.began (h : Permitted graceMs log) (hgone : gaveUp graceMs log=false) :
    Permitted graceMs (.began (askedSince log)::log) := by
  intro later mayPrompt earlier hlog
  cases later with
  | nil =>
    obtain ⟨hbegan,rfl⟩ := List.cons.inj hlog
    exact ⟨(TailEntry.began.inj hbegan).symm,hgone⟩
  | cons e later => exact h later mayPrompt earlier (List.cons.inj hlog).2

end

/-- The grace as the history has it. -/
structure Tells (log : TailHistory) (g : ReconnectGrace) : Prop where
  signedIn : g.signedInOnce=log.signedInEver
  waiting : g.signedInOnce=true → g.waiting=log.outage.isSome
  first : g.signedInOnce=true→∀first∈log.outage,g.firstFailureMs=first

namespace Tells
variable {log : TailHistory} {g : ReconnectGrace} {nowMs : ℤ} {failure : Failure}

theorem initial : Tells [] .initial := by
  refine ⟨rfl,?_,?_⟩ <;> simp [ReconnectGrace.initial]

theorem asked (h : Tells log g) (attended : Bool) : Tells (.asked attended::log) g := ⟨h.1,h.2,h.3⟩

theorem began (h : Tells log g) (mayPrompt : Bool) : Tells (.began mayPrompt::log) g := ⟨h.1,h.2,h.3⟩

private theorem signs_in (log : TailHistory) (g : ReconnectGrace) (nowMs : ℤ) : Tells
    (.ended .none nowMs::log) g.signedIn := by
  refine ⟨rfl,fun _ => rfl,fun _ first hmem => ?_⟩
  rw [outage] at hmem
  cases hmem

/-- A failure that needs nobody leaves the window as it is. -/
theorem ended (h : Tells log g) (hnone : failure≠.none) (hperson : failure≠.needsPerson) :
    Tells (.ended failure nowMs::log) g := by
  cases failure with
  | none => exact absurd rfl hnone
  | needsPerson => exact absurd rfl hperson
  | unreachable => exact ⟨h.1,h.2,h.3⟩
  | noSuchFile => exact ⟨h.1,h.2,h.3⟩
  | refused => exact ⟨h.1,h.2,h.3⟩

/-- The window tells whether somebody's absence is for good, and goes on from the first. -/
theorem needsPerson (h : Tells log g) : (g.keepTrying nowMs).2=!terminal g.graceMs log .needsPerson nowMs ∧
    Tells (.ended .needsPerson nowMs::log) (g.keepTrying nowMs).1 ∧ (g.keepTrying nowMs).1.graceMs=g.graceMs := by
  rw [ReconnectGrace.keepTrying,terminal,← h.signedIn]
  cases hin : g.signedInOnce with
  | false =>
    rw [if_pos rfl]
    refine ⟨rfl,⟨h.signedIn,?_,?_⟩,rfl⟩
    · simp [hin]
    · simp [hin]
  | true =>
    have hfirst := h.first hin
    rw [if_neg (by simp)]
    cases hout : log.outage with
    | none =>
      have hwaiting : g.waiting=false := by
        rw [h.waiting hin,hout]
        rfl
      rw [if_pos hwaiting]
      refine ⟨rfl,⟨hin.symm.trans h.signedIn,fun _ => rfl,?_⟩,rfl⟩
      intro _ first hmem
      rw [outage,hout] at hmem
      exact Option.some_inj.mp hmem
    | some first =>
      have hwaiting : g.waiting=true := by
        rw [h.waiting hin,hout]
        rfl
      rw [if_neg (by simp [hwaiting]),hfirst first hout]
      refine ⟨?_,⟨h.signedIn,fun _ => ?_,?_⟩,rfl⟩
      · simp [← decide_not]
      · rw [outage,hout]
        exact hwaiting
      · intro _ later hmem
        rw [outage,hout] at hmem
        rw [hfirst first hout]
        exact Option.some_inj.mp hmem

end Tells

/-- What a loop keeps of its history: the grace, whether the next attempt may ask a person, and that there is to be
none. No code reads `log`. -/
structure Latch where
  grace : ReconnectGrace
  wantsPrompter : Bool
  refused : Bool
  log : TailHistory

namespace Latch

/-- Before any attempt, with or without somebody to ask in the first. -/
def initial (attended : Bool) : Latch := ⟨.initial,attended,false,[.asked attended]⟩

def ask (l : Latch) (attended : Bool) : Latch :=
  {l with refused := false,wantsPrompter := attended,log := .asked attended::l.log}

/-- An attempt begins, and what it was allowed to ask is used up. -/
def begin_ (l : Latch) : Latch := {l with wantsPrompter := false,log := .began l.wantsPrompter::l.log}

def signIn (l : Latch) (nowMs : ℤ) : Latch := {l with grace := l.grace.signedIn,log := .ended .none nowMs::l.log}

/-- A failure that another attempt may mend. -/
def fail (l : Latch) (failure : Failure) (nowMs : ℤ) : Latch := {l with log := .ended failure nowMs::l.log}

def miss (l : Latch) (nowMs : ℤ) : Latch :=
  {l with grace := (l.grace.keepTrying nowMs).1,refused := !(l.grace.keepTrying nowMs).2 || l.refused
          log := .ended .needsPerson nowMs::l.log}

def refuse (l : Latch) (nowMs : ℤ) : Latch := {l with refused := true,log := .ended .refused nowMs::l.log}

/-- All of it is as the history tells. -/
structure Kept (l : Latch) : Prop where
  graceMs : l.grace.graceMs=ReconnectGrace.kDefaultGraceMs
  prompter : l.wantsPrompter=askedSince l.log
  refused : l.refused=gaveUp ReconnectGrace.kDefaultGraceMs l.log
  tells : Tells l.log l.grace
  permitted : Permitted ReconnectGrace.kDefaultGraceMs l.log

section
variable {l : Latch} {nowMs : ℤ} {failure : Failure}

theorem kept_initial (attended : Bool) : (initial attended).Kept :=
  ⟨rfl,rfl,rfl,Tells.initial.asked attended,permitted_nil.cons (by simp)⟩

theorem Kept.ask (h : l.Kept) (attended : Bool) : (l.ask attended).Kept :=
  ⟨h.graceMs,rfl,rfl,h.tells.asked attended,h.permitted.cons (by simp)⟩

theorem Kept.begin_ (h : l.Kept) (hfree : l.refused=false) : l.begin_.Kept where
  graceMs := h.graceMs
  prompter := rfl
  refused := h.refused
  tells := h.tells.began _
  permitted := by
    rw [Latch.begin_,h.prompter]
    exact h.permitted.began (h.refused.symm.trans hfree)

theorem Kept.signIn (h : l.Kept) : (l.signIn nowMs).Kept :=
  ⟨h.graceMs,h.prompter,h.refused,Tells.signs_in l.log l.grace nowMs,h.permitted.cons (by simp)⟩

theorem Kept.fail (h : l.Kept) (hfailure : failure=.unreachable ∨ failure=.noSuchFile) :
    (l.fail failure nowMs).Kept := by
  have hpermitted : Permitted ReconnectGrace.kDefaultGraceMs (.ended failure nowMs::l.log) :=
    h.permitted.cons (by simp)
  rcases hfailure with rfl | rfl
  · exact ⟨h.graceMs,h.prompter,h.refused,h.tells.ended (by simp) (by simp),hpermitted⟩
  · exact ⟨h.graceMs,h.prompter,h.refused,h.tells.ended (by simp) (by simp),hpermitted⟩

theorem Kept.refuse (h : l.Kept) : (l.refuse nowMs).Kept :=
  ⟨h.graceMs,h.prompter,rfl,h.tells.ended (by simp) (by simp),h.permitted.cons (by simp)⟩

theorem Kept.miss (h : l.Kept) : (l.miss nowMs).Kept := by
  obtain ⟨hfinal,htells,hgrace⟩ := @Tells.needsPerson _ _ nowMs h.tells
  refine ⟨hgrace.trans h.graceMs,h.prompter,?_,htells,h.permitted.cons (by simp)⟩
  show (!(l.grace.keepTrying nowMs).2 || l.refused)=gaveUp ReconnectGrace.kDefaultGraceMs
    (.ended .needsPerson nowMs::l.log)
  rw [gaveUp,hfinal,Bool.not_not,h.graceMs,h.refused]

end

end Latch

end TailHistory

end Loftail
