import Mathlib.Data.List.Basic
import Mathlib.Data.Nat.Notation
import Loftail.Interleaving

/-! # The gate through which threads have work done on the application thread

What threads do is cut at the gate's mutex: each locked section is one step, and so is each
posting of a drain. Work runs between two steps, and a thread may call again from inside it. -/
namespace Loftail

/-- The application's thread, where there is an application, and the one the pump belongs to. -/
structure GuiThreads where
  app : Option ℕ
  pump : ℕ

/-- A call: whether there is work, its three flags, how often the work was run, and what the call
has returned. -/
structure GuiCall where
  work : Bool
  done : Bool
  abandoned : Bool
  started : Bool
  ran : ℕ
  returned : Option Bool
  deriving DecidableEq

def GuiCall.new (work : Bool) : GuiCall := ⟨work,false,false,false,0,none⟩

/-- Where a thread is: past the cancel check, in work run inline, about to re-arm the pump on the
way out of it, about to post the drain of what it queued, waiting; in a drain that has taken a
call, to run or not, or about to re-arm after it. -/
inductive GuiPhase
  | checked (call : ℕ)
  | inline (call : ℕ) (outermost : Bool)
  | leaving (call : ℕ)
  | queued (call : ℕ)
  | waiting (call : ℕ)
  | draining (call : ℕ) (run : Bool)
  | rearming
  | ended
  deriving DecidableEq

structure GuiActivity where
  thread : ℕ
  phase : GuiPhase
  deriving DecidableEq

/-- The calls made so far; what the mutex guards; the drains posted; what threads are at, the
newest last. -/
structure GuiCallGate where
  calls : List GuiCall
  queue : List ℕ
  cancelled : Bool
  running : Bool
  owner : Option ℕ
  depth : ℕ
  pending : ℕ
  activities : List GuiActivity
  deriving DecidableEq

namespace GuiPhase

/-- The call whose work runs. -/
def runs : GuiPhase→Option ℕ
  | .inline c _ => some c
  | .draining c true => some c
  | _ => none

/-- Work that was not entered from inside other work. -/
def outermost : GuiPhase→Bool
  | .inline _ o => o
  | .draining _ run => run
  | _ => false

/-- A drain is under way, or about to be posted. -/
def posts : GuiPhase→Bool
  | .leaving _ | .queued _ | .rearming | .draining _ false => true
  | _ => false

end GuiPhase

namespace GuiCallGate

def empty : GuiCallGate := ⟨[],[],false,false,none,0,0,[]⟩

inductive Action
  | call (thread : ℕ) (work : Bool)
  | proceed (activity : ℕ)
  | deliver
  | cancel
  | reopen

/-- Whether a thread executes work, or nothing of the gate's. -/
def isFree (g : GuiCallGate) (thread : ℕ) : Bool :=
  match (g.activities.filter fun a => a.thread=thread && a.phase≠.ended).getLast? with
  | none => true
  | some a => a.phase.runs.isSome

/-- An activity with no newer one of its thread. -/
def top (g : GuiCallGate) (k : ℕ) : Option GuiActivity :=
  if (g.activities.drop (k+1)).all fun a => a.phase=.ended || g.activities[k]?.all fun b => b.thread≠a.thread then
    g.activities[k]?
  else none

def setPhase (g : GuiCallGate) (k thread : ℕ) (phase : GuiPhase) : GuiCallGate :=
  {g with activities := g.activities.set k ⟨thread,phase⟩}

def startPhase (g : GuiCallGate) (thread : ℕ) (phase : GuiPhase) : GuiCallGate :=
  {g with activities := g.activities++[⟨thread,phase⟩]}

def setCall (g : GuiCallGate) (c : ℕ) (x : GuiCall) : GuiCallGate := {g with calls := g.calls.set c x}

def enterLocked (g : GuiCallGate) (thread : ℕ) : GuiCallGate :=
  {g with running := true,owner := some thread,depth := g.depth+1}

def leaveLocked (g : GuiCallGate) : GuiCallGate :=
  if 1 < g.depth then {g with depth := g.depth-1} else {g with running := false,owner := none,depth := 0}

def giveBack (g : GuiCallGate) (k thread c : ℕ) (x : GuiCall) (answer : Bool) : GuiCallGate :=
  (g.setPhase k thread .ended).setCall c {x with returned := some answer}

/-- Past the cancel check: inline where this is the application thread or there is none, else
queued. Work that is empty throws inline, which no run goes past. -/
def submit (th : GuiThreads) (g : GuiCallGate) (k thread c : ℕ) (x : GuiCall) : Option GuiCallGate :=
  if th.app=none ∨ th.app=some thread then
    if g.running ∧ g.owner≠some thread then some (g.giveBack k thread c x false)
    else if x.work then
      some (((g.enterLocked thread).setPhase k thread (.inline c (decide (g.depth=0)))).setCall c
        {x with ran := x.ran+1})
    else none
  else if th.app≠some th.pump then some (g.giveBack k thread c x false)
  else some {g.setPhase k thread (.queued c) with queue := g.queue++[c]}

/-- Inline work has returned. -/
def leave (g : GuiCallGate) (k thread c : ℕ) (x : GuiCall) : GuiCallGate :=
  let left := g.leaveLocked
  if left.depth=0 ∧ left.queue≠[] then left.setPhase k thread (.leaving c) else left.giveBack k thread c x true

/-- What ends a wait: the call is done, or it was cancelled before it started. -/
def wake (g : GuiCallGate) (k thread c : ℕ) (x : GuiCall) : Option GuiCallGate :=
  if x.done then some (g.giveBack k thread c x (!x.abandoned))
  else if g.cancelled && !x.started then some (g.giveBack k thread c {x with abandoned := true} false)
  else none

/-- A posted drain is delivered: it takes a call, unless work is running. -/
def drain (g : GuiCallGate) (pump : ℕ) : Option GuiCallGate :=
  if g.running then some g else
    match g.queue with
    | [] => some g
    | c::rest =>
      match g.calls[c]? with
      | none => none
      | some x =>
        if !x.abandoned && x.work then
          some (({g with queue := rest}.setCall c {x with started := true,ran := x.ran+1}).enterLocked pump
            |>.startPhase pump (.draining c true))
        else some ({g with queue := rest}.startPhase pump (.draining c false))

/-- A drain is through with the call it took. -/
def drained (g : GuiCallGate) (k thread c : ℕ) (x : GuiCall) (run : Bool) : GuiCallGate :=
  let left := (if run then g.leaveLocked else g).setCall c {x with done := true}
  left.setPhase k thread (if left.queue=[] then .ended else .rearming)

/-- A thread goes on with what it is at. -/
def proceed (th : GuiThreads) (g : GuiCallGate) (k : ℕ) (a : GuiActivity) : Option GuiCallGate :=
  match a.phase with
  | .checked c => g.calls[c]?.bind fun x => g.submit th k a.thread c x
  | .inline c _ => g.calls[c]?.map fun x => g.leave k a.thread c x
  | .leaving c => g.calls[c]?.map fun x => {g.giveBack k a.thread c x true with pending := g.pending+1}
  | .queued c => some {g.setPhase k a.thread (.waiting c) with pending := g.pending+1}
  | .waiting c => g.calls[c]?.bind fun x => g.wake k a.thread c x
  | .draining c run => g.calls[c]?.map fun x => g.drained k a.thread c x run
  | .rearming => some {g.setPhase k a.thread .ended with pending := g.pending+1}
  | .ended => none

def step (th : GuiThreads) (g : GuiCallGate) : Action→Option GuiCallGate
  | .call thread work =>
    if g.isFree thread then
      some (if g.cancelled then {g with calls := g.calls++[{GuiCall.new work with returned := some false}]}
        else {g with calls := g.calls++[GuiCall.new work]}.startPhase thread (.checked g.calls.length))
    else none
  | .proceed k => (g.top k).bind fun a => g.proceed th k a
  | .deliver => if g.isFree th.pump && decide (0 < g.pending) then
    {g with pending := g.pending-1}.drain th.pump else none
  | .cancel =>
    some {g with
      cancelled := true
      calls := g.calls.mapIdx fun c x => if c∈g.queue ∧ x.started=false then {x with abandoned := true} else x}
  | .reopen => some {g with cancelled := false}

end GuiCallGate

end Loftail
