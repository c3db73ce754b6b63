import Mathlib.Algebra.Order.Ring.Int
import Loftail.GuiCallGate

/-! # What holds in every run of the gate -/
namespace Loftail
open Interleaving

namespace GuiPhase

/-- The call an activity is about. -/
def call : GuiPhase→Option ℕ
  | .checked c | .inline c _ | .leaving c | .queued c | .waiting c | .draining c _ => some c
  | .rearming | .ended => none

def isChecked (c : ℕ) (p : GuiPhase) : Bool := p=.checked c

def isInline (c : ℕ) : GuiPhase→Bool
  | .inline d _ | .leaving d => d=c
  | _ => false

/-- Its caller waits for it, or is about to. -/
def isParked (c : ℕ) : GuiPhase→Bool
  | .queued d | .waiting d => d=c
  | _ => false

def isDraining (c : ℕ) (run : Bool) (p : GuiPhase) : Bool := p=.draining c run

end GuiPhase

namespace GuiCallGate

/-- Where a call is: how many activities are at it in each way, and how often it is queued. -/
@[ext] structure Tally where
  checked : ℕ
  inline : ℕ
  parked : ℕ
  queued : ℕ
  run : ℕ
  skip : ℕ

def many (g : GuiCallGate) (q : GuiPhase→Bool) : ℕ := g.activities.countP fun a => q a.phase

def tally (g : GuiCallGate) (c : ℕ) : Tally :=
  ⟨g.many (GuiPhase.isChecked c),g.many (GuiPhase.isInline c),g.many (GuiPhase.isParked c),g.queue.count c,
    g.many (GuiPhase.isDraining c true),g.many (GuiPhase.isDraining c false)⟩

variable {th : GuiThreads} {g g' : GuiCallGate} {k t c d : ℕ} {a : GuiActivity} {p : GuiPhase} {x y : GuiCall}

theorem top_getElem (h : g.top k=some a) : g.activities[k]?=some a := by
  unfold top at h
  split at h
  · exact h
  · cases h

/-- Of the activities of its thread a top one is the newest. -/
theorem top_newest (h : g.top k=some a) {j : ℕ} (hj : k < j) {b : GuiActivity} (hb : g.activities[j]?=some b)
    (ht : b.thread=a.thread) : b.phase=.ended := by
  have hk := top_getElem h
  unfold top at h
  split at h
  · rename_i hall
    have hmem : b∈g.activities.drop (k+1) := by
      apply List.mem_of_getElem? (i:=j-(k+1))
      rw [List.getElem?_drop]
      convert hb using 2
      omega
    have hb' := List.all_eq_true.mp hall b hmem
    simpa [hk,ht] using hb'
  · cases h

theorem many_setPhase (h : g.activities[k]?=some a) (q : GuiPhase→Bool) :
    (g.setPhase k t p).many q+(q a.phase).toNat=g.many q+(q p).toNat := by
  obtain ⟨hk,rfl⟩ := List.getElem?_eq_some_iff.mp h
  have hpos : q g.activities[k].phase=true→0 < g.activities.countP fun a => q a.phase := by
    intro hq
    exact List.countP_pos_iff.mpr ⟨_,List.getElem_mem hk,hq⟩
  simp only [many,setPhase,List.countP_set hk]
  cases hq : q g.activities[k].phase with
  | false => cases q p <;> simp
  | true =>
    have := hpos hq
    cases q p <;> simp <;> omega

theorem many_startPhase (q : GuiPhase→Bool) : (g.startPhase t p).many q=g.many q+(q p).toNat := by
  simp only [many,startPhase,List.countP_append,List.countP_singleton]
  cases q p <;> rfl

/-- The steps of the gate, each with what it found. -/
inductive Moves (th : GuiThreads) (g : GuiCallGate) : GuiCallGate→Prop
  | refused (work : Bool) : Moves th g {g with calls := g.calls++[{GuiCall.new work with returned := some false}]}
  | called (t : ℕ) (work : Bool) :
      Moves th g ({g with calls := g.calls++[GuiCall.new work]}.startPhase t (.checked g.calls.length))
  | entered {k c : ℕ} {a : GuiActivity} {x : GuiCall} (ht : g.top k=some a) (hp : a.phase=.checked c)
      (hx : g.calls[c]?=some x) (hw : x.work=true) (hr : g.running=true → g.owner=some a.thread) :
      Moves th g (((g.enterLocked a.thread).setPhase k a.thread (.inline c (decide (g.depth=0)))).setCall c
        {x with ran := x.ran+1})
  | turnedAway {k c : ℕ} {a : GuiActivity} {x : GuiCall} (ht : g.top k=some a) (hp : a.phase=.checked c)
      (hx : g.calls[c]?=some x) : Moves th g (g.giveBack k a.thread c x false)
  | queued {k c : ℕ} {a : GuiActivity} {x : GuiCall} (ht : g.top k=some a) (hp : a.phase=.checked c)
      (hx : g.calls[c]?=some x) : Moves th g {g.setPhase k a.thread (.queued c) with queue := g.queue++[c]}
  | left {k c : ℕ} {o : Bool} {a : GuiActivity} {x : GuiCall} (ht : g.top k=some a) (hp : a.phase=.inline c o)
      (hx : g.calls[c]?=some x) : Moves th g (g.leave k a.thread c x)
  | rearmed {k c : ℕ} {a : GuiActivity} {x : GuiCall} (ht : g.top k=some a) (hp : a.phase=.leaving c)
      (hx : g.calls[c]?=some x) : Moves th g {g.giveBack k a.thread c x true with pending := g.pending+1}
  | posted {k c : ℕ} {a : GuiActivity} (ht : g.top k=some a) (hp : a.phase=.queued c) :
      Moves th g {g.setPhase k a.thread (.waiting c) with pending := g.pending+1}
  | answered {k c : ℕ} {a : GuiActivity} {x : GuiCall} (ht : g.top k=some a) (hp : a.phase=.waiting c)
      (hx : g.calls[c]?=some x) (hd : x.done=true) : Moves th g (g.giveBack k a.thread c x (!x.abandoned))
  | gaveUp {k c : ℕ} {a : GuiActivity} {x : GuiCall} (ht : g.top k=some a) (hp : a.phase=.waiting c)
      (hx : g.calls[c]?=some x) (hd : x.done=false) (hs : x.started=false) :
      Moves th g (g.giveBack k a.thread c {x with abandoned := true} false)
  | drained {k c : ℕ} {run : Bool} {a : GuiActivity} {x : GuiCall} (ht : g.top k=some a)
      (hp : a.phase=.draining c run) (hx : g.calls[c]?=some x) : Moves th g (g.drained k a.thread c x run)
  | reposted {k : ℕ} {a : GuiActivity} (ht : g.top k=some a) (hp : a.phase=.rearming) :
      Moves th g {g.setPhase k a.thread .ended with pending := g.pending+1}
  | dropped (h : g.running=true ∨ g.queue=[]) : Moves th g {g with pending := g.pending-1}
  | taken {c : ℕ} {rest : List ℕ} {x : GuiCall} (hr : g.running=false) (hq : g.queue=c::rest)
      (hx : g.calls[c]?=some x) (ha : x.abandoned=false) (hw : x.work=true) :
      Moves th g ((({g with pending := g.pending-1,queue := rest}.setCall c
        {x with started := true,ran := x.ran+1}).enterLocked th.pump).startPhase th.pump (.draining c true))
  | skipped {c : ℕ} {rest : List ℕ} {x : GuiCall} (hr : g.running=false) (hq : g.queue=c::rest)
      (hx : g.calls[c]?=some x) (ha : x.abandoned=true ∨ x.work=false) :
      Moves th g ({g with pending := g.pending-1,queue := rest}.startPhase th.pump (.draining c false))
  | cancelled : Moves th g {g with
      cancelled := true
      calls := g.calls.mapIdx fun c x => if c∈g.queue ∧ x.started=false then {x with abandoned := true} else x}
  | reopened : Moves th g {g with cancelled := false}

private theorem moves_submit (ht : g.top k=some a) (hp : a.phase=.checked c) (hx : g.calls[c]?=some x)
    (h : g.submit th k a.thread c x=some g') : Moves th g g' := by
  unfold submit at h
  split at h
  · split at h
    · obtain rfl := Option.some_inj.mp h
      exact .turnedAway ht hp hx
    · rename_i hbusy
      split at h
      · rename_i hw
        obtain rfl := Option.some_inj.mp h
        exact .entered ht hp hx hw (by simpa using hbusy)
      · cases h
  · split at h
    · obtain rfl := Option.some_inj.mp h
      exact .turnedAway ht hp hx
    · obtain rfl := Option.some_inj.mp h
      exact .queued ht hp hx

private theorem moves_wake (ht : g.top k=some a) (hp : a.phase=.waiting c) (hx : g.calls[c]?=some x)
    (h : g.wake k a.thread c x=some g') : Moves th g g' := by
  unfold wake at h
  split at h
  · rename_i hd
    obtain rfl := Option.some_inj.mp h
    exact .answered ht hp hx hd
  · rename_i hd
    split at h
    · rename_i hs
      obtain rfl := Option.some_inj.mp h
      exact .gaveUp ht hp hx (Bool.eq_false_iff.mpr hd) (by simpa using (Bool.and_eq_true _ _).mp hs |>.2)
    · cases h

private theorem moves_proceed (ht : g.top k=some a) (h : g.proceed th k a=some g') : Moves th g g' := by
  unfold proceed at h
  split at h
  · rename_i hp
    obtain ⟨x,hx,h⟩ := Option.bind_eq_some_iff.mp h
    exact moves_submit ht hp hx h
  · rename_i hp
    obtain ⟨x,hx,rfl⟩ := Option.map_eq_some_iff.mp h
    exact .left ht hp hx
  · rename_i hp
    obtain ⟨x,hx,rfl⟩ := Option.map_eq_some_iff.mp h
    exact .rearmed ht hp hx
  · rename_i hp
    obtain rfl := Option.some_inj.mp h
    exact .posted ht hp
  · rename_i hp
    obtain ⟨x,hx,h⟩ := Option.bind_eq_some_iff.mp h
    exact moves_wake ht hp hx h
  · rename_i hp
    obtain ⟨x,hx,rfl⟩ := Option.map_eq_some_iff.mp h
    exact .drained ht hp hx
  · rename_i hp
    obtain rfl := Option.some_inj.mp h
    exact .reposted ht hp
  · cases h

private theorem moves_drain (h : ({g with pending := g.pending-1} : GuiCallGate).drain th.pump=some g') :
    Moves th g g' := by
  unfold drain at h
  split at h
  · rename_i hr
    obtain rfl := Option.some_inj.mp h
    exact .dropped (Or.inl hr)
  · rename_i hr
    have hidle : g.running=false := Bool.eq_false_iff.mpr hr
    split at h
    · rename_i hq
      obtain rfl := Option.some_inj.mp h
      exact .dropped (Or.inr hq)
    · rename_i c rest hq
      split at h
      · cases h
      · rename_i x hx
        split at h
        · rename_i hrun
          obtain rfl := Option.some_inj.mp h
          simp only [Bool.and_eq_true,Bool.not_eq_true'] at hrun
          exact .taken hidle hq hx hrun.1 hrun.2
        · rename_i hskip
          obtain rfl := Option.some_inj.mp h
          refine .skipped hidle hq hx ?_
          cases ha : x.abandoned <;> cases hw : x.work <;> simp_all

theorem moves_step {m : Action} (h : g.step th m=some g') : Moves th g g' := by
  cases m with
  | call t work =>
    simp only [step] at h
    split at h
    · obtain rfl := Option.some_inj.mp h
      split
      · exact .refused work
      · exact .called t work
    · cases h
  | proceed k =>
    obtain ⟨a,ht,h⟩ := Option.bind_eq_some_iff.mp h
    exact moves_proceed ht h
  | deliver =>
    simp only [step] at h
    split at h
    · exact moves_drain h
    · cases h
  | cancel =>
    obtain rfl := Option.some_inj.mp h
    exact .cancelled
  | reopen =>
    obtain rfl := Option.some_inj.mp h
    exact .reopened

/-! ## One outermost work at a time -/

/-- Work runs on one thread, as deep as it is nested, and all but the first is nested. -/
structure Works (g : GuiCallGate) : Prop where
  depth : g.depth=g.many fun p => p.runs.isSome
  running : g.running=decide (0 < g.depth)
  owner : ∀(i : ℕ) (a : GuiActivity),g.activities[i]?=some a→a.phase.runs.isSome=true → g.owner=some a.thread
  nested : ∀(i j : ℕ) (a b : GuiActivity),i < j → g.activities[i]?=some a → g.activities[j]?=some b→
    a.phase.runs.isSome=true→b.phase.runs.isSome=true→b.phase.outermost=false

theorem outermost_runs (h : p.outermost=true) : p.runs.isSome=true := by
  cases p with
  | inline c o => rfl
  | draining c run =>
    cases run with
    | true => rfl
    | false => cases h
  | _ => cases h

theorem setPhase_getElem? (h : g.activities[k]?=some a) (i : ℕ) :
    (g.setPhase k t p).activities[i]?=if k=i then some ⟨t,p⟩ else g.activities[i]? := by
  rw [setPhase,List.getElem?_set]
  split
  · rename_i hi
    subst hi
    simpa using (List.getElem?_eq_some_iff.mp h).1
  · rfl

theorem startPhase_getElem? {i : ℕ} {b : GuiActivity} (h : (g.startPhase t p).activities[i]?=some b) :
    g.activities[i]?=some b ∨ (i=g.activities.length ∧ b=⟨t,p⟩) := by
  rw [startPhase,List.getElem?_append] at h
  split at h
  · exact Or.inl h
  · rename_i hi
    right
    obtain ⟨hlt,hb⟩ := List.getElem?_eq_some_iff.mp h
    simp only [List.length_cons,List.length_nil] at hlt
    have hz : i-g.activities.length=0 := by omega
    simp only [hz,List.getElem_cons_zero] at hb
    exact ⟨by omega,hb.symm⟩

theorem leaveLocked_activities : g.leaveLocked.activities=g.activities := by
  unfold leaveLocked
  split <;> rfl

namespace Works

/-- Nothing but what the mutex guards beside the calls, and the activities, matters. -/
theorem congr (h : g.Works) (ha : g'.activities=g.activities) (hd : g'.depth=g.depth) (hr : g'.running=g.running)
    (ho : g'.owner=g.owner) : g'.Works where
  depth := by rw [hd,h.depth,many,many,ha]
  running := by rw [hr,hd,h.running]
  owner := by
    rw [ha,ho]
    exact h.owner
  nested := by
    rw [ha]
    exact h.nested

/-- A thread goes on outside any work. -/
theorem setPhase (h : g.Works) (hk : g.activities[k]?=some a) (ha : a.phase.runs=none) (hp : p.runs=none) :
    (g.setPhase k t p).Works where
  depth := by
    have hm := many_setPhase (t:=t) (p:=p) hk fun p => p.runs.isSome
    simp only [ha,hp,Option.isSome_none,Bool.toNat_false,Nat.add_zero] at hm
    rw [hm]
    exact h.depth
  running := h.running
  owner := by
    intro i b hb hrun
    rw [setPhase_getElem? hk] at hb
    split at hb
    · obtain rfl := Option.some_inj.mp hb
      simp [hp] at hrun
    · exact h.owner i b hb hrun
  nested := by
    intro i j b b' hij hb hb' hrun hrun'
    rw [setPhase_getElem? hk] at hb hb'
    split at hb
    · obtain rfl := Option.some_inj.mp hb
      simp [hp] at hrun
    · split at hb'
      · obtain rfl := Option.some_inj.mp hb'
        simp [hp] at hrun'
      · exact h.nested i j b b' hij hb hb' hrun hrun'

/-- A thread begins outside any work. -/
theorem startPhase (h : g.Works) (hp : p.runs=none) : (g.startPhase t p).Works where
  depth := by
    rw [many_startPhase,hp]
    exact h.depth
  running := h.running
  owner := by
    intro i b hb hrun
    rcases startPhase_getElem? hb with hb | ⟨-,rfl⟩
    · exact h.owner i b hb hrun
    · simp [hp] at hrun
  nested := by
    intro i j b b' hij hb hb' hrun hrun'
    rcases startPhase_getElem? hb with hb | ⟨-,rfl⟩
    · rcases startPhase_getElem? hb' with hb' | ⟨-,rfl⟩
      · exact h.nested i j b b' hij hb hb' hrun hrun'
      · simp [hp] at hrun'
    · simp [hp] at hrun

/-- Where nothing runs there is no work. -/
theorem idle (h : g.Works) (hd : g.depth=0) {i : ℕ} {b : GuiActivity} (hb : g.activities[i]?=some b) :
    b.phase.runs.isSome=false := by
  have hm := h.depth
  rw [hd,many] at hm
  have hz := List.countP_eq_zero.mp hm.symm b (List.mem_of_getElem? hb)
  simpa using hz

/-- A drain enters where nothing runs. -/
theorem taken (h : g.Works) (hr : g.running=false) : ((g.enterLocked t).startPhase t (.draining c true)).Works := by
  have hd : g.depth=0 := by
    have hrun := h.running
    rw [hr] at hrun
    simpa using hrun.symm
  have hold : ∀(i : ℕ) (b : GuiActivity),g.activities[i]?=some b→b.phase.runs.isSome=true→False := by
    intro i b hb hrun
    simp [h.idle hd hb] at hrun
  constructor
  · rw [many_startPhase]
    show g.depth+1=g.many (fun p => p.runs.isSome)+1
    rw [← h.depth]
  · simp [GuiCallGate.startPhase,enterLocked]
  · intro i b hb hrun
    rcases startPhase_getElem? hb with hb | ⟨-,rfl⟩
    · exact (hold i b hb hrun).elim
    · rfl
  · intro i j b b' hij hb hb' hrun hrun'
    rcases startPhase_getElem? hb with hb | ⟨hi,rfl⟩
    · exact (hold i b hb hrun).elim
    · rcases startPhase_getElem? hb' with hb' | ⟨hj,-⟩
      · exact (hold j b' hb' hrun').elim
      · omega

/-- A thread enters inline: where work runs it is this thread's, and older than what it enters. -/
theorem entered (h : g.Works) (ht : g.top k=some a) (hp : a.phase=.checked c)
    (hr : g.running=true → g.owner=some a.thread) :
    ((g.enterLocked a.thread).setPhase k a.thread (.inline c (decide (g.depth=0)))).Works := by
  have hk := top_getElem ht
  have hnot : a.phase.runs=none := by rw [hp]; rfl
  have hown : ∀(i : ℕ) (b : GuiActivity),g.activities[i]?=some b→b.phase.runs.isSome=true→b.thread=a.thread := by
    intro i b hb hrun
    have hpos : g.depth≠0 := by
      intro hd
      simp [h.idle hd hb] at hrun
    have hrunning : g.running=true := by
      rw [h.running]
      simpa using Nat.pos_of_ne_zero hpos
    exact Option.some_inj.mp ((h.owner i b hb hrun).symm.trans (hr hrunning))
  have hk' : (g.enterLocked a.thread).activities[k]?=some a := hk
  constructor
  · have hm := many_setPhase (t:=a.thread) (p:=.inline c (decide (g.depth=0))) hk' fun p => p.runs.isSome
    simp only [hnot,Option.isSome_none,Bool.toNat_false,Nat.add_zero] at hm
    rw [hm]
    show g.depth+1=g.many (fun p => p.runs.isSome)+1
    rw [← h.depth]
  · simp [GuiCallGate.setPhase,enterLocked]
  · intro i b hb hrun
    rw [setPhase_getElem? hk'] at hb
    split at hb
    · obtain rfl := Option.some_inj.mp hb
      rfl
    · exact congrArg some (hown i b hb hrun).symm
  · intro i j b b' hij hb hb' hrun hrun'
    rw [setPhase_getElem? hk'] at hb hb'
    split at hb'
    · obtain rfl := Option.some_inj.mp hb'
      rw [if_neg (by omega)] at hb
      have hpos : g.depth≠0 := by
        intro hd
        simp [h.idle hd hb] at hrun
      simpa [GuiPhase.outermost] using hpos
    · split at hb
      · -- an activity of the thread newer than this one would have ended
        rename_i hi
        subst hi
        have hover := top_newest ht hij hb' (hown j b' hb' hrun')
        simp [hover,GuiPhase.runs] at hrun'
      · exact h.nested i j b b' hij hb hb' hrun hrun'

/-- A thread is out of the work it ran last. -/
theorem left (h : g.Works) (hk : g.activities[k]?=some a) (ha : a.phase.runs.isSome=true) (hp : p.runs=none) :
    (g.leaveLocked.setPhase k t p).Works := by
  have hact : g.leaveLocked.activities=g.activities := leaveLocked_activities
  have hk' : g.leaveLocked.activities[k]?=some a := by rw [hact,hk]
  have hm := many_setPhase (t:=t) (p:=p) hk' fun p => p.runs.isSome
  simp only [ha,hp,Option.isSome_none,Bool.toNat_false,Bool.toNat_true,Nat.add_zero] at hm
  have hmany : g.leaveLocked.many (fun p => p.runs.isSome)=g.depth := by
    rw [many,hact,h.depth]
    rfl
  have hdepth : g.leaveLocked.depth=g.depth-1 ∧ g.leaveLocked.running=decide (0 < g.depth-1) := by
    unfold leaveLocked
    split
    · rename_i hlt
      refine ⟨rfl,?_⟩
      rw [h.running]
      simp
      omega
    · rename_i hlt
      have hz : g.depth-1=0 := by omega
      simp [hz]
  have hd : (g.leaveLocked.setPhase k t p).depth=g.leaveLocked.depth := rfl
  constructor
  · rw [hd]
    omega
  · show g.leaveLocked.running=decide (0 < g.leaveLocked.depth)
    rw [hdepth.1,hdepth.2]
  · intro i b hb hrun
    have hpos : 0 < g.depth-1 := by
      have hcount : 0 < (g.leaveLocked.setPhase k t p).many fun p => p.runs.isSome :=
        List.countP_pos_iff.mpr ⟨b,List.mem_of_getElem? hb,hrun⟩
      omega
    have hsame : g.leaveLocked.owner=g.owner := by
      rw [leaveLocked,if_pos (by omega)]
    rw [setPhase_getElem? hk'] at hb
    split at hb
    · obtain rfl := Option.some_inj.mp hb
      simp [hp] at hrun
    · show g.leaveLocked.owner=some b.thread
      rw [hsame]
      rw [hact] at hb
      exact h.owner i b hb hrun
  · intro i j b b' hij hb hb' hrun hrun'
    rw [setPhase_getElem? hk',hact] at hb hb'
    split at hb
    · obtain rfl := Option.some_inj.mp hb
      simp [hp] at hrun
    · split at hb'
      · obtain rfl := Option.some_inj.mp hb'
        simp [hp] at hrun'
      · exact h.nested i j b b' hij hb hb' hrun hrun'

/-- A thread gives its caller the answer. -/
theorem giveBack (h : g.Works) (hk : g.activities[k]?=some a) (ha : a.phase.runs=none) (b : Bool) :
    (g.giveBack k t c x b).Works :=
  (h.setPhase (t:=t) hk ha (p:=.ended) rfl).congr rfl rfl rfl rfl

end Works

theorem works_leave (h : g.Works) (ht : g.top k=some a) {o : Bool} (hp : a.phase=.inline c o) :
    (g.leave k t c x).Works := by
  have hk := top_getElem ht
  have hrun : a.phase.runs.isSome=true := by rw [hp]; rfl
  unfold leave
  dsimp only
  split
  · exact h.left hk hrun rfl
  · exact (h.left (p:=.ended) hk hrun rfl).congr rfl rfl rfl rfl

private theorem works_drained (h : g.Works) (ht : g.top k=some a) {run : Bool} (hp : a.phase=.draining c run) :
    (g.drained k t c x run).Works := by
  have hk := top_getElem ht
  unfold drained
  dsimp only
  generalize hq : (if ((if run then g.leaveLocked else g).setCall c {x with done := true}).queue=[]
    then GuiPhase.ended else GuiPhase.rearming)=q
  have hnone : q.runs=none := by
    rw [← hq,apply_ite GuiPhase.runs]
    exact ite_self none
  cases run with
  | true =>
    have hrun : a.phase.runs.isSome=true := by rw [hp]; rfl
    exact (h.left (t:=t) (p:=q) hk hrun hnone).congr rfl rfl rfl rfl
  | false =>
    have hnot : a.phase.runs=none := by rw [hp]; rfl
    exact (h.setPhase (t:=t) (p:=q) hk hnot hnone).congr rfl rfl rfl rfl

/-- Every step keeps the work in its place. -/
theorem works_moves (h : g.Works) (hm : Moves th g g') : g'.Works := by
  cases hm with
  | refused work => exact h.congr rfl rfl rfl rfl
  | called t work => exact (h.startPhase (t:=t) (p:=.checked g.calls.length) rfl).congr rfl rfl rfl rfl
  | entered ht hp hx hw hr => exact (h.entered ht hp hr).congr rfl rfl rfl rfl
  | turnedAway ht hp hx => exact h.giveBack (top_getElem ht) (by rw [hp]; rfl) false
  | queued ht hp hx =>
    exact (h.setPhase (top_getElem ht) (by rw [hp]; rfl) (p:=.queued _) rfl).congr rfl rfl rfl rfl
  | left ht hp hx => exact works_leave h ht hp
  | rearmed ht hp hx =>
    exact (h.setPhase (top_getElem ht) (by rw [hp]; rfl) (p:=.ended) rfl).congr rfl rfl rfl rfl
  | posted ht hp =>
    exact (h.setPhase (top_getElem ht) (by rw [hp]; rfl) (p:=.waiting _) rfl).congr rfl rfl rfl rfl
  | answered ht hp hx hd => exact h.giveBack (top_getElem ht) (by rw [hp]; rfl) _
  | gaveUp ht hp hx hd hs => exact h.giveBack (top_getElem ht) (by rw [hp]; rfl) _
  | drained ht hp hx => exact works_drained h ht hp
  | reposted ht hp =>
    exact (h.setPhase (top_getElem ht) (by rw [hp]; rfl) (p:=.ended) rfl).congr rfl rfl rfl rfl
  | dropped hdrop => exact h.congr rfl rfl rfl rfl
  | taken hr hq hx ha hw => exact (h.taken (t:=th.pump) hr).congr rfl rfl rfl rfl
  | skipped hr hq hx ha => exact (h.startPhase (t:=th.pump) (p:=.draining _ false) rfl).congr rfl rfl rfl rfl
  | cancelled => exact h.congr rfl rfl rfl rfl
  | reopened => exact h.congr rfl rfl rfl rfl

theorem works_empty : empty.Works where
  depth := rfl
  running := rfl
  owner := by
    intro i a ha
    simp [empty] at ha
  nested := by
    intro i j a b hij ha
    simp [empty] at ha

/-- No two works run that were both entered from outside any. -/
theorem Works.outermost_eq (h : g.Works) {i j : ℕ} {a b : GuiActivity} (ha : g.activities[i]?=some a)
    (hb : g.activities[j]?=some b) (hao : a.phase.outermost=true) (hbo : b.phase.outermost=true) : i=j := by
  have har := outermost_runs hao
  have hbr := outermost_runs hbo
  rcases Nat.lt_trichotomy i j with hij | hij | hij
  · rw [h.nested i j a b hij ha hb har hbr] at hbo
    cases hbo
  · exact hij
  · rw [h.nested j i b a hij hb ha hbr har] at hao
    cases hao

/-! ## No queued call is forgotten -/

/-- Where a call is queued and no work runs, a drain is posted or someone is about to post one. -/
def Armed (g : GuiCallGate) : Prop := g.running=false → g.queue≠[] → 0 < g.pending ∨ 0 < g.many GuiPhase.posts

theorem many_pos {q : GuiPhase→Bool} : 0 < g.many q ↔ ∃(i : ℕ) (a : GuiActivity),g.activities[i]?=some a ∧
    q a.phase=true := by
  constructor
  · intro h
    obtain ⟨a,ha,hq⟩ := List.countP_pos_iff.mp h
    obtain ⟨i,hi⟩ := List.mem_iff_getElem?.mp ha
    exact ⟨i,a,hi,hq⟩
  · rintro ⟨i,a,hi,hq⟩
    exact List.countP_pos_iff.mpr ⟨a,List.mem_of_getElem? hi,hq⟩

/-- A thread about to post, after the step. -/
theorem many_posts_setPhase (hk : g.activities[k]?=some a) (hp : p.posts=true) :
    0 < (g.setPhase k t p).many GuiPhase.posts := by
  have hm := many_setPhase (t:=t) (p:=p) hk GuiPhase.posts
  have hpos : 0 < g.many GuiPhase.posts+1-(GuiPhase.posts a.phase).toNat := by
    cases hq : GuiPhase.posts a.phase with
    | false => simp
    | true =>
      have := many_pos.mpr ⟨k,a,hk,hq⟩
      simpa using this
  simp only [hp,Bool.toNat_true] at hm
  omega

/-- A step of a thread that was not about to post leaves those that are. -/
theorem Armed.setPhase (h : g.Armed) (hk : g.activities[k]?=some a) (ha : a.phase.posts=false) :
    (g.setPhase k t p).Armed := by
  intro hr hq
  have hm := many_setPhase (t:=t) (p:=p) hk GuiPhase.posts
  simp only [ha,Bool.toNat_false,Nat.add_zero] at hm
  rcases h hr hq with hpend | hposts
  · exact Or.inl hpend
  · right
    omega

theorem Armed.startPhase (h : g.Armed) : (g.startPhase t p).Armed := by
  intro hr hq
  rw [many_startPhase]
  rcases h hr hq with hpend | hposts
  · exact Or.inl hpend
  · exact Or.inr (Nat.add_pos_left hposts _)

theorem Armed.congr (h : g.Armed) (ha : g'.activities=g.activities) (hq : g'.queue=g.queue)
    (hr : g'.running=g.running) (hp : g'.pending=g.pending) : g'.Armed := by
  rw [Armed,hr,hq,hp,many,ha]
  exact h

private theorem armed_leave (h : g.Works) (ht : g.top k=some a) {o : Bool} (hp : a.phase=.inline c o) :
    (g.leave k t c x).Armed := by
  have hk : g.leaveLocked.activities[k]?=some a := by
    rw [leaveLocked_activities]
    exact top_getElem ht
  have hw := works_leave (t:=t) (x:=x) h ht hp
  intro hr hq
  have hzero : (g.leave k t c x).depth=0 := by
    have hrun := hw.running
    rw [hr] at hrun
    simpa using hrun.symm
  unfold leave at hzero hq hr ⊢
  dsimp only at hzero hq hr ⊢
  split
  · exact Or.inr (many_posts_setPhase hk rfl)
  · rename_i hnot
    rw [if_neg hnot] at hzero hq
    exact absurd ⟨hzero,hq⟩ hnot

private theorem armed_drained (ht : g.top k=some a) {run : Bool} : (g.drained k t c x run).Armed := by
  intro hr hq
  have hk : ((if run then g.leaveLocked else g).setCall c {x with done := true}).activities[k]?=some a := by
    cases run with
    | true =>
      show g.leaveLocked.activities[k]?=some a
      rw [leaveLocked_activities]
      exact top_getElem ht
    | false => exact top_getElem ht
  right
  have hleft : ((if run then g.leaveLocked else g).setCall c {x with done := true}).queue≠[] := hq
  unfold drained
  dsimp only
  rw [if_neg hleft]
  exact many_posts_setPhase hk rfl

/-- Every step that leaves a call queued with no work running leaves a drain to come. -/
theorem armed_moves (hw : g.Works) (h : g.Armed) (hm : Moves th g g') : g'.Armed := by
  cases hm with
  | refused work => exact h.congr rfl rfl rfl rfl
  | called t work => exact (h.startPhase (t:=t)).congr rfl rfl rfl rfl
  | entered ht hp hx hwork hr =>
    intro hrun
    cases hrun
  | turnedAway ht hp hx =>
    exact (h.setPhase (top_getElem ht) (by rw [hp]; rfl)).congr rfl rfl rfl rfl
  | queued ht hp hx =>
    intro _ _
    exact Or.inr (many_posts_setPhase (top_getElem ht) rfl)
  | left ht hp hx => exact armed_leave hw ht hp
  | rearmed ht hp hx =>
    intro _ _
    exact Or.inl (Nat.succ_pos _)
  | posted ht hp =>
    intro _ _
    exact Or.inl (Nat.succ_pos _)
  | answered ht hp hx hd => exact (h.setPhase (top_getElem ht) (by rw [hp]; rfl)).congr rfl rfl rfl rfl
  | gaveUp ht hp hx hd hs => exact (h.setPhase (top_getElem ht) (by rw [hp]; rfl)).congr rfl rfl rfl rfl
  | drained ht hp hx => exact armed_drained ht
  | reposted ht hp =>
    intro _ _
    exact Or.inl (Nat.succ_pos _)
  | dropped hdrop =>
    intro hr hq
    rcases hdrop with hrun | hnil
    · exact absurd (hr.symm.trans hrun) (by decide)
    · exact absurd hnil hq
  | taken hr hq hx ha hwork =>
    intro hrun
    cases hrun
  | skipped hr hq hx ha =>
    intro _ _
    right
    rw [many_startPhase]
    exact Nat.succ_pos _
  | cancelled => exact h.congr rfl rfl rfl rfl
  | reopened => exact h.congr rfl rfl rfl rfl

end GuiCallGate

end Loftail
