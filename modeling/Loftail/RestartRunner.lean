import Loftail.Record

/-! # Running a restart script

A runner lives on the application thread. The script runs in a process of its own, on an SSH channel that a
worker thread reads, or on a console that a worker thread holds. A worker posts what it has to the
application thread, and tests before each post whether the run has been given up. -/
namespace Loftail.Restart

/-- `kMaxOutputBytes`. -/
def kMaxOutputBytes : ℕ := 1024*1024

structure RestartResult where
  ok : Bool
  aborted : Bool
  exitCode : ℤ
  truncated : Bool
  sawStdErr : Bool
  streamsMerged : Bool
  error : Text
  deriving DecidableEq

def RestartResult.initial : RestartResult := ⟨false,false,-1,false,false,false,[]⟩

/-- Whether the dialog may close by itself. -/
def RestartResult.succeeded (r : RestartResult) : Bool := r.ok && !r.aborted && r.exitCode=0 && !r.sawStdErr

/-- The signals of a runner. -/
inductive Emission
  | outputAppended (bytes : Bytes) (isStdErr : Bool)
  | finished (result : RestartResult)
  deriving DecidableEq

def Emission.isEnd : Emission→Bool
  | .outputAppended _ _ => false
  | .finished _ => true

inductive Way | process | ssh | console
  deriving DecidableEq

/-- What a worker posts to the application thread. -/
inductive Posted
  | chunk (bytes : Bytes) (isStdErr : Bool)
  | errandEnd (out : RestartResult)
  | scriptEnd (ran : Option ℤ) (output : Bytes)

/-- A worker between two steps; what it holds has passed the test and is not posted yet. -/
inductive Worker
  | none
  | running (sawErr : Bool)
  | holdsChunk (sawErr : Bool) (bytes : Bytes) (isStdErr : Bool)
  | holdsEnd (last : Posted)
  | done

/-- A runner with its process or worker. `alive` is the flag it shares with a worker: for an SSH errand,
that it is not abandoned. -/
structure RestartRunner where
  way : Way
  running : Bool
  aborting : Bool
  sawStdErr : Bool
  bytesPublished : ℕ
  truncated : Bool
  /-- What the process is, or the device. -/
  name : Text
  processRuns : Bool
  alive : Bool
  worker : Worker
  /-- Posted and not delivered. -/
  posted : List Posted
  /-- What `reportLater` has to say. -/
  later : Option RestartResult
  emitted : List Emission

namespace RestartRunner

/-- How a start goes: not at all, for a target that cannot be run or files that cannot be made, or on its way. -/
inductive Launch
  | refused (way : Way) (reason : Text)
  | process (program : Text)
  | ssh
  | console (device : Text)

def idle (way : Way) : RestartRunner := ⟨way,false,false,false,0,false,[],false,true,.none,[],none,[]⟩

def start : Launch→RestartRunner
  | .refused way reason => {idle way with later := some {RestartResult.initial with error := reason}}
  | .process program => {idle .process with running := true,name := program,processRuns := true}
  | .ssh => {idle .ssh with running := true,worker := .running false}
  | .console device => {idle .console with running := true,name := device,worker := .running false}

def emit (s : RestartRunner) (e : Emission) : RestartRunner := {s with emitted := s.emitted++[e]}

/-- Any byte on stderr is recorded, before the cap can drop it. -/
def publish (s : RestartRunner) (bytes : Bytes) (isStdErr : Bool) : RestartRunner :=
  if bytes=[] then s
  else
    let s := {s with sawStdErr := s.sawStdErr || isStdErr}
    if s.bytesPublished≥kMaxOutputBytes then {s with truncated := true}
    else
      let slice := bytes.take (kMaxOutputBytes-s.bytesPublished)
      {s with
        truncated := s.truncated || decide (s.bytesPublished+bytes.length>kMaxOutputBytes)
        bytesPublished := s.bytesPublished+slice.length}.emit (.outputAppended slice isStdErr)

/-- What the two files have grown by. -/
def drainLocalOutput (s : RestartRunner) (out err : Bytes) : RestartRunner := (s.publish out false).publish err true

def finish (s : RestartRunner) (result : RestartResult) : RestartRunner :=
  {s with running := false}.emit (.finished result)

def noAnswer (device : Text) : Text :=
  latin1 "Could not run the restart script on "++device++latin1 " \u2014 its console did not answer."

/-- A delivery on the application thread: of the two ends only a script's tests again. -/
def receive (s : RestartRunner) : Posted→RestartRunner
  | .chunk bytes isStdErr => s.publish bytes isStdErr
  | .errandEnd out => s.finish {out with truncated := s.truncated}
  | .scriptEnd ran output =>
    if s.alive then
      let s := s.publish output false
      s.finish ⟨ran.isSome,false,ran.getD (-1),s.truncated,false,true,if ran.isSome then [] else noAnswer s.name⟩
    else s

/-- What can happen next; the first three are the process's, the next three a worker's. -/
inductive Action
  | pump (out err : Bytes)
  | exited (out err : Bytes) (code : Option ℤ)
  | failedToStart
  | chunkArrives (bytes : Bytes) (isStdErr : Bool)
  | errandEnds (ran : Option ℤ) (error : Text)
  | scriptEnds (ran : Option ℤ) (output : Bytes)
  | post
  | deliver
  | fire
  | abort

/-- The worker of an errand has read a chunk. -/
def chunkRead (s : RestartRunner) (sawErr : Bool) (bytes : Bytes) (isStdErr : Bool) : RestartRunner :=
  let sawErr := sawErr || (isStdErr && !bytes.isEmpty)
  {s with worker := if s.alive && !bytes.isEmpty then .holdsChunk sawErr bytes isStdErr else .running sawErr}

/-- Its errand is over. -/
def errandOver (s : RestartRunner) (sawErr : Bool) (ran : Option ℤ) (error : Text) : RestartRunner :=
  {s with worker :=
    if s.alive then
      .holdsEnd (.errandEnd ⟨ran.isSome && error.isEmpty,false,ran.getD (-1),false,sawErr,false,error⟩)
    else .done}

/-- `RestartRunner::abort`. A process still reports its own end; for a worker the runner does. -/
def stop (s : RestartRunner) : RestartRunner :=
  if !s.running || s.aborting then s
  else match s.way with
    | .process => {s with aborting := true}
    | .console => {s with aborting := true,alive := false,running := false
                          later := some {RestartResult.initial with aborted := true,streamsMerged := true}}
    | .ssh => {s with aborting := true,alive := false,running := false
                      later := some {RestartResult.initial with
                        aborted := true,sawStdErr := s.sawStdErr,truncated := s.truncated}}

/-- One step; a step that is not possible changes nothing. -/
def act (s : RestartRunner) : Action→RestartRunner
  | .pump out err => if s.processRuns then s.drainLocalOutput out err else s
  | .exited out err code =>
    if s.processRuns then
      let s := s.drainLocalOutput out err
      {s with processRuns := false}.finish ⟨true,s.aborting,code.getD (-1),s.truncated,s.sawStdErr,false,[]⟩
    else s
  | .failedToStart =>
    if s.processRuns then
      {s with processRuns := false}.finish
        {RestartResult.initial with error := s.name++latin1 " could not be started."}
    else s
  | .chunkArrives bytes isStdErr =>
    match s.way,s.worker with
    | .ssh,.running sawErr => s.chunkRead sawErr bytes isStdErr
    | _,_ => s
  | .errandEnds ran error =>
    match s.way,s.worker with
    | .ssh,.running sawErr => s.errandOver sawErr ran error
    | _,_ => s
  | .scriptEnds ran output =>
    match s.way,s.worker with
    | .console,.running _ => {s with worker := if s.alive then .holdsEnd (.scriptEnd ran output) else .done}
    | _,_ => s
  | .post =>
    match s.worker with
    | .holdsChunk sawErr bytes isStdErr =>
      {s with worker := .running sawErr,posted := s.posted++[.chunk bytes isStdErr]}
    | .holdsEnd last => {s with worker := .done,posted := s.posted++[last]}
    | _ => s
  | .deliver =>
    match s.posted with
    | [] => s
    | first::rest => {s with posted := rest}.receive first
  | .fire =>
    match s.later with
    | some result => {s with later := none}.emit (.finished result)
    | none => s
  | .abort => s.stop

def run (s : RestartRunner) (actions : List Action) : RestartRunner := actions.foldl act s

/-! ## How often the end is reported -/

/-- The ends reported. -/
def ends (s : RestartRunner) : ℕ := s.emitted.countP Emission.isEnd

end RestartRunner

/-- What is posted by each way. -/
def Posted.Of (way : Way) : Posted→Prop
  | .chunk _ _ => way=.ssh
  | .errandEnd _ => way=.ssh
  | .scriptEnd _ _ => way=.console

def Posted.isEnd : Posted→Bool
  | .chunk _ _ => false
  | _ => true

/-- The ends a delivery will report. -/
def Posted.due (alive : Bool) : Posted→ℕ
  | .chunk _ _ => 0
  | .errandEnd _ => 1
  | .scriptEnd _ _ => alive.toNat

private theorem Posted.due_alive (e : Posted) : e.due true=e.isEnd.toNat := by cases e <;> rfl

theorem Posted.due_ssh {e : Posted} (h : e.Of .ssh) {alive : Bool} : e.due alive=e.isEnd.toNat := by
  cases e with
  | scriptEnd ran output => cases h
  | chunk bytes isStdErr => rfl
  | errandEnd result => rfl

theorem Posted.due_console {e : Posted} (h : e.Of .console) : e.due false=0 := by
  cases e with
  | scriptEnd ran output => rfl
  | chunk bytes isStdErr => cases h
  | errandEnd result => cases h

theorem Posted.sum_due {posted : List Posted} {alive : Bool} (h : ∀e∈posted,e.due alive=e.isEnd.toNat) :
    (posted.map (Posted.due alive)).sum=posted.countP Posted.isEnd := by
  induction posted with
  | nil => rfl
  | cons e posted ih =>
    rw [List.map_cons,List.sum_cons,List.countP_cons,h e List.mem_cons_self,
      ih fun other hother => h other (List.mem_cons_of_mem _ hother),Nat.add_comm]
    cases e.isEnd <;> rfl

private theorem Posted.sum_console {posted : List Posted} (h : ∀e∈posted,e.Of .console) :
    (posted.map (Posted.due false)).sum=0 := by
  induction posted with
  | nil => rfl
  | cons e posted ih =>
    rw [List.map_cons,List.sum_cons,Posted.due_console (h e List.mem_cons_self),Nat.zero_add]
    exact ih fun other hother => h other (List.mem_cons_of_mem _ hother)

private theorem countP_eq_any {posted : List Posted} (h : posted.countP Posted.isEnd≤1) :
    posted.countP Posted.isEnd=(posted.any Posted.isEnd).toNat := by
  cases hany : posted.any Posted.isEnd with
  | true =>
    obtain ⟨e,he,hend⟩ := List.any_eq_true.mp hany
    have hpos := List.countP_pos_iff.mpr ⟨e,he,hend⟩
    exact Nat.le_antisymm h hpos
  | false =>
    rw [List.any_eq_false] at hany
    exact List.countP_eq_zero.mpr hany

def Worker.Of (way : Way) : Worker→Prop
  | .holdsChunk _ _ _ => way=.ssh
  | .holdsEnd last => last.Of way ∧ last.isEnd=true
  | _ => True

def Worker.due (alive : Bool) : Worker→ℕ
  | .running _ => alive.toNat
  | .holdsChunk _ _ _ => alive.toNat
  | .holdsEnd last => last.due alive
  | _ => 0

namespace RestartRunner

/-- The ends still to be reported. -/
def due (s : RestartRunner) : ℕ :=
  s.processRuns.toNat+s.worker.due s.alive+(s.posted.map (Posted.due s.alive)).sum+s.later.isSome.toNat

/-- The worker's end has passed its last test. -/
def onItsWay (s : RestartRunner) : Bool :=
  (match s.worker with | .holdsEnd _ => true | _ => false) || s.posted.any Posted.isEnd

/-- An SSH run that is given up while its end is on its way: the delivery does not test again. -/
def race (s : RestartRunner) : Action→ℕ
  | .abort => (decide (s.way=.ssh) && s.running && !s.aborting && s.onItsWay).toNat
  | _ => 0

/-- How often that happens. -/
def races (s : RestartRunner) : List Action→ℕ
  | [] => 0
  | a::actions => s.race a+races (s.act a) actions

/-- Every end is reported or due. -/
structure Accounted (s : RestartRunner) (raced : ℕ) : Prop where
  count : s.ends+s.due=1+raced
  running : s.running=true→s.ends=0 ∧ s.later=none ∧ raced=0 ∧ s.alive=true
  process : s.processRuns=true→s.way=.process
  worker : s.worker.Of s.way
  posted : ∀e∈s.posted,e.Of s.way

variable {s : RestartRunner} {bytes out err : Bytes} {isStdErr : Bool} {raced : ℕ}

/-- Publishing changes the record of the output only. -/
theorem publish_spec (s : RestartRunner) (bytes : Bytes) (isStdErr : Bool) :
    ∃sawStdErr published truncated more,s.publish bytes isStdErr={s with
      sawStdErr := sawStdErr,bytesPublished := published,truncated := truncated,emitted := s.emitted++more} ∧
      ∀e∈more,e.isEnd=false := by
  rw [publish]
  split
  · exact ⟨s.sawStdErr,s.bytesPublished,s.truncated,[],by simp,by simp⟩
  · dsimp only
    split
    · exact ⟨_,_,true,[],by rw [List.append_nil],by simp⟩
    · exact ⟨_,_,_,_,rfl,by simp [Emission.isEnd]⟩

theorem drain_spec (s : RestartRunner) (out err : Bytes) :
    ∃sawStdErr published truncated more,s.drainLocalOutput out err={s with
      sawStdErr := sawStdErr,bytesPublished := published,truncated := truncated,emitted := s.emitted++more} ∧
      ∀e∈more,e.isEnd=false := by
  obtain ⟨saw,published,truncated,more,hout,hmore⟩ := publish_spec s out false
  obtain ⟨saw',published',truncated',more',herr,hmore'⟩ := publish_spec (s.publish out false) err true
  refine ⟨saw',published',truncated',more++more',?_,?_⟩
  · rw [drainLocalOutput,herr,hout,List.append_assoc]
  · intro e he
    rcases List.mem_append.mp he with he | he
    · exact hmore e he
    · exact hmore' e he

theorem countP_outputs {more : List Emission} (h : ∀e∈more,e.isEnd=false) : more.countP Emission.isEnd=0 := by
  apply List.countP_eq_zero.mpr
  intro e he hend
  rw [h e he] at hend
  cases hend

theorem Accounted.output (h : s.Accounted raced) {saw truncated : Bool} {published : ℕ} {more : List Emission}
    (hmore : ∀e∈more,e.isEnd=false) : ({s with
      sawStdErr := saw,bytesPublished := published,truncated := truncated,emitted :=
      s.emitted++more}).Accounted raced := by
  have hends : (s.emitted++more).countP Emission.isEnd=s.ends := by
    rw [List.countP_append,countP_outputs hmore]
    rfl
  exact ⟨(congrArg (·+s.due) hends).trans h.count,fun hrun =>
    ⟨hends.trans (h.running hrun).1,(h.running hrun).2⟩,h.process,h.worker,h.posted⟩

private theorem start_accounted (launch : Launch) : (start launch).Accounted 0 := by
  cases launch <;> exact ⟨rfl,by simp [start,idle,ends],by simp [start,idle],trivial,by simp [start,idle]⟩

/-- An end that was due is reported. -/
theorem finish_accounted (hcount : s.ends+s.due+1=1+raced) (hprocess : s.processRuns=true→s.way=.process)
    (hworker : s.worker.Of s.way) (hposted : ∀e∈s.posted,e.Of s.way) {result : RestartResult} :
    (s.finish result).Accounted raced := by
  have hends : (s.emitted++[Emission.finished result]).countP Emission.isEnd=s.ends+1 := by
    rw [List.countP_append]
    rfl
  refine ⟨?_,nofun,hprocess,hworker,hposted⟩
  show (s.emitted++[Emission.finished result]).countP Emission.isEnd+s.due=1+raced
  omega

private theorem finish_published (hcount : s.ends+s.due+1=1+raced) (hprocess : s.processRuns=true→s.way=.process)
    (hworker : s.worker.Of s.way) (hposted : ∀e∈s.posted,e.Of s.way) {result : RestartResult} :
    ((s.publish bytes isStdErr).finish result).Accounted raced := by
  obtain ⟨saw,published,truncated,more,hpublish,hmore⟩ := publish_spec s bytes isStdErr
  rw [hpublish]
  refine @finish_accounted {s with
    sawStdErr := saw,bytesPublished := published,truncated := truncated,emitted := s.emitted++more} raced ?_
      hprocess hworker hposted result
  have hends : (s.emitted++more).countP Emission.isEnd=s.ends := by
    rw [List.countP_append,countP_outputs hmore]
    rfl
  exact (congrArg (·+s.due+1) hends).trans hcount

/-- The process reports its own end. -/
theorem Accounted.ended (h : s.Accounted raced) (hruns : s.processRuns=true) {result : RestartResult} :
    ({s with processRuns := false}.finish result).Accounted raced := by
  have hcount := h.count
  refine @finish_accounted {s with processRuns := false} raced ?_
    (fun hfalse => Bool.noConfusion hfalse) h.worker h.posted result
  rw [due,hruns] at hcount
  simp only [ends,due,Bool.toNat_false,Bool.toNat_true] at hcount ⊢
  omega

/-- A delivery leaves what it owes to what it does. -/
theorem Accounted.taken (h : s.Accounted raced) {first : Posted} {rest : List Posted}
    (hposted : s.posted=first::rest) :
    ({s with posted := rest}).ends+({s with posted := rest}).due+first.due s.alive=1+raced ∧
    ∀e∈rest,e.Of s.way := by
  have hcount := h.count
  rw [due,hposted,List.map_cons,List.sum_cons] at hcount
  constructor
  · simp only [ends,due] at hcount ⊢
    omega
  · intro e he
    exact h.posted e (hposted ▸ List.mem_cons_of_mem _ he)

/-- A worker's step that owes as much as it did. -/
theorem Accounted.stepped (h : s.Accounted raced) {worker : Worker} (hdue : worker.due s.alive=s.worker.due s.alive)
    (hof : worker.Of s.way) : ({s with worker := worker}).Accounted raced := by
  refine ⟨?_,h.running,h.process,hof,h.posted⟩
  rw [← h.count]
  simp only [ends,due,hdue]

/-- What a worker holds is posted. -/
theorem Accounted.posts (h : s.Accounted raced) {before after : Worker} {last : Posted} (hholds : s.worker=before)
    (hof : after.Of s.way) (hdue : after.due s.alive+last.due s.alive=before.due s.alive) (hlast : last.Of s.way) :
    ({s with worker := after,posted := s.posted++[last]}).Accounted raced := by
  have hcount := h.count
  refine ⟨?_,h.running,h.process,hof,?_⟩
  · rw [ends,due,hholds,← hdue] at hcount
    simp only [ends,due,List.map_append,List.map_singleton,List.sum_append,List.sum_singleton]
    omega
  · intro e he
    rcases List.mem_append.mp he with he | he
    · exact h.posted e he
    · exact List.mem_singleton.mp he ▸ hlast

/-- Before its end is reported a worker owes one, and given up it still does where the delivery will not test. -/
theorem Accounted.abandoned (h : s.Accounted raced) (hrun : s.running=true) (hway : s.way≠.process) :
    s.worker.due false+(s.posted.map (Posted.due false)).sum=(decide (s.way=.ssh) && s.onItsWay).toNat := by
  obtain ⟨hends,hlater,hraced,halive⟩ := h.running hrun
  have hruns : s.processRuns=false := Bool.eq_false_iff.mpr fun hruns => hway (h.process hruns)
  have hone : s.worker.due true+(s.posted.map (Posted.due true)).sum=1 := by
    have hcount := h.count
    rw [due,hends,hlater,hraced,halive,hruns] at hcount
    simp only [Bool.toNat_false,Option.isSome_none] at hcount
    omega
  rw [Posted.sum_due fun e _ => e.due_alive] at hone
  cases hssh : s.way with
  | process => exact absurd hssh hway
  | ssh =>
    rw [Posted.sum_due fun e he => Posted.due_ssh (hssh ▸ h.posted e he)]
    have hworker := h.worker
    rw [hssh] at hworker
    rw [onItsWay]
    cases hheld : s.worker with
    | holdsEnd last =>
      rw [hheld] at hone hworker
      have hdue : ∀alive,last.due alive=1 := fun alive => by rw [Posted.due_ssh hworker.1,hworker.2]; rfl
      have hnone : s.posted.countP Posted.isEnd=0 := by
        rw [Worker.due,hdue] at hone
        omega
      rw [hnone,Worker.due,hdue]
      rfl
    | none | done | running sawErr | holdsChunk sawErr bytes isStdErr =>
      rw [hheld] at hone
      have hle : s.posted.countP Posted.isEnd≤1 := by omega
      exact (Nat.zero_add _).trans (countP_eq_any hle)
  | console =>
    rw [Posted.sum_console fun e he => hssh ▸ h.posted e he]
    have hworker := h.worker
    rw [hssh] at hworker
    cases hheld : s.worker with
    | holdsEnd last =>
      rw [hheld] at hworker
      exact Posted.due_console hworker.1
    | none | done | running sawErr | holdsChunk sawErr bytes isStdErr => rfl

/-- A worker's run given up: the runner reports its end, and a worker that has not passed its last test does not. -/
theorem Accounted.givenUp (h : s.Accounted raced) (hrun : s.running=true) (hway : s.way≠.process)
    {result : RestartResult} :
    ({s with aborting := true,alive := false,running := false,later := some result}).Accounted
      (raced+(decide (s.way=Way.ssh) && s.onItsWay).toNat) := by
  obtain ⟨hends,hlater,hraced,halive⟩ := h.running hrun
  refine ⟨?_,fun hfalse => Bool.noConfusion hfalse,h.process,h.worker,h.posted⟩
  have hruns : s.processRuns=false := Bool.eq_false_iff.mpr fun hruns => hway (h.process hruns)
  have howes := h.abandoned hrun hway
  rw [ends] at hends
  simp only [ends,due,hends,hruns,hraced,Option.isSome_some,Bool.toNat_true,Bool.toNat_false]
  omega

private theorem accounted_stop (h : s.Accounted raced) : s.stop.Accounted (raced+s.race .abort) := by
  rw [stop,race]
  split
  · rename_i hstop
    have hidle : (decide (s.way=.ssh) && s.running && !s.aborting && s.onItsWay)=false := by
      rcases Bool.or_eq_true_iff.mp hstop with hstop | hstop <;> simp_all
    rw [hidle]
    exact h
  · rename_i hgo
    rw [Bool.or_eq_true,not_or,Bool.not_eq_true',Bool.not_eq_false,Bool.not_eq_true] at hgo
    obtain ⟨hrun,haborting⟩ := hgo
    have hrace : (decide (s.way=.ssh) && s.running && !s.aborting && s.onItsWay)=
      (decide (s.way=.ssh) && s.onItsWay) := by
      rw [hrun,haborting,Bool.and_true,Bool.not_false,Bool.and_true]
    rw [hrace]
    split
    · rename_i hway
      have hprocess : (decide (s.way=.ssh) && s.onItsWay)=false := by rw [hway]; rfl
      rw [hprocess]
      exact ⟨h.count,h.running,h.process,h.worker,h.posted⟩
    · rename_i hway
      exact h.givenUp hrun (by rw [hway]; decide)
    · rename_i hway
      exact h.givenUp hrun (by rw [hway]; decide)

/-- A worker that is done holds its end, or has none to report once the run is given up. -/
theorem Accounted.endsWorker (h : s.Accounted raced) {sawErr : Bool} (hworker : s.worker=.running sawErr)
    {last : Posted} (hof : last.Of s.way) (hend : last.isEnd=true) :
    ({s with worker := if s.alive then .holdsEnd last else .done}).Accounted raced := by
  refine h.stepped ?_ ?_
  · rw [hworker]
    split
    · cases last <;> simp_all [Worker.due,Posted.due,Posted.isEnd]
    · simp_all [Worker.due]
  · split
    · exact ⟨hof,hend⟩
    · trivial

private theorem accounted_post (h : s.Accounted raced) : (s.act .post).Accounted raced := by
  have hworker := h.worker
  rw [act]
  split
  · rename_i sawErr bytes isStdErr hholds
    rw [hholds] at hworker
    exact h.posts hholds trivial (Nat.add_zero _) hworker
  · rename_i last hholds
    rw [hholds] at hworker
    exact h.posts hholds trivial (Nat.zero_add _) hworker.1
  · exact h

/-- A delivery that owes an end reports it, and one that owes none leaves the account as it is. -/
theorem receive_accounted {first : Posted} (hcount : s.ends+s.due+first.due s.alive=1+raced)
    (hquiet : first.due s.alive=0→s.Accounted raced) (hprocess : s.processRuns=true→s.way=.process)
    (hworker : s.worker.Of s.way) (hposted : ∀e∈s.posted,e.Of s.way) : (s.receive first).Accounted raced := by
  cases first with
  | chunk bytes isStdErr =>
    obtain ⟨saw,published,truncated,more,hpublish,hmore⟩ := publish_spec s bytes isStdErr
    show (s.publish bytes isStdErr).Accounted raced
    rw [hpublish]
    exact (hquiet rfl).output hmore
  | errandEnd result => exact finish_accounted hcount hprocess hworker hposted
  | scriptEnd ran output =>
    rw [receive]
    split
    · rename_i halive
      have hdue : (Posted.scriptEnd ran output).due s.alive=1 := by
        rw [halive]
        rfl
      rw [hdue] at hcount
      exact finish_published hcount hprocess hworker hposted
    · rename_i halive
      refine hquiet ?_
      rw [Bool.eq_false_iff.mpr halive]
      rfl

private theorem accounted_deliver (h : s.Accounted raced) : (s.act .deliver).Accounted raced := by
  rw [act]
  split
  · exact h
  · rename_i first rest hposted
    obtain ⟨hcount,hrest⟩ := h.taken hposted
    refine receive_accounted hcount (fun hdue => ?_) h.process h.worker hrest
    exact ⟨by rwa [show first.due s.alive=0 from hdue] at hcount,h.running,h.process,h.worker,hrest⟩

/-- The end that was put off is reported. -/
theorem accounted_fire (h : s.Accounted raced) : (s.act .fire).Accounted raced := by
  have hcount := h.count
  rw [act]
  split
  · rename_i result hlater
    have hends : (s.emitted++[Emission.finished result]).countP Emission.isEnd=s.ends+1 := by
      rw [List.countP_append]
      rfl
    refine ⟨?_,?_,h.process,h.worker,h.posted⟩
    · show (s.emitted++[Emission.finished result]).countP Emission.isEnd+({s with later := none}).due=1+raced
      rw [due,hlater] at hcount
      simp only [hends,due,Option.isSome_some,Option.isSome_none,Bool.toNat_true,Bool.toNat_false] at hcount ⊢
      omega
    · intro hrun
      have hnone := (h.running hrun).2.1
      rw [hlater] at hnone
      cases hnone
  · exact h

private theorem accounted_act (h : s.Accounted raced) (a : Action) : (s.act a).Accounted (raced+s.race a) := by
  cases a with
  | pump out err =>
    rw [act]
    split
    · obtain ⟨saw,published,truncated,more,hdrain,hmore⟩ := drain_spec s out err
      rw [hdrain]
      exact h.output hmore
    · exact h
  | exited out err code =>
    rw [act]
    split
    · rename_i hruns
      obtain ⟨saw,published,truncated,more,hdrain,hmore⟩ := drain_spec s out err
      rw [hdrain]
      exact (h.output hmore).ended hruns
    · exact h
  | failedToStart =>
    rw [act]
    split
    · rename_i hruns
      exact h.ended hruns
    · exact h
  | chunkArrives bytes isStdErr =>
    rw [act]
    split
    · rename_i sawErr hway hworker
      refine h.stepped ?_ ?_
      · rw [hworker]
        split <;> simp_all [Worker.due]
      · split
        · exact hway
        · trivial
    · exact h
  | errandEnds ran error =>
    rw [act]
    split
    · rename_i sawErr hway hworker
      exact h.endsWorker hworker hway rfl
    · exact h
  | scriptEnds ran output =>
    rw [act]
    split
    · rename_i sawErr hway hworker
      exact h.endsWorker hworker hway rfl
    · exact h
  | post => exact accounted_post h
  | deliver => exact accounted_deliver h
  | fire => exact accounted_fire h
  | abort => exact accounted_stop h

private theorem accounted_run (h : s.Accounted raced) (actions : List Action) :
    (s.run actions).Accounted (raced+s.races actions) := by
  induction actions generalizing s raced with
  | nil => exact h
  | cons a actions ih =>
    rw [races,← Nat.add_assoc]
    exact ih (accounted_act h a)

theorem publish_way (s : RestartRunner) (bytes : Bytes) (isStdErr : Bool) :
    (s.publish bytes isStdErr).way=s.way ∧ (s.publish bytes isStdErr).running=s.running := by
  obtain ⟨saw,published,truncated,more,hpublish,-⟩ := publish_spec s bytes isStdErr
  rw [hpublish]
  exact ⟨rfl,rfl⟩

theorem drain_way (s : RestartRunner) (out err : Bytes) :
    (s.drainLocalOutput out err).way=s.way ∧ (s.drainLocalOutput out err).running=s.running := by
  constructor
  · exact (publish_way _ err true).1.trans (publish_way s out false).1
  · exact (publish_way _ err true).2.trans (publish_way s out false).2

/-- The way stays, a run that is over does not start again, and a race ends it. -/
theorem act_way (s : RestartRunner) (a : Action) :
    (s.act a).way=s.way ∧ (s.act a).running.toNat+s.race a ≤ s.running.toNat := by
  cases a with
  | pump out err =>
    rw [act]
    split
    · exact ⟨(drain_way s out err).1,Nat.le_of_eq (congrArg Bool.toNat (drain_way s out err).2)⟩
    · exact ⟨rfl,Nat.le_refl _⟩
  | exited out err code =>
    rw [act]
    split
    · exact ⟨(drain_way s out err).1,Nat.zero_le _⟩
    · exact ⟨rfl,Nat.le_refl _⟩
  | failedToStart =>
    rw [act]
    split
    · exact ⟨rfl,Nat.zero_le _⟩
    · exact ⟨rfl,Nat.le_refl _⟩
  | chunkArrives bytes isStdErr => rw [act]; split <;> exact ⟨rfl,Nat.le_refl _⟩
  | errandEnds ran error => rw [act]; split <;> exact ⟨rfl,Nat.le_refl _⟩
  | scriptEnds ran output => rw [act]; split <;> exact ⟨rfl,Nat.le_refl _⟩
  | post => rw [act]; split <;> exact ⟨rfl,Nat.le_refl _⟩
  | fire => rw [act]; split <;> exact ⟨rfl,Nat.le_refl _⟩
  | deliver =>
    rw [act]
    split
    · exact ⟨rfl,Nat.le_refl _⟩
    · rename_i first rest hposted
      cases first with
      | chunk bytes isStdErr =>
        have hway := publish_way {s with posted := rest} bytes isStdErr
        exact ⟨hway.1,Nat.le_of_eq (congrArg Bool.toNat hway.2)⟩
      | errandEnd result => exact ⟨rfl,Nat.zero_le _⟩
      | scriptEnd ran output =>
        rw [receive]
        split
        · exact ⟨(publish_way {s with posted := rest} output false).1,Nat.zero_le _⟩
        · exact ⟨rfl,Nat.le_refl _⟩
  | abort =>
    rw [act,stop,race]
    split
    · rename_i hstop
      refine ⟨rfl,?_⟩
      rcases Bool.or_eq_true_iff.mp hstop with hstop | hstop <;> simp_all
    · rename_i hgo
      rw [Bool.or_eq_true,not_or,Bool.not_eq_true',Bool.not_eq_false] at hgo
      have hle : ∀b : Bool,b.toNat≤1 := by decide
      split
      · rename_i hway
        have hrace : (decide (s.way=.ssh) && s.running && !s.aborting && s.onItsWay)=false := by rw [hway]; rfl
        rw [hrace]
        exact ⟨rfl,Nat.le_refl _⟩
      · rw [hgo.1]
        exact ⟨rfl,(Nat.zero_add _).symm ▸ hle _⟩
      · rw [hgo.1]
        exact ⟨rfl,(Nat.zero_add _).symm ▸ hle _⟩

private theorem races_le (s : RestartRunner) (actions : List Action) : s.races actions ≤ s.running.toNat := by
  induction actions generalizing s with
  | nil => exact Nat.zero_le _
  | cons a actions ih =>
    rw [races,Nat.add_comm]
    exact Nat.le_trans (Nat.add_le_add_right (ih _) _) (act_way s a).2

private theorem races_ssh (s : RestartRunner) (hway : s.way≠.ssh) (actions : List Action) : s.races actions=0 := by
  induction actions generalizing s with
  | nil => rfl
  | cons a actions ih =>
    rw [races,ih _ ((act_way s a).1 ▸ hway)]
    cases a with
    | abort =>
      rw [race,decide_eq_false hway]
      rfl
    | _ => rfl

/-- Nothing is left to happen but what the reader does. -/
def Settled (s : RestartRunner) : Prop :=
  s.processRuns=false ∧ (s.worker=.none ∨ s.worker=.done) ∧ s.posted=[] ∧ s.later=none

/-- Whatever the order of the steps, a run has its end reported once. The exception is an SSH run given up while
its end is already on its way: then the reader is told twice, and that at most once. -/
theorem ends_reported (launch : Launch) (actions : List Action) :
    ((start launch).run actions).ends≤1+(start launch).races actions ∧
    (start launch).races actions≤1 ∧ ((start launch).way≠.ssh→(start launch).races actions=0) ∧
    (((start launch).run actions).Settled→((start launch).run actions).ends=1+(start launch).races actions) := by
  have h := (accounted_run (start_accounted launch) actions).count
  rw [Nat.zero_add] at h
  refine ⟨h ▸ Nat.le_add_right _ _,?_,fun hway => races_ssh _ hway actions,?_⟩
  · exact Nat.le_trans (races_le _ actions) (Bool.toNat_le _)
  · intro ⟨hruns,hworker,hposted,hlater⟩
    have hdue : ((start launch).run actions).due=0 := by
      rw [due,hruns,hposted,hlater]
      rcases hworker with hworker | hworker <;> rw [hworker] <;> rfl
    rw [hdue] at h
    exact h

example : ((start .ssh).run [.errandEnds (some 0) [],.abort,.post,.deliver,.fire]).ends=2 := rfl

/-! ## What of the output is shown -/

end RestartRunner

/-- Bytes with the stream they came on. -/
def tagged (bytes : Bytes) (isStdErr : Bool) : List (UInt8×Bool) := bytes.map (·,isStdErr)

def Emission.shown : Emission→List (UInt8×Bool)
  | .outputAppended bytes isStdErr => tagged bytes isStdErr
  | .finished _ => []

namespace RestartRunner

def shown (s : RestartRunner) : List (UInt8×Bool) := s.emitted.flatMap Emission.shown

/-- What a step has of the script's output to publish. -/
def arrivals (s : RestartRunner) : Action→List (UInt8×Bool)
  | .pump out err => if s.processRuns then tagged out false++tagged err true else []
  | .exited out err _ => if s.processRuns then tagged out false++tagged err true else []
  | .deliver =>
    match s.posted with
    | .chunk bytes isStdErr::_ => tagged bytes isStdErr
    | .scriptEnd _ output::_ => if s.alive then tagged output false else []
    | _ => []
  | _ => []

def arrived (s : RestartRunner) : List Action→List (UInt8×Bool)
  | [] => []
  | a::actions => s.arrivals a++arrived (s.act a) actions

/-- The output so far is shown up to the cap, and the flags say what the whole of it was. -/
structure Shows (s : RestartRunner) (output : List (UInt8×Bool)) : Prop where
  shown : s.shown=output.take kMaxOutputBytes
  bytesPublished : s.bytesPublished=min output.length kMaxOutputBytes
  truncated : s.truncated=decide (kMaxOutputBytes<output.length)
  sawStdErr : s.sawStdErr=output.any (·.2)

variable {s : RestartRunner} {output : List (UInt8×Bool)}

theorem shown_emit (s : RestartRunner) (e : Emission) : (s.emit e).shown=s.shown++e.shown := by
  rw [shown,emit,List.flatMap_append,List.flatMap_singleton]
  rfl

/-- What publishing a chunk shows. -/
theorem Shows.publish (h : s.Shows output) (bytes : Bytes) (isStdErr : Bool) :
    (s.publish bytes isStdErr).Shows (output++tagged bytes isStdErr) := by
  have hlength : (tagged bytes isStdErr).length=bytes.length := List.length_map _
  have hpublished := h.bytesPublished
  rw [RestartRunner.publish]
  split
  · rename_i hnil
    rw [hnil,tagged,List.map_nil,List.append_nil]
    exact h
  · rename_i hne
    have hpos : 0<bytes.length := List.length_pos_iff.mpr hne
    have hany : (s.sawStdErr || isStdErr)=(output++tagged bytes isStdErr).any (·.2) := by
      obtain ⟨b,rest,rfl⟩ := List.exists_cons_of_ne_nil hne
      rw [List.any_append,← h.sawStdErr]
      cases isStdErr <;> simp [tagged]
    dsimp only
    split
    · rename_i hfull
      have hover : kMaxOutputBytes≤output.length := by omega
      refine ⟨?_,?_,?_,hany⟩
      · rw [List.take_append_of_le_length hover]
        exact h.shown
      · show s.bytesPublished=_
        rw [List.length_append]
        omega
      · symm
        rw [decide_eq_true_iff,List.length_append]
        omega
    · rename_i hroom
      have hall : s.bytesPublished=output.length := by omega
      have hle : output.length≤kMaxOutputBytes := by omega
      refine ⟨?_,?_,?_,hany⟩
      · rw [shown_emit,List.take_append,List.take_of_length_le hle,hall]
        have hshown := h.shown
        rw [List.take_of_length_le hle] at hshown
        refine congrArg₂ (·++·) hshown ?_
        exact List.map_take
      · show s.bytesPublished+(bytes.take _).length=_
        rw [List.length_take,List.length_append,hlength]
        omega
      · show (s.truncated || _)=_
        rw [h.truncated,List.length_append,hlength,hall]
        rw [decide_eq_false (by omega : ¬kMaxOutputBytes<output.length),Bool.false_or]

theorem Shows.finish (h : s.Shows output) (result : RestartResult) : (s.finish result).Shows output := by
  refine ⟨?_,h.bytesPublished,h.truncated,h.sawStdErr⟩
  rw [RestartRunner.finish,shown_emit,Emission.shown,List.append_nil]
  exact h.shown

theorem Shows.drain (h : s.Shows output) (out err : Bytes) :
    (s.drainLocalOutput out err).Shows (output++(tagged out false++tagged err true)) := by
  rw [drainLocalOutput,← List.append_assoc]
  exact (h.publish out false).publish err true

private theorem start_shows (launch : Launch) : (start launch).Shows [] :=
    by cases launch <;> exact ⟨rfl,rfl,rfl,rfl⟩

/-- A step that publishes nothing. -/
theorem Shows.silent (h : s.Shows output) {s' : RestartRunner} (hemitted : s'.emitted=s.emitted)
    (hpublished : s'.bytesPublished=s.bytesPublished) (htruncated : s'.truncated=s.truncated)
    (hsaw : s'.sawStdErr=s.sawStdErr) : s'.Shows (output++[]) := by
  rw [List.append_nil]
  refine ⟨?_,hpublished.trans h.bytesPublished,htruncated.trans h.truncated,hsaw.trans h.sawStdErr⟩
  rw [RestartRunner.shown,hemitted]
  exact h.shown

private theorem shows_act (h : s.Shows output) (a : Action) : (s.act a).Shows (output++s.arrivals a) := by
  have hidle := h.silent rfl rfl rfl rfl
  cases a with
  | pump out err =>
    rw [act,arrivals]
    split
    · exact h.drain out err
    · exact hidle
  | exited out err code =>
    rw [act,arrivals]
    split
    · have hdrain := h.drain out err
      refine Shows.finish ?_ _
      exact ⟨hdrain.shown,hdrain.bytesPublished,hdrain.truncated,hdrain.sawStdErr⟩
    · exact hidle
  | failedToStart =>
    rw [act]
    split
    · refine Shows.finish ?_ _
      exact h.silent rfl rfl rfl rfl
    · exact hidle
  | chunkArrives bytes isStdErr =>
    rw [act]
    split
    · exact h.silent rfl rfl rfl rfl
    · exact hidle
  | errandEnds ran error =>
    rw [act]
    split
    · exact h.silent rfl rfl rfl rfl
    · exact hidle
  | scriptEnds ran output =>
    rw [act]
    split
    · exact h.silent rfl rfl rfl rfl
    · exact hidle
  | post =>
    rw [act]
    split
    · exact h.silent rfl rfl rfl rfl
    · exact h.silent rfl rfl rfl rfl
    · exact hidle
  | deliver =>
    rw [act,arrivals]
    split
    · rename_i hposted
      rw [hposted]
      exact hidle
    · rename_i first rest hposted
      have hrest : ({s with posted := rest}).Shows output := ⟨h.shown,h.bytesPublished,h.truncated,h.sawStdErr⟩
      rw [hposted]
      cases first with
      | chunk bytes isStdErr => exact hrest.publish bytes isStdErr
      | errandEnd result =>
        refine Shows.finish ?_ _
        exact h.silent rfl rfl rfl rfl
      | scriptEnd ran output =>
        rw [receive]
        split
        · refine Shows.finish ?_ _
          exact hrest.publish output false
        · exact h.silent rfl rfl rfl rfl
  | fire =>
    rw [act]
    split
    · rename_i result hlater
      have hnone : s.arrivals .fire=[] := rfl
      rw [hnone,List.append_nil]
      refine ⟨?_,h.bytesPublished,h.truncated,h.sawStdErr⟩
      rw [shown_emit,Emission.shown,List.append_nil]
      exact h.shown
    · exact hidle
  | abort =>
    rw [act,stop]
    split
    · exact hidle
    · split
      · exact h.silent rfl rfl rfl rfl
      · exact h.silent rfl rfl rfl rfl
      · exact h.silent rfl rfl rfl rfl

private theorem shows_run (h : s.Shows output) (actions : List Action) : (s.run actions).Shows
    (output++s.arrived actions) := by
  induction actions generalizing s output with
  | nil => rwa [arrived,List.append_nil]
  | cons a actions ih =>
    rw [arrived,← List.append_assoc]
    exact ih (shows_act h a)

/-- Over a whole run the reader is shown the first megabyte of what arrived, stream by stream and in order. The
rest is dropped just where there is more, and any byte of standard error is noted, dropped or not. -/
theorem output_capped (launch : Launch) (actions : List Action) :
    ((start launch).run actions).shown=((start launch).arrived actions).take kMaxOutputBytes ∧
    ((start launch).run actions).truncated=decide (kMaxOutputBytes<((start launch).arrived actions).length) ∧
    ((start launch).run actions).sawStdErr=((start launch).arrived actions).any (·.2) := by
  have h := shows_run (start_shows launch) actions
  rw [List.nil_append] at h
  exact ⟨h.shown,h.truncated,h.sawStdErr⟩

end RestartRunner

end Loftail.Restart
