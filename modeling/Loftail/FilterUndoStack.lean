import Mathlib.Data.List.Chain
import Mathlib.Data.Nat.Notation

/-! # One log's filter history

The states behind and ahead of the one on screen are two stacks. An edit pushes, an undo and a
redo move the state on screen from one stack to the other, and a run of continuous edits shares
one entry. -/
namespace Loftail

/-- The two stacks are kept newest first. -/
structure FilterUndoStack (State : Type) where
  baseline : State
  haveBaseline : Bool
  lastWasContinuous : Bool
  undoStates : List State
  redoStates : List State
  deriving DecidableEq

namespace FilterUndoStack

def kMaxDepth : ℕ := 100

section Operations
variable {State : Type}

def fresh [Inhabited State] : FilterUndoStack State := ⟨default,false,false,[],[]⟩

/-- An entry onto a stack of at most `kMaxDepth`: the oldest one goes. -/
def push (state : State) (states : List State) : List State :=
  if (state::states).length>kMaxDepth then (state::states).dropLast else state::states

/-- Whether an edit joins the run of the edit before it. -/
def merges (s : FilterUndoStack State) (continuous : Bool) : Bool :=
  continuous && s.lastWasContinuous && !s.undoStates.isEmpty

def record [DecidableEq State] (s : FilterUndoStack State) (state : State) (continuous : Bool) :
    FilterUndoStack State :=
  if !s.haveBaseline then {s with baseline := state,haveBaseline := true,lastWasContinuous := continuous}
  else if state=s.baseline then s
  else {s with undoStates := if s.merges continuous then s.undoStates else push s.baseline s.undoStates
               redoStates := []
               baseline := state
               lastWasContinuous := continuous}

def breakRun (s : FilterUndoStack State) : FilterUndoStack State := {s with lastWasContinuous := false}

def canUndo (s : FilterUndoStack State) : Bool := !s.undoStates.isEmpty

def canRedo (s : FilterUndoStack State) : Bool := !s.redoStates.isEmpty

/-- The state to restore and what is left; nothing where `canUndo` says no. -/
def undo (s : FilterUndoStack State) : Option (State×FilterUndoStack State) :=
  match s.undoStates with
  | [] => none
  | state::states => some (state,{s with redoStates := s.baseline::s.redoStates,baseline := state
                                         undoStates := states,lastWasContinuous := false})

def redo (s : FilterUndoStack State) : Option (State×FilterUndoStack State) :=
  match s.redoStates with
  | [] => none
  | state::states => some (state,{s with undoStates := s.baseline::s.undoStates,baseline := state
                                         redoStates := states,lastWasContinuous := false})

def settle (s : FilterUndoStack State) (actual : State) : FilterUndoStack State :=
  {s with baseline := actual,haveBaseline := true,lastWasContinuous := false}

theorem undo_isSome (s : FilterUndoStack State) : s.undo.isSome=s.canUndo := by
  cases h : s.undoStates <;> simp [undo,canUndo,h]

theorem redo_isSome (s : FilterUndoStack State) : s.redo.isSome=s.canRedo := by
  cases h : s.redoStates <;> simp [redo,canRedo,h]

/-- The state on screen and the two stacks. -/
def contents (s : FilterUndoStack State) : State×List State×List State := (s.baseline,s.undoStates,s.redoStates)

/-- What an undo puts back is on screen, and the other stack leads back. -/
theorem undo_redo {s t : FilterUndoStack State} {state : State} (h : s.undo=some (state,t)) : t.baseline=state ∧
    t.redo.map (fun r => r.2.contents)=some s.contents ∧
      (t.settle state).redo.map (fun r => r.2.contents)=some s.contents := by
  unfold undo at h
  split at h
  · cases h
  · rename_i back rest hs
    obtain ⟨rfl,rfl⟩ := Prod.mk.inj (Option.some.inj h)
    refine ⟨rfl,?_,?_⟩ <;> simp [redo,settle,contents,hs]

private theorem redo_undo {s t : FilterUndoStack State} {state : State} (h : s.redo=some (state,t)) :
    t.baseline=state ∧
    t.undo.map (fun r => r.2.contents)=some s.contents ∧
      (t.settle state).undo.map (fun r => r.2.contents)=some s.contents := by
  unfold redo at h
  split at h
  · cases h
  · rename_i ahead rest hs
    obtain ⟨rfl,rfl⟩ := Prod.mk.inj (Option.some.inj h)
    refine ⟨rfl,?_,?_⟩ <;> simp [undo,settle,contents,hs]

private theorem length_push (state : State) {states : List State} {n : ℕ} (h : states.length+n≤kMaxDepth) :
    (push state states).length≤kMaxDepth := by
  unfold push
  split
  · simp only [List.length_dropLast,List.length_cons]
    omega
  · rename_i hle
    exact not_lt.mp hle

private theorem push_prefix (state : State) (states : List State) : push state states<+:state::states := by
  unfold push
  split
  · exact List.dropLast_prefix _
  · exact List.prefix_rfl

private theorem push_ne_nil (state : State) (states : List State) : push state states≠[] := by
  unfold push
  split
  · rename_i h
    intro hnil
    have hlen := congrArg List.length hnil
    rw [List.length_dropLast,List.length_nil] at hlen
    have : kMaxDepth=100 := rfl
    omega
  · exact List.cons_ne_nil _ _

end Operations

section Invariants
variable {State : Type} {s : FilterUndoStack State}

/-- What holds of the history whatever was called. -/
structure Sound (s : FilterUndoStack State) : Prop where
  depth : s.undoStates.length+s.redoStates.length≤kMaxDepth
  started : s.haveBaseline=false→s.undoStates=[] ∧ s.redoStates=[]

/-- No two neighbours on the way from the oldest state to the newest are equal. -/
structure Stepping (s : FilterUndoStack State) : Prop where
  back : (s.baseline::s.undoStates).IsChain (·≠·)
  ahead : (s.baseline::s.redoStates).IsChain (·≠·)

/-- Every undo and every redo there is shows another state. -/
def EveryPressMoves (s : FilterUndoStack State) : Prop :=
  (∀r∈s.undo,r.2.baseline≠s.baseline) ∧ ∀r∈s.redo,r.2.baseline≠s.baseline

/-- A continuous edit that joins a run and brings back the state the run began with. -/
def Returns (s : FilterUndoStack State) (state : State) (continuous : Bool) : Prop :=
  s.merges continuous=true ∧ state≠s.baseline ∧ s.undoStates.head?=some state

theorem Sound.fresh [Inhabited State] : Sound (fresh : FilterUndoStack State) where
  depth := Nat.zero_le _
  started _ := ⟨rfl,rfl⟩

theorem Stepping.fresh [Inhabited State] : Stepping (fresh : FilterUndoStack State) :=
  ⟨List.isChain_singleton _,List.isChain_singleton _⟩

theorem undo_eq_some {r : State×FilterUndoStack State} (h : s.undo=some r) : ∃states,s.undoStates=r.1::states ∧
    r.2={s with redoStates := s.baseline::s.redoStates,baseline := r.1
                undoStates := states,lastWasContinuous := false} := by
  unfold undo at h
  split at h
  · cases h
  · rename_i state states hs
    obtain rfl := Option.some.inj h
    exact ⟨states,hs,rfl⟩

theorem redo_eq_some {r : State×FilterUndoStack State} (h : s.redo=some r) : ∃states,s.redoStates=r.1::states ∧
    r.2={s with undoStates := s.baseline::s.undoStates,baseline := r.1
                redoStates := states,lastWasContinuous := false} := by
  unfold redo at h
  split at h
  · cases h
  · rename_i state states hs
    obtain rfl := Option.some.inj h
    exact ⟨states,hs,rfl⟩

theorem Stepping.moves (h : Stepping s) : s.EveryPressMoves := by
  constructor
  · intro r hr
    obtain ⟨states,hs,hr⟩ := undo_eq_some hr
    have hb := h.back
    rw [hs,List.isChain_cons_cons] at hb
    rw [hr]
    exact hb.1.symm
  · intro r hr
    obtain ⟨states,hs,hr⟩ := redo_eq_some hr
    have ha := h.ahead
    rw [hs,List.isChain_cons_cons] at ha
    rw [hr]
    exact ha.1.symm

theorem Sound.undo (h : Sound s) {r : State×FilterUndoStack State} (hr : s.undo=some r) : Sound r.2 := by
  obtain ⟨states,hs,hr⟩ := undo_eq_some hr
  have hd := h.depth
  rw [hs,List.length_cons] at hd
  rw [hr]
  constructor
  · simp only [List.length_cons]
    omega
  · intro hb
    rw [(h.started hb).1] at hs
    cases hs

theorem Sound.redo (h : Sound s) {r : State×FilterUndoStack State} (hr : s.redo=some r) : Sound r.2 := by
  obtain ⟨states,hs,hr⟩ := redo_eq_some hr
  have hd := h.depth
  rw [hs,List.length_cons] at hd
  rw [hr]
  constructor
  · simp only [List.length_cons]
    omega
  · intro hb
    rw [(h.started hb).2] at hs
    cases hs

/-- An undo hands the state on screen to the other stack, next to the one it puts back. -/
theorem Stepping.undo (h : Stepping s) {r : State×FilterUndoStack State} (hr : s.undo=some r) : Stepping r.2 := by
  have hmoves := h.moves.1 r hr
  obtain ⟨states,hs,hr⟩ := undo_eq_some hr
  have hb := h.back
  rw [hs,List.isChain_cons_cons] at hb
  rw [hr] at hmoves ⊢
  exact ⟨hb.2,List.isChain_cons_cons.mpr ⟨hmoves,h.ahead⟩⟩

theorem Stepping.redo (h : Stepping s) {r : State×FilterUndoStack State} (hr : s.redo=some r) : Stepping r.2 := by
  have hmoves := h.moves.2 r hr
  obtain ⟨states,hs,hr⟩ := redo_eq_some hr
  have ha := h.ahead
  rw [hs,List.isChain_cons_cons] at ha
  rw [hr] at hmoves ⊢
  exact ⟨List.isChain_cons_cons.mpr ⟨hmoves,h.back⟩,ha.2⟩

/-- A call on the history. -/
inductive Call (State : Type)
  | record (state : State) (continuous : Bool)
  | breakRun
  | undo
  | redo
  | settle (actual : State)

/-- The history and the state an undo or a redo has just put back. -/
structure Session (State : Type) where
  stack : FilterUndoStack State
  putBack : Option State
  deriving DecidableEq

/-- What a session keeps: a sound history, and what was just put back is on screen. -/
structure Session.Held (s : Session State) : Prop where
  sound : Sound s.stack
  shown : ∀state∈s.putBack,s.stack.baseline=state ∧ s.stack.haveBaseline=true

theorem Session.Held.fresh [Inhabited State] : Held (⟨.fresh,none⟩ : Session State) :=
  ⟨.fresh,fun _ h => by cases h⟩

end Invariants

section Runs
variable {State : Type} [DecidableEq State] {s : FilterUndoStack State}

/-- What an edit does: the first one is where the log's filters start, one that moved nothing
changes nothing, one that joins its run pushes nothing. -/
theorem record_cases (s : FilterUndoStack State) (state : State) (continuous : Bool) :
    (s.haveBaseline=false ∧ s.record state continuous={s with
      baseline := state,haveBaseline := true,lastWasContinuous := continuous}) ∨
    (s.haveBaseline=true ∧ state=s.baseline ∧ s.record state continuous=s) ∨
    (s.haveBaseline=true ∧ state≠s.baseline ∧ s.merges continuous=true ∧ s.record state continuous={s with
      redoStates := [],baseline := state,lastWasContinuous := continuous}) ∨
    (s.haveBaseline=true ∧ state≠s.baseline ∧ s.merges continuous=false ∧ s.record state continuous={s with
      undoStates := push s.baseline s.undoStates,redoStates := [],baseline := state
      lastWasContinuous := continuous}) := by
  unfold record
  cases hb : s.haveBaseline with
  | false => exact Or.inl ⟨rfl,by simp⟩
  | true =>
    apply Or.inr
    by_cases he : state=s.baseline
    · exact Or.inl ⟨rfl,he,by simp [he]⟩
    · apply Or.inr
      cases hm : s.merges continuous with
      | true => exact Or.inl ⟨rfl,he,rfl,by simp [he]⟩
      | false => exact Or.inr ⟨rfl,he,rfl,by simp [he]⟩

/-- An edit that changed the state leaves no way forward. -/
theorem record_redo (h : Sound s) {state : State} (hne : state≠s.baseline) (continuous : Bool) :
    (s.record state continuous).redoStates=[] := by
  obtain ⟨hb,he⟩ | ⟨-,heq,-⟩ | ⟨-,-,-,he⟩ | ⟨-,-,-,he⟩ := s.record_cases state continuous
  · rw [he]
    exact (h.started hb).2
  · exact absurd heq hne
  · rw [he]
  · rw [he]

theorem Sound.record (h : Sound s) (state : State) (continuous : Bool) : Sound (s.record state continuous) := by
  obtain ⟨-,he⟩ | ⟨-,-,he⟩ | ⟨hb,-,-,he⟩ | ⟨hb,-,-,he⟩ := s.record_cases state continuous
  · rw [he]
    exact ⟨h.depth,fun hf => by cases hf⟩
  · rwa [he]
  · rw [he]
    refine ⟨?_,fun hf => by simp [hb] at hf⟩
    exact (Nat.le_add_right _ _).trans h.depth
  · rw [he]
    exact ⟨length_push _ h.depth,fun hf => by simp [hb] at hf⟩

/-- An edit keeps neighbours apart unless it returned. -/
theorem Stepping.record (h : Stepping s) (hs : Sound s) {state : State} {continuous : Bool}
    (hr : ¬s.Returns state continuous) : Stepping (s.record state continuous) := by
  obtain ⟨hb,he⟩ | ⟨-,-,he⟩ | ⟨-,hne,hmerge,he⟩ | ⟨-,hne,-,he⟩ := s.record_cases state continuous
  · rw [he]
    obtain ⟨hu,hr⟩ := hs.started hb
    constructor
    · simp [hu]
    · simp [hr]
  · rwa [he]
  · rw [he]
    refine ⟨?_,List.isChain_singleton _⟩
    have hback := h.back
    cases hu : s.undoStates with
    | nil => simp
    | cons u us =>
      rw [hu,List.isChain_cons_cons] at hback
      refine List.isChain_cons_cons.mpr ⟨fun hsu => hr ⟨hmerge,hne,?_⟩,hback.2⟩
      rw [hu]
      exact congrArg some hsu.symm
  · rw [he]
    refine ⟨?_,List.isChain_singleton _⟩
    obtain ⟨rest,hrest⟩ := push_prefix s.baseline s.undoStates
    cases hp : push s.baseline s.undoStates with
    | nil => exact absurd hp (push_ne_nil _ _)
    | cons u us =>
      rw [hp] at hrest
      obtain ⟨rfl,hus⟩ := List.cons.inj hrest
      have hback := h.back
      rw [← hus] at hback
      refine List.isChain_cons_cons.mpr ⟨hne,?_⟩
      exact hback.prefix ⟨rest,rfl⟩

/-- After an edit that returned, the undo shows what is on screen. -/
theorem Returns.stuck {state : State} {continuous : Bool} (h : s.Returns state continuous) (hs : Sound s) :
    ¬(s.record state continuous).EveryPressMoves := by
  obtain ⟨hmerge,hne,hhead⟩ := h
  obtain ⟨hb,-⟩ | ⟨-,heq,-⟩ | ⟨-,-,-,he⟩ | ⟨-,-,hno,-⟩ := s.record_cases state continuous
  · rw [(hs.started hb).1] at hhead
    cases hhead
  · exact absurd heq hne
  · intro hmoves
    cases hu : s.undoStates with
    | nil => rw [hu] at hhead; cases hhead
    | cons u us =>
      rw [hu] at hhead
      obtain rfl := Option.some.inj hhead
      rw [he] at hmoves
      have hundo : ({s with redoStates := [],baseline := u,lastWasContinuous := continuous} :
        FilterUndoStack State).undo=
        some (u,{s with redoStates := [u],baseline := u,undoStates := us,lastWasContinuous := false}) :=
          by simp [undo,hu]
      exact hmoves.1 _ hundo rfl
  · rw [hmerge] at hno
    cases hno

/-- A call, where it is allowed: an undo and a redo of something, a settling with what was put back. -/
def Session.step (s : Session State) : Call State→Option (Session State)
  | .record state continuous => some ⟨s.stack.record state continuous,none⟩
  | .breakRun => some ⟨s.stack.breakRun,s.putBack⟩
  | .undo => s.stack.undo.map fun r => ⟨r.2,some r.1⟩
  | .redo => s.stack.redo.map fun r => ⟨r.2,some r.1⟩
  | .settle actual => if s.putBack=some actual then some ⟨s.stack.settle actual,s.putBack⟩ else none

def Session.play (s : Session State) : List (Call State)→Option (Session State)
  | [] => some s
  | call::calls => (s.step call).bind fun t => t.play calls

/-- No edit of these calls returns to where its run began. -/
def Session.NoReturn (s : Session State) : List (Call State)→Prop
  | [] => True
  | call::calls => (∀state continuous,call=.record state continuous→¬s.stack.Returns state continuous) ∧
      ∀t∈s.step call,t.NoReturn calls

theorem Session.Held.step {s t : Session State} (h : s.Held) {call : Call State}
    (ht : s.step call=some t) : t.Held := by
  cases call with
  | record state continuous =>
    obtain rfl := Option.some.inj ht
    exact ⟨h.sound.record state continuous,fun _ hn => by cases hn⟩
  | breakRun =>
    obtain rfl := Option.some.inj ht
    exact ⟨⟨h.sound.depth,h.sound.started⟩,h.shown⟩
  | undo =>
    obtain ⟨r,hr,rfl⟩ := Option.map_eq_some_iff.mp ht
    have hs := h.sound.undo hr
    refine ⟨hs,fun state hstate => ?_⟩
    obtain rfl := Option.some.inj hstate
    obtain ⟨states,hu,he⟩ := undo_eq_some hr
    refine ⟨by rw [he],?_⟩
    rw [he]
    cases hb : s.stack.haveBaseline with
    | true => rfl
    | false => rw [(h.sound.started hb).1] at hu; cases hu
  | redo =>
    obtain ⟨r,hr,rfl⟩ := Option.map_eq_some_iff.mp ht
    have hs := h.sound.redo hr
    refine ⟨hs,fun state hstate => ?_⟩
    obtain rfl := Option.some.inj hstate
    obtain ⟨states,hu,he⟩ := redo_eq_some hr
    refine ⟨by rw [he],?_⟩
    rw [he]
    cases hb : s.stack.haveBaseline with
    | true => rfl
    | false => rw [(h.sound.started hb).2] at hu; cases hu
  | settle actual =>
    rw [Session.step] at ht
    split at ht
    · obtain rfl := Option.some.inj ht
      rename_i hput
      refine ⟨⟨h.sound.depth,fun hf => by cases hf⟩,fun state hstate => ⟨?_,rfl⟩⟩
      exact Option.some.inj (hput.symm.trans hstate)
    · cases ht

/-- A call that is no return keeps neighbours apart. -/
theorem Session.stepping {s t : Session State} (h : s.Held) (hs : Stepping s.stack) {call : Call State}
    (hr : ∀state continuous,call=.record state continuous→¬s.stack.Returns state continuous)
    (ht : s.step call=some t) : Stepping t.stack := by
  cases call with
  | record state continuous =>
    obtain rfl := Option.some.inj ht
    exact hs.record h.sound (hr state continuous rfl)
  | breakRun =>
    obtain rfl := Option.some.inj ht
    exact ⟨hs.back,hs.ahead⟩
  | undo =>
    obtain ⟨r,hr,rfl⟩ := Option.map_eq_some_iff.mp ht
    exact hs.undo hr
  | redo =>
    obtain ⟨r,hr,rfl⟩ := Option.map_eq_some_iff.mp ht
    exact hs.redo hr
  | settle actual =>
    rw [Session.step] at ht
    split at ht
    · obtain rfl := Option.some.inj ht
      rename_i hput
      have hshown := (h.shown actual hput).1
      exact ⟨by rw [← hshown]; exact hs.back,by rw [← hshown]; exact hs.ahead⟩
    · cases ht

theorem Session.Held.play {s t : Session State} (h : s.Held) {calls : List (Call State)}
    (ht : s.play calls=some t) :
    t.Held := by
  induction calls generalizing s with
  | nil =>
    obtain rfl := Option.some.inj ht
    exact h
  | cons call calls ih =>
    obtain ⟨u,hu,hplay⟩ := Option.bind_eq_some_iff.mp ht
    exact ih (h.step hu) hplay

/-- Every press moves in every state reached exactly when no edit returns. -/
theorem Session.moves_iff {s : Session State} (h : s.Held) (hs : Stepping s.stack) (calls : List (Call State)) :
    (∀front t,front<+:calls→s.play front=some t→t.stack.EveryPressMoves) ↔ s.NoReturn calls := by
  induction calls generalizing s with
  | nil =>
    refine iff_of_true (fun front t hf ht => ?_) trivial
    obtain rfl := List.prefix_nil.mp hf
    obtain rfl := Option.some.inj ht
    exact hs.moves
  | cons call calls ih =>
    rw [NoReturn]
    constructor
    · intro hall
      have hno : ∀state continuous,call=.record state continuous→¬s.stack.Returns state continuous := by
        intro state continuous hcall hreturn
        obtain rfl := hcall
        refine hreturn.stuck h.sound ?_
        exact hall [.record state continuous] ⟨_,none⟩ ⟨calls,rfl⟩ rfl
      refine ⟨hno,fun t ht => (ih (h.step ht) (stepping h hs hno ht)).mp fun front u hf hu => ?_⟩
      refine hall (call::front) u ?_ ?_
      · exact List.cons_prefix_cons.mpr ⟨rfl,hf⟩
      · rw [play,ht]
        exact hu
    · rintro ⟨hno,hrest⟩ front t hf ht
      cases front with
      | nil =>
        obtain rfl := Option.some.inj ht
        exact hs.moves
      | cons c front =>
        obtain ⟨rfl,hfront⟩ := List.cons_prefix_cons.mp hf
        obtain ⟨u,hu,hplay⟩ := Option.bind_eq_some_iff.mp ht
        exact (ih (h.step hu) (stepping h hs hno hu)).mpr (hrest u hu) front t hfront hplay

/-- The history of a log, however it is used: both stacks together stay within the depth, an undo
and a redo take each other back, an edit that changed the filters leaves no way forward, and every
press shows another state exactly when no edit returns to the state its run began with. -/
theorem filter_history [Inhabited State] (calls : List (Call State)) {s : Session State}
    (h : (⟨.fresh,none⟩ : Session State).play calls=some s) :
    s.stack.undoStates.length+s.stack.redoStates.length≤kMaxDepth ∧
    (∀r∈s.stack.undo,r.2.baseline=r.1 ∧ r.2.redo.map (fun back => back.2.contents)=some s.stack.contents ∧
      (r.2.settle r.1).redo.map (fun back => back.2.contents)=some s.stack.contents) ∧
    (∀r∈s.stack.redo,r.2.baseline=r.1 ∧ r.2.undo.map (fun back => back.2.contents)=some s.stack.contents ∧
      (r.2.settle r.1).undo.map (fun back => back.2.contents)=some s.stack.contents) ∧
    (∀state continuous,state≠s.stack.baseline→(s.stack.record state continuous).redoStates=[]) ∧
    ((∀front t,front<+:calls→(⟨.fresh,none⟩ : Session State).play front=some t→t.stack.EveryPressMoves) ↔
      (⟨.fresh,none⟩ : Session State).NoReturn calls) := by
  have hheld : s.Held := Session.Held.fresh.play h
  refine ⟨hheld.sound.depth,fun r hr => undo_redo hr,fun r hr => redo_undo hr,?_,?_⟩
  · intro state continuous hne
    exact record_redo hheld.sound hne continuous
  · exact Session.moves_iff .fresh .fresh calls

end Runs

/-- A query of three letters typed, a level chosen, and one of the two taken back. -/
theorem filter_history_typed : ∃s : Session String,
    (⟨.fresh,none⟩ : Session String).play [.record "" false,.record "q" true,.record "qu" true,.breakRun,
      .record "qu ERROR" false,.undo,.settle "qu"]=some s ∧
    s.stack.undoStates.length+s.stack.redoStates.length≤kMaxDepth := by
  refine ⟨⟨⟨"qu",true,false,[""],["qu ERROR"]⟩,some "qu"⟩,by decide,?_⟩
  exact (filter_history [.record "" false,.record "q" true,.record "qu" true,.breakRun,
    .record "qu ERROR" false,.undo,.settle "qu"] (by decide)).1

/-- A letter typed and rubbed out again leaves an entry that an undo takes back to what is shown. -/
theorem filter_history_rubbed_out : ¬∀(calls : List (Call String)) (s : Session String),
    (⟨.fresh,none⟩ : Session String).play calls=some s→s.stack.EveryPressMoves := by
  intro hall
  have hplay : (⟨.fresh,none⟩ : Session String).play [.record "" false,.record "q" true,.record "" true]=
    some ⟨⟨"",true,true,[""],[]⟩,none⟩ := by decide
  exact (hall _ _ hplay).1 ("",⟨"",true,false,[],[""]⟩) (by decide) rfl

end FilterUndoStack

end Loftail
