import Loftail.FrameCap
import Loftail.SerialLoginMachine
import Loftail.StaleFrames

/-! # Commands on a device's console

One session runs one command at a time over a link that carries everything the device prints. An answer that
comes after its command has been given up is printed all the same, and is read by a later command. -/
namespace Loftail

/-- A session that is signed in, or was. -/
structure ConsoleSession where
  /-- 64 random bits. -/
  tokenBase : ℕ
  frameCounter : ℕ
  pending : Bytes
  login : Option SerialLoginMachine
  linkOpen : Bool
  ready : Bool
  safetySettled : Bool
  rebooted : Bool
  aborted : Bool

/-- What a caller asks for, and whether the link takes its line. -/
structure ConsoleRequest where
  command : Bytes
  expected : ℤ
  keepStdErr : Bool
  taken : Bool

/-- How a command ends: a failure of the link, or an answer; one that arrived damaged is empty. -/
inductive ConsoleResult
  | link
  | answered (output : Bytes) (exitCode : Option ℤ)
  deriving DecidableEq

/-- The device: the lines it was given and has not run yet, what it printed that is not read yet, how much of
that it printed since the last frame, and the frames. -/
structure FarEnd where
  asked : List (SerialFrame×Bytes)
  wire : Bytes
  loose : Bytes
  answered : List (SerialFrame×Bytes×ℤ)

namespace FarEnd

def prints (far : FarEnd) (text : Bytes) : FarEnd := {far with wire := far.wire++text,loose := far.loose++text}

/-- The oldest line is run. -/
def answers (far : FarEnd) (payload : Bytes) (code : ℤ) : FarEnd :=
  match far.asked with
  | [] => far
  | (frame,_)::asked =>
    ⟨asked,far.wire++framed frame.token payload code,[],far.answered++[(frame,payload,code)]⟩

end FarEnd

/-- A session, its device, and the command that is running with what it has read. -/
structure ConsoleRun where
  session : ConsoleSession
  far : FarEnd
  active : Option (SerialFrame×Bytes)
  results : List (Option SerialFrame×ConsoleResult)

/-- What happens next: `turn` is one pass of the loop that reads what has come, up to so many bytes. -/
inductive CommandEvent
  | asks (request : ConsoleRequest)
  | prints (text : Bytes)
  | answers (payload : Bytes) (code : ℤ)
  | turn (n : ℕ) (nowMs : ℤ)
  | expires
  | closes
  | aborts

namespace ConsoleSession

def nextFrame (s : ConsoleSession) (expected : ℤ) : SerialFrame :=
    ⟨frameToken s.tokenBase (s.frameCounter+1),expected⟩

def dropSession (s : ConsoleSession) : ConsoleSession :=
  {s with linkOpen := false,login := none,ready := false,safetySettled := false,pending := [],aborted := false}

end ConsoleSession

namespace ConsoleRun

/-- The running command ends. -/
def ends (r : ConsoleRun) (frame : SerialFrame) (result : ConsoleResult) (session : ConsoleSession) : ConsoleRun :=
  {r with session,active := none,results := r.results++[(some frame,result)]}

def asks (r : ConsoleRun) (request : ConsoleRequest) : ConsoleRun :=
  -- one command at a time
  if r.active.isSome then r
  else if !r.session.ready || !r.session.linkOpen then {r with results := r.results++[(none,.link)]}
  else
    let frame := r.session.nextFrame request.expected
    let session := {r.session with frameCounter := r.session.frameCounter+1}
    if !request.taken then r.ends frame .link session
    else
      {r with
        session := {session with pending := []}
        active := some (frame,r.session.pending)
        far := {r.far with asked := r.far.asked++[(frame,framedCommand request.command frame request.keepStdErr)]}}

/-- What has come is taken into the buffer, and shown to the login machine, which knows a reboot. -/
def takes (r : ConsoleRun) (frame : SerialFrame) (buffer chunk : Bytes) (nowMs : ℤ) : ConsoleRun :=
  let r := {r with active := some (frame,capFrameBuffer (buffer++chunk) frame)}
  match r.session.login with
  | none => r
  | some login =>
    let (login,seen) := login.feed chunk nowMs
    if seen.kind=.reboot then r.ends frame .link {r.session with rebooted := true}.dropSession
    else {r with session := {r.session with login := some login}}

def turn (r : ConsoleRun) (n : ℕ) (nowMs : ℤ) : ConsoleRun :=
  match r.active with
  | none => r
  | some (frame,buffer) =>
    if r.session.aborted then r.ends frame .link r.session
    else
      let answer := readFramedAnswer buffer frame
      let session := {r.session with pending := capFrameBuffer (buffer.drop answer.consumed) frame}
      match answer.state with
      | .complete => r.ends frame (.answered answer.output (some answer.exitCode)) session
      | .corrupt => r.ends frame (.answered [] none) session
      | .incomplete =>
        let chunk := r.far.wire.take n
        if chunk=[] then if r.session.linkOpen then r else r.ends frame .link r.session
        else {r with far := {r.far with wire := r.far.wire.drop n}}.takes frame buffer chunk nowMs

def step (r : ConsoleRun) : CommandEvent → ConsoleRun
  | .asks request => r.asks request
  | .prints text => {r with far := r.far.prints text}
  | .answers payload code => {r with far := r.far.answers payload code}
  | .turn n nowMs => r.turn n nowMs
  | .expires =>
    match r.active with
    | none => r
    | some (frame,buffer) => r.ends frame .link {r.session with pending := capFrameBuffer buffer frame}
  | .closes => {r with session := {r.session with linkOpen := false}}
  | .aborts => {r with session := {r.session with aborted := true}}

def run (r : ConsoleRun) (events : List CommandEvent) : ConsoleRun := events.foldl step r

/-- A session just made ready, on a link nobody has spoken on. -/
def signedIn (tokenBase frameCounter : ℕ) (login : Option SerialLoginMachine) : ConsoleRun :=
  ⟨⟨tokenBase,frameCounter,[],login,true,true,true,false,false⟩,⟨[],[],[],[]⟩,none,[]⟩

end ConsoleRun

/-! ## What the device has printed and is not read -/

/-- Nothing of a session's frames. -/
def FrameFree (base : ℕ) (text : Bytes) : Prop :=
  Unmarked (beginMarker (hex base)) text ∧ ¬endMarker (hex base)<:+:text

/-- The lines given to the device are the session's own, up to a command. -/
def AskedUpTo (base counter : ℕ) (asked : List (SerialFrame×Bytes)) : Prop :=
  ∀line∈asked,∃c≤counter,line.1.token=frameToken base c

/-- No line opens a frame of a later command. -/
def PassedAfter (base counter : ℕ) (text : Bytes) : Prop :=
  ∀later,counter < later→Passed (beginMarker (frameToken base later)) text

/-- Between two commands: what is not read holds earlier answers at most. -/
structure Idle (base counter : ℕ) (pending : Bytes) (far : FarEnd) : Prop where
  asked : AskedUpTo base counter far.asked
  text : ∃old,pending++far.wire=old++far.loose ∧ PassedAfter base counter old

/-- A command that the device has not run yet. -/
structure Unanswered (base counter : ℕ) (frame : SerialFrame) (buffer : Bytes) (far : FarEnd) : Prop where
  asked : ∃older line,far.asked=older++[(frame,line)] ∧ AskedUpTo base counter older
  text : ∃old,buffer++far.wire=old++far.loose ∧ PassedAfter base counter old

/-- A command whose frame has been printed. -/
structure Replied (base counter : ℕ) (frame : SerialFrame) (buffer : Bytes) (far : FarEnd) : Prop where
  asked : far.asked=[]
  text : ∃noise payload code,buffer++far.wire=noise++framed frame.token payload code++far.loose ∧
    (∀later,counter < later→Unmarked (beginMarker (frameToken base later)) noise) ∧
    Unmarked (beginMarker (hex base)) payload ∧ frame.Carries payload ∧ isInt code=true ∧
    (frame,payload,code)∈far.answered

variable {base counter : ℕ} {pending buffer text payload : Bytes} {far : FarEnd} {frame : SerialFrame} {code : ℤ}

theorem frameFree_nil (base : ℕ) : FrameFree base [] := by
  constructor
  · apply unmarked_line List.not_mem_nil
    intro hprefix
    cases List.prefix_nil.mp hprefix
  · intro hinfix
    cases List.infix_nil.mp hinfix

theorem FrameFree.unmarked (h : FrameFree base text) (later : ℕ) :
    Unmarked (beginMarker (frameToken base later)) text :=
  h.1.longer (prefix_begin base later)

theorem FrameFree.no_end (h : FrameFree base text) {part : Bytes} (hpart : part<:+:text) (later : ℕ) :
    ¬endMarker (frameToken base later)<:+:part :=
  fun hinfix => h.2 (((prefix_end base later).isInfix.trans hinfix).trans hpart)

/-- An earlier frame is one more thing that a later command passes over. -/
theorem PassedAfter.framed {c : ℕ} {old loose : Bytes} (h : PassedAfter base counter old) (hc : c≤counter)
    (hloose : FrameFree base loose) (hpayload : Unmarked (beginMarker (hex base)) payload) :
    PassedAfter base counter (old++loose++framed (frameToken base c) payload code) := by
  intro later hlater
  exact framed_passed (by omega) (h later hlater) (hloose.unmarked later)
    (hpayload.longer (prefix_begin base later))

theorem answers_first {line : Bytes} {rest : List (SerialFrame×Bytes)} (h : far.asked=(frame,line)::rest) :
    far.answers payload code=
      ⟨rest,far.wire++framed frame.token payload code,[],far.answered++[(frame,payload,code)]⟩ := by
  rw [FarEnd.answers,h]

theorem Idle.prints (h : Idle base counter pending far) (text : Bytes) : Idle base counter pending
    (far.prints text) := by
  obtain ⟨old,hold,hpassed⟩ := h.text
  refine ⟨h.asked,old,?_,hpassed⟩
  rw [FarEnd.prints,← List.append_assoc,hold,List.append_assoc]

theorem Idle.answers (h : Idle base counter pending far) (hloose : FrameFree base far.loose)
    (hpayload : Unmarked (beginMarker (hex base)) payload) : Idle base counter pending
    (far.answers payload code) := by
  obtain ⟨old,hold,hpassed⟩ := h.text
  have hasked := h.asked
  rw [FarEnd.answers]
  split
  · exact h
  · rename_i frame line asked hfirst
    rw [hfirst] at hasked
    obtain ⟨c,hc,htoken⟩ := hasked _ List.mem_cons_self
    refine ⟨fun line hline => hasked line (List.mem_cons_of_mem _ hline),
      old++far.loose++framed frame.token payload code,?_,?_⟩
    · rw [← List.append_assoc,hold,List.append_nil]
    · rw [htoken]
      exact hpassed.framed hc hloose hpayload

theorem Unanswered.prints (h : Unanswered base counter frame buffer far) (text : Bytes) :
    Unanswered base counter frame buffer (far.prints text) := by
  obtain ⟨old,hold,hpassed⟩ := h.text
  refine ⟨h.asked,old,?_,hpassed⟩
  rw [FarEnd.prints,← List.append_assoc,hold,List.append_assoc]

theorem Replied.prints (h : Replied base counter frame buffer far) (text : Bytes) :
    Replied base counter frame buffer (far.prints text) := by
  obtain ⟨noise,payload,code,htext,hrest⟩ := h.text
  refine ⟨h.asked,noise,payload,code,?_,hrest⟩
  rw [FarEnd.prints,← List.append_assoc,htext,List.append_assoc]

/-- The device runs its oldest line: one of an earlier command, or the one that is waited for. -/
theorem Unanswered.answers (h : Unanswered base counter frame buffer far) (hloose : FrameFree base far.loose)
    (hhonest : ∀f line rest,far.asked=(f,line)::rest→
      f.Carries payload ∧ Unmarked (beginMarker (hex base)) payload ∧ isInt code=true) :
    Unanswered base counter frame buffer (far.answers payload code) ∨
      Replied base counter frame buffer (far.answers payload code) := by
  obtain ⟨old,hold,hpassed⟩ := h.text
  obtain ⟨older,line,hasked,holder⟩ := h.asked
  cases older with
  | nil =>
    obtain ⟨hcarries,hpayload,hcode⟩ := hhonest frame line [] hasked
    rw [answers_first hasked]
    right
    refine ⟨rfl,old++far.loose,payload,code,?_,?_,hpayload,hcarries,hcode,
      List.mem_append_right _ List.mem_cons_self⟩
    · rw [← List.append_assoc,hold,List.append_nil]
    · intro later hlater
      exact (hpassed later hlater).unmarked (hloose.unmarked later)
  | cons first older =>
    obtain ⟨f,command⟩ := first
    obtain ⟨-,hpayload,-⟩ := hhonest f command _ hasked
    obtain ⟨c,hc,htoken⟩ := holder _ List.mem_cons_self
    rw [answers_first hasked]
    left
    refine ⟨⟨older,line,rfl,fun line hline => holder line (List.mem_cons_of_mem _ hline)⟩,
      old++far.loose++framed f.token payload code,?_,?_⟩
    · rw [← List.append_assoc,hold,List.append_nil]
    · have htoken' : f.token=frameToken base c := htoken
      rw [htoken']
      exact hpassed.framed hc hloose hpayload

/-- What is given up is read by a later command. -/
theorem Unanswered.givenUp (h : Unanswered base counter frame buffer far)
    (htoken : frame.token=frameToken base (counter+1)) :
    Idle base (counter+1) buffer far := by
  obtain ⟨old,hold,hpassed⟩ := h.text
  obtain ⟨older,line,hasked,holder⟩ := h.asked
  refine ⟨?_,old,hold,fun later hlater => hpassed later (by omega)⟩
  rw [hasked]
  intro asked hmem
  rcases List.mem_append.mp hmem with hmem | hmem
  · obtain ⟨c,hc,heq⟩ := holder asked hmem
    exact ⟨c,by omega,heq⟩
  · rw [List.mem_singleton.mp hmem]
    exact ⟨counter+1,Nat.le_refl _,htoken⟩

theorem Replied.givenUp (h : Replied base counter frame buffer far)
    (htoken : frame.token=frameToken base (counter+1)) :
    Idle base (counter+1) buffer far := by
  obtain ⟨noise,payload,code,htext,hnoise,hpayload,-⟩ := h.text
  refine ⟨?_,noise++framed frame.token payload code,htext,?_⟩
  · rw [h.asked]
    intro line hline
    cases hline
  · intro later hlater
    rw [htoken]
    have hempty : Passed (beginMarker (frameToken base later)) [] := Or.inl rfl
    exact framed_passed hlater hempty (hnoise later (by omega)) (hpayload.longer (prefix_begin base later))

theorem Unanswered.taken (h : Unanswered base counter frame buffer far) (n : ℕ) :
    Unanswered base counter frame (buffer++far.wire.take n) {far with wire := far.wire.drop n} := by
  obtain ⟨old,hold,hpassed⟩ := h.text
  refine ⟨h.asked,old,?_,hpassed⟩
  rwa [List.append_assoc,List.take_append_drop]

theorem Replied.taken (h : Replied base counter frame buffer far) (n : ℕ) :
    Replied base counter frame (buffer++far.wire.take n) {far with wire := far.wire.drop n} := by
  obtain ⟨noise,payload,code,htext,hrest⟩ := h.text
  refine ⟨h.asked,noise,payload,code,?_,hrest⟩
  rwa [List.append_assoc,List.take_append_drop]

/-- Before its frame is printed a command reads nothing. -/
theorem Unanswered.incomplete (h : Unanswered base counter frame buffer far) (hloose : FrameFree base far.loose)
    (htoken : frame.token=frameToken base (counter+1)) : (readFramedAnswer buffer frame).state=.incomplete := by
  obtain ⟨old,hold,hpassed⟩ := h.text
  have hnoise : Unmarked (beginMarker frame.token) (old++far.loose) := by
    rw [htoken]
    exact (hpassed _ (Nat.lt_succ_self _)).unmarked (hloose.unmarked _)
  apply noise_incomplete hnoise
  · rw [← hold]
    exact List.prefix_append ..

/-- Once it is printed a command reads that frame, or nothing yet. -/
theorem Replied.reads (h : Replied base counter frame buffer far) (hloose : FrameFree base far.loose)
    (htoken : frame.token=frameToken base (counter+1)) :
    (readFramedAnswer buffer frame).state=.incomplete ∨
      ∃short payload code after,readFramedAnswer buffer frame=⟨short,.complete,payload,code,
        buffer.length-after.length⟩ ∧
        after<:+buffer ∧ after++far.wire=far.loose ∧ far.asked=[] ∧ (frame,payload,code)∈far.answered := by
  obtain ⟨noise,payload,code,htext,hnoise,hpayload,hcarries,hcode,hmem⟩ := h.text
  have hk : SoundToken frame.token := htoken ▸ soundToken_frameToken base (counter+1)
  have hquiet : Unmarked (beginMarker frame.token) noise := htoken ▸ hnoise _ (Nat.lt_succ_self _)
  by_cases hshort : buffer.length < (noise++framed frame.token payload code).length
  · left
    have hprefix : buffer<+:noise++framed frame.token payload code :=
      List.prefix_of_prefix_length_le ⟨far.wire,htext⟩ (List.prefix_append ..) (by omega)
    exact admitted_incomplete hk hquiet hcarries hprefix hshort
  · right
    obtain ⟨after,rfl⟩ : noise++framed frame.token payload code<+:buffer :=
      List.prefix_of_prefix_length_le ⟨far.loose,htext.symm⟩ (List.prefix_append ..) (by omega)
    rw [List.append_assoc,List.append_cancel_left_eq] at htext
    have hno : ¬endMarker frame.token<:+:after := by
      rw [htoken]
      exact hloose.no_end (List.IsPrefix.isInfix ⟨far.wire,htext⟩) _
    obtain ⟨short,hread⟩ := admitted_complete hk hquiet hcarries.1 hcode hno
    refine ⟨short,payload,code,after,?_,List.suffix_append ..,htext,h.asked,hmem⟩
    rw [hread,@List.length_append _ _ after,Nat.add_sub_cancel]

/-- One look at the buffer. -/
theorem looks (h : Unanswered base counter frame buffer far ∨ Replied base counter frame buffer far)
    (hloose : FrameFree base far.loose) (htoken : frame.token=frameToken base (counter+1)) :
    (readFramedAnswer buffer frame).state=.incomplete ∨
      ∃short payload code after,readFramedAnswer buffer frame=⟨short,.complete,payload,code,
        buffer.length-after.length⟩ ∧
        after<:+buffer ∧ after++far.wire=far.loose ∧ far.asked=[] ∧ (frame,payload,code)∈far.answered := by
  rcases h with h | h
  · exact Or.inl (h.incomplete hloose htoken)
  · exact h.reads hloose htoken

/-! ## Whole runs -/

namespace ConsoleRun

/-- What the device may do, and when the buffer has room: what it prints unasked shows no marker of the session,
what it answers is what the framing can tell, and nothing is cut. -/
def Allowed (r : ConsoleRun) : CommandEvent→Prop
  | .prints text => FrameFree r.session.tokenBase (r.far.loose++text)
  | .answers payload code => ∀frame line rest,r.far.asked=(frame,line)::rest→
      frame.Carries payload ∧ Unmarked (beginMarker (hex r.session.tokenBase)) payload ∧ isInt code=true
  | .turn n _ => (r.active.elim [] (·.2)).length+n≤kFrameBufferCap
  | _ => True

def Honest (r : ConsoleRun) : List CommandEvent→Prop
  | [] => True
  | event::events => r.Allowed event ∧ Honest (r.step event) events

/-- No command will be answered on this session any more. -/
def Dead (r : ConsoleRun) : Prop :=
  r.session.aborted=true ∨ r.active=none ∧ (r.session.ready=false ∨ r.session.linkOpen=false)

/-- What is read and unread is what the device printed since the last answer. -/
def Follows (r : ConsoleRun) : Prop :=
  match r.active with
  | none => Idle r.session.tokenBase r.session.frameCounter r.session.pending r.far ∧
      r.session.pending.length≤kFrameBufferCap
  | some (frame,buffer) => ∃counter,r.session.frameCounter=counter+1 ∧
      frame.token=frameToken r.session.tokenBase (counter+1) ∧ buffer.length≤kFrameBufferCap ∧
      (Unanswered r.session.tokenBase counter frame buffer r.far ∨
        Replied r.session.tokenBase counter frame buffer r.far)

/-- Every answer handed out is what the device printed for that command. -/
def OwnAnswers (r : ConsoleRun) : Prop :=
  ∀frame output exitCode,(frame,ConsoleResult.answered output exitCode)∈r.results→
    ∃own code,frame=some own ∧ exitCode=some code ∧ (own,output,code)∈r.far.answered

structure InStep (r : ConsoleRun) : Prop where
  loose : FrameFree r.session.tokenBase r.far.loose
  results : r.OwnAnswers
  follows : r.Dead ∨ r.Follows

variable {r : ConsoleRun} {session : ConsoleSession} {active : Option (SerialFrame×Bytes)}

theorem OwnAnswers.linked (h : r.OwnAnswers) {asked : Option SerialFrame} :
    ({r with session,active,far,results := r.results++[(asked,.link)]} : ConsoleRun).far.answered=r.far.answered→
    ({r with session,active,far,results := r.results++[(asked,.link)]} : ConsoleRun).OwnAnswers := by
  intro hsame frame output exitCode hmem
  rcases List.mem_append.mp hmem with hmem | hmem
  · obtain ⟨own,code,hown,hcode,hanswered⟩ := h frame output exitCode hmem
    exact ⟨own,code,hown,hcode,hsame ▸ hanswered⟩
  · cases List.mem_singleton.mp hmem

theorem cap_room {buffer : Bytes} {frame : SerialFrame} (h : buffer.length≤kFrameBufferCap) :
    capFrameBuffer buffer frame=buffer :=
  if_pos h

/-- A command that is given up leaves the session dead, or at rest with all it has read. -/
theorem InStep.givesUp (h : r.InStep) {frame : SerialFrame} {buffer : Bytes}
    (hactive : r.active=some (frame,buffer)) :
    (r.ends frame .link {r.session with pending := capFrameBuffer buffer frame}).InStep := by
  refine ⟨h.loose,h.results.linked rfl,?_⟩
  rcases h.follows with haborted | hfollows
  · rcases haborted with haborted | ⟨hnone,-⟩
    · exact Or.inl (Or.inl haborted)
    · rw [hactive] at hnone
      cases hnone
  · right
    rw [Follows,hactive] at hfollows
    obtain ⟨counter,hcounter,htoken,hlen,hwaits⟩ := hfollows
    show Idle r.session.tokenBase r.session.frameCounter (capFrameBuffer buffer frame) r.far ∧
      (capFrameBuffer buffer frame).length≤kFrameBufferCap
    rw [cap_room hlen,hcounter]
    refine ⟨?_,hlen⟩
    rcases hwaits with hwaits | hwaits
    · exact hwaits.givenUp htoken
    · exact hwaits.givenUp htoken

private theorem asks_inStep (h : r.InStep) (request : ConsoleRequest) : (r.asks request).InStep := by
  rw [asks]
  split
  · exact h
  · rename_i hidle
    have hnone : r.active=none := by simpa using hidle
    split
    · rename_i hclosed
      refine ⟨h.loose,h.results.linked rfl,?_⟩
      left
      right
      refine ⟨hnone,?_⟩
      simpa using hclosed
    · rename_i hopen
      have hfollows : r.session.aborted=true ∨ r.Follows := by
        rcases h.follows with haborted | hfollows
        · rcases haborted with haborted | ⟨-,hclosed⟩
          · exact Or.inl haborted
          · exact absurd hclosed (by simpa using hopen)
        · exact Or.inr hfollows
      dsimp only
      split
      · refine ⟨h.loose,h.results.linked rfl,?_⟩
        rcases hfollows with haborted | hfollows
        · exact Or.inl (Or.inl haborted)
        · right
          rw [Follows,hnone] at hfollows
          obtain ⟨⟨hasked,old,hold,hpassed⟩,hlen⟩ := hfollows
          refine ⟨⟨fun line hline => ?_,old,hold,fun later hlater => hpassed later (Nat.lt_of_succ_lt hlater)⟩,hlen⟩
          obtain ⟨c,hc,htoken⟩ := hasked line hline
          exact ⟨c,Nat.le_succ_of_le hc,htoken⟩
      · refine ⟨h.loose,h.results,?_⟩
        rcases hfollows with haborted | hfollows
        · exact Or.inl (Or.inl haborted)
        · right
          rw [Follows,hnone] at hfollows
          obtain ⟨⟨hasked,old,hold,hpassed⟩,hlen⟩ := hfollows
          exact ⟨r.session.frameCounter,rfl,rfl,hlen,Or.inl ⟨⟨_,_,rfl,hasked⟩,old,hold,hpassed⟩⟩

private theorem prints_inStep (h : r.InStep) {text : Bytes} (hallowed : r.Allowed (.prints text)) :
    (r.step (.prints text)).InStep := by
  refine ⟨hallowed,h.results,?_⟩
  rcases h.follows with hdead | hfollows
  · exact Or.inl hdead
  · right
    rw [Follows] at hfollows ⊢
    show match r.active with | none => _ | some (frame,buffer) => _
    split at hfollows
    · exact ⟨hfollows.1.prints text,hfollows.2⟩
    · obtain ⟨counter,hcounter,htoken,hlen,hwaits⟩ := hfollows
      refine ⟨counter,hcounter,htoken,hlen,?_⟩
      rcases hwaits with hwaits | hwaits
      · exact Or.inl (hwaits.prints text)
      · exact Or.inr (hwaits.prints text)

private theorem answers_inStep (h : r.InStep) {payload : Bytes} {code : ℤ}
    (hallowed : r.Allowed (.answers payload code)) :
    (r.step (.answers payload code)).InStep := by
  cases hasked : r.far.asked with
  | nil =>
    have hsame : r.far.answers payload code=r.far := by rw [FarEnd.answers,hasked]
    have hstep : r.step (.answers payload code)=r := by rw [step,hsame]
    rw [hstep]
    exact h
  | cons first rest =>
    obtain ⟨frame,line⟩ := first
    have hnext : r.far.answers payload code=
        ⟨rest,r.far.wire++framed frame.token payload code,[],r.far.answered++[(frame,payload,code)]⟩ :=
      answers_first hasked
    refine ⟨?_,?_,?_⟩
    · show FrameFree r.session.tokenBase (r.far.answers payload code).loose
      rw [hnext]
      exact frameFree_nil _
    · intro frame output exitCode hmem
      obtain ⟨own,c,hown,hcode,hanswered⟩ := h.results frame output exitCode hmem
      refine ⟨own,c,hown,hcode,?_⟩
      show (own,output,c)∈(r.far.answers payload code).answered
      rw [hnext]
      exact List.mem_append_left _ hanswered
    · rcases h.follows with hdead | hfollows
      · exact Or.inl hdead
      · right
        rw [Follows] at hfollows ⊢
        show match r.active with | none => _ | some (frame,buffer) => _
        split at hfollows
        · exact ⟨hfollows.1.answers h.loose (hallowed frame line rest hasked).2.1,hfollows.2⟩
        · obtain ⟨counter,hcounter,htoken,hlen,hwaits⟩ := hfollows
          refine ⟨counter,hcounter,htoken,hlen,?_⟩
          rcases hwaits with hwaits | hwaits
          · exact hwaits.answers h.loose hallowed
          · have hnone := hwaits.asked
            rw [hasked] at hnone
            cases hnone

/-- One pass of the loop. -/
theorem turn_inStep (h : r.InStep) {n : ℕ} {nowMs : ℤ} (hallowed : r.Allowed (.turn n nowMs)) :
    (r.turn n nowMs).InStep := by
  rw [turn]
  split
  · exact h
  · rename_i frame buffer hactive
    split
    · rename_i haborted
      exact ⟨h.loose,h.results.linked rfl,Or.inl (Or.inl haborted)⟩
    · rename_i halive
      have hfollows := h.follows.resolve_left fun hdead => by
        rcases hdead with haborted | ⟨hnone,-⟩
        · exact halive haborted
        · rw [hactive] at hnone
          cases hnone
      rw [Follows,hactive] at hfollows
      obtain ⟨counter,hcounter,htoken,hlen,hwaits⟩ := hfollows
      rcases looks hwaits h.loose htoken with hincomplete | ⟨short,payload,code,after,hcomplete,hsuffix,
        hafter,hasked,hmem⟩
      · dsimp only
        rw [hincomplete]
        dsimp only
        split
        · split
          · exact h
          · rename_i hclosed
            exact ⟨h.loose,h.results.linked rfl,Or.inl (Or.inr ⟨rfl,Or.inr (Bool.eq_false_iff.mpr hclosed)⟩)⟩
        · have hroom : (r.active.elim [] (·.2)).length+n≤kFrameBufferCap := hallowed
          rw [hactive,Option.elim_some] at hroom
          dsimp only at hroom
          have hkept : capFrameBuffer (buffer++r.far.wire.take n) frame=buffer++r.far.wire.take n := by
            apply cap_room
            rw [List.length_append,List.length_take]
            omega
          have hlen' : (buffer++r.far.wire.take n).length≤kFrameBufferCap := by
            rw [List.length_append,List.length_take]
            omega
          have htaken :
              Unanswered r.session.tokenBase counter frame (buffer++r.far.wire.take n)
                {r.far with wire := r.far.wire.drop n} ∨
              Replied r.session.tokenBase counter frame (buffer++r.far.wire.take n)
                {r.far with wire := r.far.wire.drop n} := by
            rcases hwaits with hwaits | hwaits
            · exact Or.inl (hwaits.taken n)
            · exact Or.inr (hwaits.taken n)
          rw [takes,hkept]
          dsimp only
          split
          · exact ⟨h.loose,h.results,Or.inr ⟨counter,hcounter,htoken,hlen',htaken⟩⟩
          · split
            · exact ⟨h.loose,h.results.linked rfl,Or.inl (Or.inr ⟨rfl,Or.inl rfl⟩)⟩
            · exact ⟨h.loose,h.results,Or.inr ⟨counter,hcounter,htoken,hlen',htaken⟩⟩
      · dsimp only
        rw [hcomplete]
        dsimp only
        have hrest : buffer.drop (buffer.length-after.length)=after := (List.suffix_iff_eq_drop.mp hsuffix).symm
        have hshort : after.length≤kFrameBufferCap := hsuffix.length_le.trans hlen
        rw [hrest,cap_room hshort]
        refine ⟨h.loose,?_,?_⟩
        · intro asked output exitCode hmem'
          rcases List.mem_append.mp hmem' with hmem' | hmem'
          · exact h.results asked output exitCode hmem'
          · cases List.mem_singleton.mp hmem'
            exact ⟨frame,code,rfl,rfl,hmem⟩
        · right
          refine ⟨⟨?_,[],hafter,fun later _ => Or.inl rfl⟩,hshort⟩
          intro line hline
          have hgiven : line∈r.far.asked := hline
          rw [hasked] at hgiven
          cases hgiven

private theorem step_inStep (h : r.InStep) {event : CommandEvent} (hallowed : r.Allowed event) :
    (r.step event).InStep := by
  cases event with
  | asks request => exact asks_inStep h request
  | prints text => exact prints_inStep h hallowed
  | answers payload code => exact answers_inStep h hallowed
  | turn n nowMs => exact turn_inStep h hallowed
  | expires =>
    rw [step]
    split
    · exact h
    · rename_i frame buffer hactive
      exact h.givesUp hactive
  | closes =>
    refine ⟨h.loose,h.results,?_⟩
    rcases h.follows with haborted | hfollows
    · rcases haborted with haborted | ⟨hnone,-⟩
      · exact Or.inl (Or.inl haborted)
      · exact Or.inl (Or.inr ⟨hnone,Or.inr rfl⟩)
    · exact Or.inr hfollows
  | aborts => exact ⟨h.loose,h.results,Or.inl (Or.inl rfl)⟩

private theorem run_inStep (h : r.InStep) {events : List CommandEvent} (hhonest : r.Honest events) :
    (r.run events).InStep := by
  induction events generalizing r with
  | nil => exact h
  | cons event events ih => exact ih (step_inStep h hhonest.1) hhonest.2

private theorem signedIn_inStep (tokenBase frameCounter : ℕ) (login : Option SerialLoginMachine) :
    (signedIn tokenBase frameCounter login).InStep := by
  refine ⟨frameFree_nil _,?_,Or.inr ⟨⟨?_,[],rfl,fun later _ => Or.inl rfl⟩,Nat.zero_le _⟩⟩
  · intro frame output exitCode hmem
    cases hmem
  · intro line hline
    cases hline

/-- A device that has run everything, all of whose output has come. -/
theorem InStep.delivers (h : r.InStep) {frame : SerialFrame} {buffer : Bytes}
    (hactive : r.active=some (frame,buffer))
    (halive : r.session.aborted=false) (hasked : r.far.asked=[]) (hwire : r.far.wire=[]) (n : ℕ) (nowMs : ℤ) :
    ∃payload code,(frame,payload,code)∈r.far.answered ∧
      (r.turn n nowMs).results=r.results++[(some frame,.answered payload (some code))] := by
  have hfollows := h.follows.resolve_left fun hdead => by
    rcases hdead with haborted | ⟨hnone,-⟩
    · rw [halive] at haborted
      cases haborted
    · rw [hactive] at hnone
      cases hnone
  rw [Follows,hactive] at hfollows
  obtain ⟨counter,hcounter,htoken,hlen,hwaits⟩ := hfollows
  rcases hwaits with hwaits | hwaits
  · obtain ⟨older,line,hline,-⟩ := hwaits.asked
    rw [hasked] at hline
    exact absurd hline.symm (List.append_ne_nil_of_right_ne_nil _ (List.cons_ne_nil _ _))
  · obtain ⟨noise,payload,code,htext,hnoise,hpayload,hcarries,hcode,hmem⟩ := hwaits.text
    rw [hwire,List.append_nil] at htext
    have hk : SoundToken frame.token := htoken ▸ soundToken_frameToken r.session.tokenBase (counter+1)
    have hquiet : Unmarked (beginMarker frame.token) noise := htoken ▸ hnoise _ (Nat.lt_succ_self _)
    have hno : ¬endMarker frame.token<:+:r.far.loose := by
      rw [htoken]
      exact h.loose.no_end (List.infix_refl _) _
    obtain ⟨short,hread⟩ := admitted_complete hk hquiet hcarries.1 hcode hno
    refine ⟨payload,code,hmem,?_⟩
    rw [turn,hactive]
    dsimp only
    rw [if_neg (by rw [halive]; decide),htext,hread]
    rfl

/-- Whatever is late, a command is handed its own answer or none: what one command is handed the device printed for
that command, its payload and its exit code. And it is handed them, once the device has run it and all the device
printed has come. -/
theorem own_answers (tokenBase frameCounter : ℕ) (login : Option SerialLoginMachine) {events : List CommandEvent}
    (hhonest : (signedIn tokenBase frameCounter login).Honest events) :
    ((signedIn tokenBase frameCounter login).run events).OwnAnswers ∧
    ∀frame buffer,((signedIn tokenBase frameCounter login).run events).active=some (frame,buffer)→
      ((signedIn tokenBase frameCounter login).run events).session.aborted=false→
      ((signedIn tokenBase frameCounter login).run events).far.asked=[]→
      ((signedIn tokenBase frameCounter login).run events).far.wire=[]→∀n nowMs,
      ∃payload code,(frame,payload,code)∈((signedIn tokenBase frameCounter login).run events).far.answered ∧
        (((signedIn tokenBase frameCounter login).run events).turn n nowMs).results=
          ((signedIn tokenBase frameCounter login).run events).results++
          [(some frame,.answered payload (some code))] := by
  have h := run_inStep (signedIn_inStep tokenBase frameCounter login) hhonest
  refine ⟨h.results,?_⟩
  intro frame buffer hactive halive hasked hwire n nowMs
  exact h.delivers hactive halive hasked hwire n nowMs

/-- A restart script that outlives its deadline, and what is asked next. -/
def lateScript : List CommandEvent :=
  [.asks ⟨ascii "restart",-1,true,true⟩,.expires,.asks ⟨ascii "date",-1,false,true⟩,.prints (ascii "# "),
    .answers (ascii "done") 3,.answers (ascii "noon") 0,.turn 40 0,.turn 100 0,.turn 1 0]

private theorem lateScript_honest : (signedIn 10 0 none).Honest lateScript := by
  refine ⟨trivial,trivial,trivial,⟨by decide +kernel,by decide +kernel⟩,?_,?_,?_,?_,?_,trivial⟩
  · rintro frame line rest ⟨⟩
    refine ⟨⟨Or.inr (Or.inr ⟨by decide,by decide +kernel,by decide +kernel⟩),?_⟩,by decide +kernel,rfl⟩
    unfold HoldsTerminator
    decide +kernel
  · rintro frame line rest ⟨⟩
    refine ⟨⟨Or.inr (Or.inr ⟨by decide,by decide +kernel,by decide +kernel⟩),?_⟩,by decide +kernel,rfl⟩
    unfold HoldsTerminator
    decide +kernel
  · unfold Allowed
    decide +kernel
  · unfold Allowed
    decide +kernel
  · unfold Allowed
    decide +kernel

theorem own_answers_late : ((signedIn 10 0 none).run lateScript).OwnAnswers ∧
    ((signedIn 10 0 none).run lateScript).results.map (·.2)=[.link,.answered (ascii "noon") (some 0)] :=
  ⟨(own_answers 10 0 none lateScript_honest).1,by decide +kernel⟩

end ConsoleRun

end Loftail
