import Loftail.SshSessionCache
import Loftail.ThreadPool

/-! # Errands over SSH

An errand takes a session out of the cache or connects one, shows it for an abort, runs its body on it
and hands it back. Errands, abandons and the shutdown are threads of one process. -/
namespace Loftail.SshErrand

inductive Need
  | ExecOnly
  | LogTransport

/-- `SshErrandRepeat`. -/
inductive Repeat
  | Allowed
  | Never
  deriving DecidableEq

/-- What a thread does: a section under a mutex, an atomic load or store, a call on a session it has.
A block is an `SshWorkerShared`. -/
inductive Op
  | locate (address : String)
  | abandoned (shared : ℕ)
  | publish (shared : ℕ) (raw : Option SshSession)
  | connectHold (target : String)
  | create (target : String) (role : SshSessionRole)
  | connectTo (session : SshSession)
  | isConnected (session : SshSession)
  | body (session : SshSession) (path : String)
  | reset (session : SshSession)
  | checkOut (target : String) (need : SshSessionRole)
  | checkIn (target : String) (role : SshSessionRole) (session : SshSession)
  | close
  | cutLoose (session : SshSession)
  | destroy (session : SshSession)
  | setAbandoned (shared : ℕ)
  | abortPublished (shared : ℕ)

/-- A location is a target and a path; a refusal is its text. -/
def Answer : Op→Type
  | .locate _ => Except String (String×String)
  | .abandoned _ => Bool
  | .connectHold _ => Bool
  | .create _ _ => SshSession
  | .connectTo _ => Option String
  | .isConnected _ => Bool
  | .body _ _ => String
  | .checkOut _ _ => Option (SshSession×SshSessionRole)×List SshSession
  | .checkIn _ _ _ => List SshSession
  | .close => List SshSession
  | _ => Unit

abbrev Worker := Program Op Answer

section Operations

abbrev perform (o : Op) : Worker (Answer o) := Program.ask o

abbrev locate (address : String) : Worker (Except String (String×String)) := perform (.locate address)

abbrev abandoned (shared : ℕ) : Worker Bool := perform (.abandoned shared)

abbrev publish (shared : ℕ) (raw : Option SshSession) : Worker Unit := perform (.publish shared raw)

abbrev connectHold (target : String) : Worker Bool := perform (.connectHold target)

abbrev create (target : String) (role : SshSessionRole) : Worker SshSession := perform (.create target role)

abbrev connectTo (session : SshSession) : Worker (Option String) := perform (.connectTo session)

abbrev isConnected (session : SshSession) : Worker Bool := perform (.isConnected session)

abbrev body (session : SshSession) (path : String) : Worker String := perform (.body session path)

abbrev reset (session : SshSession) : Worker Unit := perform (.reset session)

end Operations

/-- `SshSessionCache::discard`. -/
def discard : List SshSession→Worker Unit
  | [] => return ()
  | s::going => do
    let _ ← perform (.cutLoose s)
    let _ ← perform (.destroy s)
    discard going

def checkOut (target : String) (need : SshSessionRole) : Worker (Option (SshSession×SshSessionRole)) := do
  let out ← perform (.checkOut target need)
  discard out.2
  return out.1

def checkIn (target : String) (role : SshSessionRole) (session : SshSession) : Worker Unit := do
  let going ← perform (.checkIn target role session)
  discard going

def close : Worker Unit := do
  let going ← perform .close
  discard going

/-- `SshWorkerShared::abandon`. -/
def abandon (shared : ℕ) : Worker Unit := do
  let _ ← perform (.setAbandoned shared)
  let _ ← perform (.abortPublished shared)
  return ()

/-- An errand whose far end is located. -/
structure Call where
  shared : ℕ
  target : String
  path : String
  wantRole : SshSessionRole
  repeats : Repeat

inductive Connect
  | Ok (session : SshSession)
  | Stopped
  | Failed (error : String)

/-- The connect, under the hold. -/
def connectHeld (c : Call) : Worker Connect := do
  let stop ← abandoned c.shared
  if stop then return .Stopped
  else do
    let fresh ← create c.target c.wantRole
    publish c.shared (some fresh)
    let refused ← connectTo fresh
    match refused with
    | some error => do
      publish c.shared none
      reset fresh
      return .Failed error
    | none => return .Ok fresh

def dropHeld : Option SshSession→Worker Unit
  | none => return ()
  | some s => reset s

/-- A fresh connection, in place of what was held. -/
def connectFresh (c : Call) (session : Option SshSession) : Worker Connect := do
  publish c.shared none
  dropHeld session
  let held ← connectHold c.target
  if held then connectHeld c
  else return .Stopped

/-- The end of the scope in which a session is published: whether the errand returns there, with what text,
and the session that outlives it. -/
structure Scope where
  returns : Bool
  text : String
  session : Option SshSession
  heldRole : SshSessionRole

/-- The body once more, on a connection made from scratch. -/
def onFresh (c : Call) (fresh : SshSession) : Worker Scope := do
  let stop ← abandoned c.shared
  if stop then return ⟨true,"",some fresh,c.wantRole⟩
  else do
    let error ← body fresh c.path
    return ⟨false,error,some fresh,c.wantRole⟩

def reconnect (c : Call) (session : Option SshSession) : Worker Scope := do
  let connected ← connectFresh c session
  match connected with
  | .Ok fresh => onFresh c fresh
  | .Stopped => return ⟨true,"",none,c.wantRole⟩
  | .Failed error => return ⟨true,error,none,c.wantRole⟩

/-- A failure on a session from the cache whose transport has died since. -/
def staleHit (c : Call) (session : SshSession) (heldRole : SshSessionRole) (error : String) : Worker Scope := do
  let stop ← abandoned c.shared
  if stop then return ⟨false,error,some session,heldRole⟩
  else do
    let connected ← isConnected session
    if connected then return ⟨false,error,some session,heldRole⟩
    else reconnect c (some session)

/-- The body on a session from the cache. -/
def onCached (c : Call) (session : SshSession) (heldRole : SshSessionRole) : Worker Scope := do
  publish c.shared (some session)
  let stop ← abandoned c.shared
  if stop then return ⟨true,"",some session,heldRole⟩
  else do
    let error ← body session c.path
    if error≠"" ∧ c.repeats=.Allowed then staleHit c session heldRole error
    else return ⟨false,error,some session,heldRole⟩

/-- The scope in which a session is published. -/
def publishedScope (c : Call) : Worker Scope := do
  let taken ← checkOut c.target c.wantRole
  match taken with
  | some (session,role) => onCached c session role
  | none => reconnect c none

/-- Keep only what is still good. -/
def handBack (c : Call) (session : SshSession) (heldRole : SshSessionRole) : Worker Unit := do
  let stop ← abandoned c.shared
  if stop then reset session
  else do
    let connected ← isConnected session
    if connected then checkIn c.target heldRole session
    else reset session

/-- What outlives the scope: destroyed where the errand returned in it. -/
def leave (c : Call) (scope : Scope) : Worker Unit :=
  match scope.session with
  | none => return ()
  | some session => if scope.returns then reset session else handBack c session scope.heldRole

def onTarget (c : Call) : Worker String := do
  let scope ← publishedScope c
  publish c.shared none
  leave c scope
  return scope.text

def Need.wantRole : Need→SshSessionRole
  | .ExecOnly => .ExecOnly
  | .LogTransport => .Transport

def withSshSession (address : String) (shared : ℕ) (need : Need) (repeats : Repeat) : Worker String := do
  let far ← locate address
  match far with
  | .error why => return why
  | .ok (target,path) => onTarget ⟨shared,target,path,need.wantRole,repeats⟩

/-- What a thread is started for. -/
inductive Job
  | errand (address : String) (shared : ℕ) (need : Need) (repeats : Repeat)
  | abandon (shared : ℕ)
  | close

def Job.program : Job→Worker Unit
  | .errand address shared need repeats => do
    let _ ← withSshSession address shared need repeats
    return ()
  | .abandon shared => SshErrand.abandon shared
  | .close => SshErrand.close

/-- What threads share. `letGo`, `cutLoose` and `gone` are what the cache let go, what was cut loose and
what was destroyed; no code reads them. -/
structure Common where
  cache : SshSessionCache
  published : ℕ→Option SshSession
  abandoned : ℕ→Bool
  health : SshSession→Bool
  next : ℕ
  letGo : List SshSession
  cutLoose : List SshSession
  gone : List SshSession

/-- What a thread has: the sessions it holds, those it is discarding and those of them it cut loose, the
session it showed last, and how often it ran its body. -/
structure Own where
  held : List SshSession
  going : List SshSession
  cut : List SshSession
  shown : Option SshSession
  runs : ℕ

/-- Every session of a thread. -/
def Own.all (m : Own) : List SshSession := m.held++m.going

def Own.none : Own := ⟨[],[],[],Option.none,0⟩

/-- What a thread has once its operation is answered. -/
def Own.after (m : Own) : (o : Op)→Answer o→Own
  | .publish _ raw,_ => {m with shown := raw}
  | .create _ _,s => {m with held := s::m.held}
  | .body _ _,_ => {m with runs := m.runs+1}
  | .reset s,_ => {m with held := m.held.erase s}
  | .checkOut _ _,x => {m with held := (x.1.map Prod.fst).toList++m.held,going := x.2}
  | .checkIn _ _ s,going => {m with held := m.held.erase s,going}
  | .close,going => {m with going}
  | .cutLoose s,_ => {m with cut := s::m.cut}
  | .destroy s,_ => {m with going := m.going.erase s}
  | _,_ => m

/-- What an operation does to what is shared, and its answer. Nothing is said of what the far end answers. -/
def Common.Performs (w : Common) : (o : Op)→Answer o → Common→Prop
  | .locate _,_,t => t=w
  | .abandoned shared,stop,t => stop=w.abandoned shared ∧ t=w
  | .publish shared raw,_,t => t={w with published := Function.update w.published shared raw}
  | .connectHold _,_,t => t=w
  | .create target role,s,t => s=⟨w.next,target,role⟩ ∧ t={w with next := w.next+1}
  | .connectTo _,_,t => t=w
  | .isConnected s,b,t => b=w.health s ∧ t=w
  | .body _ _,_,t => t=w
  | .reset s,_,t => t={w with gone := s::w.gone}
  | .checkOut target need,x,t => ∃swept nowMs,
      let out := w.cache.checkOut swept w.health target need nowMs
      x=(out.session,out.going) ∧ t={w with cache := out.cache,letGo := out.going++w.letGo}
  | .checkIn target role s,going,t => ∃swept nowMs,
      let out := w.cache.checkIn swept w.health target role s nowMs
      going=out.2 ∧ t={w with cache := out.1,letGo := out.2++w.letGo}
  | .close,going,t => going=w.cache.close.2 ∧ t={w with cache := w.cache.close.1,letGo := w.cache.close.2++w.letGo}
  | .cutLoose s,_,t => t={w with cutLoose := s::w.cutLoose,health := Function.update w.health s false}
  | .destroy s,_,t => t={w with gone := s::w.gone}
  | .setAbandoned shared,_,t => t={w with abandoned := Function.update w.abandoned shared true}
  | .abortPublished shared,_,t => t={w with health := match w.published shared with
      | some s => Function.update w.health s false
      | none => w.health}

/-- The process: what threads share, and what each has. -/
structure World (ι : Type) where
  common : Common
  own : ι→Own

variable {ι : Type} [DecidableEq ι]

/-- A turn of thread `i`. -/
def Acts (i : ι) (w : World ι) (o : Op) (x : Answer o) (t : World ι) : Prop :=
  w.common.Performs o x t.common ∧ t.own=Function.update w.own i ((w.own i).after o x)

/-- The health of sessions changes at any time. -/
def Drifts (w t : World ι) : Prop := ∃health,t={w with common := {w.common with health}}

/-- The process before any thread has begun. -/
def start (jobs : ι→Job) (idleMs capacity : ℤ) (health : SshSession→Bool) : Program.Pool Op Answer Unit ι
    (World ι) where
  left i := (jobs i).program
  world := ⟨⟨.ofCapacity idleMs capacity,fun _ => none,fun _ => false,health,0,[],[],[]⟩,fun _ => .none⟩

abbrev Run : Program.Pool Op Answer Unit ι (World ι)→Program.Pool Op Answer Unit ι (World ι)→Prop :=
  Program.Pool.Run Acts Drifts

end Loftail.SshErrand
