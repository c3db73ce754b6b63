import Loftail.SerialFraming

/-! # The conversation with a device's serial console -/
namespace Loftail

inductive LoginStep | idle | probing | confirmShell | sentUser | sentPassword | runStartup | ready | failed
  deriving DecidableEq,Repr

inductive LoginActionKind | wait | write | done | fail | reboot
  deriving DecidableEq,Repr

structure LoginAction where
  kind : LoginActionKind
  bytes : Bytes
  sensitive : Bool
  reason : String
  deriving DecidableEq

namespace LoginAction

def ofKind (kind : LoginActionKind) : LoginAction := ⟨kind,[],false,""⟩

def wait : LoginAction := ofKind .wait

end LoginAction

/-- A compiled pattern, told by the windows it matches; `none` is an empty or an invalid one. -/
abbrev LoginPattern := Option (Bytes→Bool)

/-- What a preset says about the conversation. -/
structure SerialProfile where
  loginPromptRe : LoginPattern
  passwordPromptRe : LoginPattern
  promptTimeoutMs : ℤ
  attempts : ℤ
  startupCommands : List String
  rebootRe : LoginPattern

structure SerialLoginMachine where
  profile : SerialProfile
  deviceName : String
  loginUser : String
  password : Bytes
  /-- 64 random bits. -/
  token : ℕ
  step : LoginStep
  window : Bytes
  stepSinceMs : ℤ
  attemptsSpent : ℕ
  startupIndex : ℕ
  sawReboot : Bool
  failReason : String

def kWindowBytes : ℕ := 4096

/-- What a window keeps of a text. -/
def lastWindow (text : Bytes) : Bytes :=
  if kWindowBytes < text.length then text.drop (text.length-kWindowBytes) else text

def toUtf8 (s : String) : Bytes := s.toUTF8.data.toList

/-- A line whose entire content is the marker. -/
def hasMarkerLine (marker text : Bytes) : Bool := (text.splitOn newline).any fun line => trimBlanks line=marker

/-- What asks for the marker. -/
def probeLine (marker : Bytes) : Bytes := ascii "echo "++marker++[newline]

/-- A startup command, and its completion marker. -/
def commandLine (marker : Bytes) (command : String) : Bytes := toUtf8 command++ascii "; echo "++marker++[newline]

namespace SerialLoginMachine

def initial (profile : SerialProfile) (deviceName loginUser : String) (password : Bytes) (token : ℕ) (nowMs : ℤ) :
    SerialLoginMachine :=
  ⟨profile,deviceName,loginUser,password,token,.idle,[],nowMs,0,0,false,""⟩

def marker (m : SerialLoginMachine) : Bytes := ascii "LFTL-"++hex m.token

def reset (m : SerialLoginMachine) (nowMs : ℤ) : SerialLoginMachine :=
  {m with step := .idle,window := [],stepSinceMs := nowMs,attemptsSpent := 0,startupIndex := 0,sawReboot := false,
          failReason := ""}

/-- The window is cleared on every transition; the attempts are not touched. -/
def enter (m : SerialLoginMachine) (step : LoginStep) (nowMs : ℤ) : SerialLoginMachine :=
  {m with step,window := [],stepSinceMs := nowMs}

def write (m : SerialLoginMachine) (bytes : Bytes) (next : LoginStep) (nowMs : ℤ) (sensitive : Bool) :
    SerialLoginMachine×LoginAction :=
  (m.enter next nowMs,⟨.write,bytes,sensitive,""⟩)

def noteProgress (m : SerialLoginMachine) : SerialLoginMachine := {m with attemptsSpent := 0}

def fail (m : SerialLoginMachine) (reason : String) : SerialLoginMachine×LoginAction :=
  ({m with step := .failed,failReason := reason},⟨.fail,[],false,reason⟩)

def windowMatches (m : SerialLoginMachine) : LoginPattern→Bool
  | none => false
  | some matched => matched m.window

def windowHasMarker (m : SerialLoginMachine) : Bool := hasMarkerLine m.marker m.window

def waitingText (m : SerialLoginMachine) : String :=
  match m.step with
  | .idle => "Opening the console on "++m.deviceName
  | .probing => "Waiting for "++m.deviceName++" to say something"
  | .confirmShell => "Checking for a shell on "++m.deviceName
  | .sentUser => "Signing in to "++m.deviceName++" — waiting for the password prompt"
  | .sentPassword => "Signing in to "++m.deviceName++" — waiting for a shell"
  | .runStartup =>
    match m.startupIndex with
    | 0 => "Setting "++m.deviceName++" up"
    | at'+1 =>
      match m.profile.startupCommands[at']? with
      | some command => "Running "++command++" on "++m.deviceName
      | none => "Setting "++m.deviceName++" up"
  | .ready => ""
  | .failed => m.failReason

def userLine (m : SerialLoginMachine) : Bytes := toUtf8 m.loginUser++[newline]

def passwordLine (m : SerialLoginMachine) : Bytes := m.password++[newline]

def sendUser (m : SerialLoginMachine) (nowMs : ℤ) : SerialLoginMachine×LoginAction :=
  m.write m.userLine .sentUser nowMs false

def sendPassword (m : SerialLoginMachine) (nowMs : ℤ) : SerialLoginMachine×LoginAction :=
  m.write m.passwordLine .sentPassword nowMs true

/-- What is on the other end, where it can be recognised. -/
def classify (m : SerialLoginMachine) (nowMs : ℤ) : SerialLoginMachine×LoginAction :=
  if m.windowMatches m.profile.loginPromptRe then m.noteProgress.sendUser nowMs
  else if m.windowMatches m.profile.passwordPromptRe then m.noteProgress.sendPassword nowMs
  else (m,.wait)

def runNextStartupCommand (m : SerialLoginMachine) (nowMs : ℤ) : SerialLoginMachine×LoginAction :=
  match m.profile.startupCommands[m.startupIndex]? with
  | none => (m.enter .ready nowMs,.ofKind .done)
  | some command => {m with startupIndex := m.startupIndex+1}.write
    (commandLine m.marker command) .runStartup nowMs false

/-- The window with what arrived, bounded. -/
def receive (m : SerialLoginMachine) (arrived : Bytes) : SerialLoginMachine :=
  {m with window := lastWindow (m.window++arrived)}

/-- An attempt is spent, and the last one fails. -/
def spend (m : SerialLoginMachine) (reason : String)
    (go : SerialLoginMachine→SerialLoginMachine×LoginAction) : SerialLoginMachine×LoginAction :=
  let m : SerialLoginMachine := {m with attemptsSpent := m.attemptsSpent+1}
  if m.profile.attempts ≤ m.attemptsSpent then m.fail reason else go m

/-- What a window that shows no reboot is answered with. -/
def answer (m : SerialLoginMachine) (nowMs : ℤ) : SerialLoginMachine×LoginAction :=
  match m.step with
  | .idle => m.classify nowMs
  | .probing => m.classify nowMs
  | .confirmShell =>
    if m.windowHasMarker then m.noteProgress.runNextStartupCommand nowMs
    -- the `echo` was eaten by a getty, which took it for a user name
    else if m.windowMatches m.profile.loginPromptRe then m.noteProgress.sendUser nowMs
    else if m.windowMatches m.profile.passwordPromptRe then m.noteProgress.sendPassword nowMs
    else (m,.wait)
  | .sentUser =>
    if m.windowMatches m.profile.passwordPromptRe then m.noteProgress.sendPassword nowMs
    else if m.windowMatches m.profile.loginPromptRe then
      m.spend (m.deviceName++" did not accept the user name "++m.loginUser++".") fun m => m.sendUser nowMs
    else (m,.wait)
  | .sentPassword =>
    if m.windowMatches m.profile.loginPromptRe then m.fail (m.deviceName++" refused the user name or password.")
    else (m,.wait)
  | .runStartup => if m.windowHasMarker then m.noteProgress.runNextStartupCommand nowMs else (m,.wait)
  | .ready => (m,.wait)
  | .failed => (m,.wait)

/-- The reboot pattern is asked first. -/
def feed (m : SerialLoginMachine) (arrived : Bytes) (nowMs : ℤ) : SerialLoginMachine×LoginAction :=
  let m := m.receive arrived
  if m.step≠.failed ∧ m.windowMatches m.profile.rebootRe then ({m with sawReboot := true,window := []},
    .ofKind .reboot)
  else m.answer nowMs

/-- What a step does once its time is over. -/
def guess (m : SerialLoginMachine) (nowMs : ℤ) : SerialLoginMachine×LoginAction :=
  let m : SerialLoginMachine := {m with stepSinceMs := nowMs}
  match m.step with
  | .probing => m.write (probeLine m.marker) .confirmShell nowMs false
  | .confirmShell => m.write [newline] .probing nowMs false
  | .sentUser => m.write (probeLine m.marker) .confirmShell nowMs false
  | .sentPassword => m.write (probeLine m.marker) .confirmShell nowMs false
  -- a startup command is never sent again
  | .runStartup => (m,.wait)
  | .idle => (m,.wait)
  | .ready => (m,.wait)
  | .failed => (m,.wait)

def tick (m : SerialLoginMachine) (nowMs : ℤ) : SerialLoginMachine×LoginAction :=
  if m.step=.ready ∨ m.step=.failed then (m,.wait)
  else if m.step=.idle then m.write [newline] .probing nowMs false
  else if nowMs-m.stepSinceMs < m.profile.promptTimeoutMs then (m,.wait)
  else m.spend (m.deviceName++" did not answer on its console — "++m.waitingText++".") fun m => m.guess nowMs

end SerialLoginMachine

end Loftail
