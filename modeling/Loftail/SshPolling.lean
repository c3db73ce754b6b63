import Loftail.SpoolMirror

/-! # One poll of a log over SSH: is it still the same file? -/
namespace Loftail

/-- `kUnknownMtime`. -/
def kUnknownMtime : ℤ := -1

/-- `kHeadProbeBytes`. -/
def kHeadProbeBytes : ℕ := 4096

/-- `kWcAbandonBytes`. -/
def kWcAbandonBytes : ℕ := 64*1024*1024

/-- What one poll's requests said, and what the poll before saw. -/
structure RemoteObservation where
  size : ℤ
  mtime : ℤ
  lastSize : ℤ
  lastMtime : ℤ
  consumed : ℤ
  fstatTracksHandle : Bool
  handleValid : Bool
  handleSize : ℤ

inductive RotationVerdict
  | nothing | rotated | compareNow | comparePaced
  deriving DecidableEq

def rotationVerdict (o : RemoteObservation) : RotationVerdict :=
  if o.size < o.consumed then .rotated
  else if o.fstatTracksHandle then
    if o.handleValid ∧ o.handleSize≠o.size then .rotated
    else if o.size > o.lastSize then .comparePaced else .nothing
  else if o.mtime=kUnknownMtime then .comparePaced
  else if o.mtime > o.lastMtime ∧ o.size=o.lastSize then .compareNow
  else if o.size > o.lastSize then .comparePaced
  else .nothing

/-- The fetcher, whether it has its session, and what the last poll saw. -/
structure SshPoller where
  fetcher : Fetcher
  session : Bool
  poked : Bool
  lastSize : ℤ
  lastMtime : ℤ

/-- What one poll is answered. `reopen` is how opening the file again went: the failure's text, and whether
waiting may help; `head` is what the head read returned. -/
structure PollAnswers where
  movedTo : Option String
  byName : Option (ℕ×ℤ)
  connected : Bool
  troubleText : String
  wcSized : Bool
  fstatTracksHandle : Bool
  byHandle : Option ℕ
  stallProbeDue : Bool
  head : Option Bytes
  spoolOpens : Bool
  reopen : Except (String×Bool) Unit
  fresh : Option ℕ
  begins : Bool
  fetch : FetchCall

namespace Fetcher

def setWaiting (f : Fetcher) (message : String) : Fetcher := {f with state := .waiting,error := message}

end Fetcher

namespace SshPoller
open Fetcher

/-- Whether the log's head is not what the spool holds; a head that cannot be had differs from nothing. -/
def remoteHeadDiffersFromSpool (f : Fetcher) (a : PollAnswers) : Bool :=
  let want := min kHeadProbeBytes f.committedSize
  if want=0 then false else
    match a.head with
    | none => false
    | some remote => if remote.length≠want ∨ a.spoolOpens=false then false else f.spool.take want≠remote

/-- What the poll's stats justify. -/
def observed (p : SshPoller) (a : PollAnswers) (size : ℕ) (mtime : ℤ) : RemoteObservation where
  size := size
  mtime := mtime
  lastSize := p.lastSize
  lastMtime := p.lastMtime
  consumed := p.fetcher.consumed
  fstatTracksHandle := a.fstatTracksHandle
  handleValid := a.fstatTracksHandle && a.byHandle.isSome
  handleSize := if a.fstatTracksHandle then a.byHandle.getD 0 else 0

/-- Whether the poll takes the log for another file. -/
def rotated (p : SshPoller) (a : PollAnswers) (size : ℕ) (mtime : ℤ) : Bool :=
  let verdict := rotationVerdict (p.observed a size mtime)
  if verdict=.compareNow ∨ verdict=.comparePaced ∧ a.stallProbeDue then remoteHeadDiffersFromSpool p.fetcher a
  else verdict=.rotated

/-- A call's answer, where it has returned one: `Live` if it worked. -/
def liveIf (p : SshPoller) (r : Fetcher×Option Bool) : SshPoller×Bool :=
  match r with
  | (f,some true) => ({p with fetcher := f.setState .live},true)
  | (f,some false) => ({p with fetcher := f},true)
  | (f,none) => ({p with fetcher := f},false)

/-- A new generation of the log, its file opened again. -/
def restart (p : SshPoller) (names : FetchNames) (tailStartBytes : ℕ) (a : PollAnswers) : SshPoller×Bool :=
  match a.reopen with
  | .error (why,retryable) =>
    ({p with fetcher := if retryable then p.fetcher.setWaiting why else p.fetcher.setError why},true)
  | .ok _ =>
    let p := {p with lastSize := (a.fresh.map Nat.cast).getD p.lastSize}
    let size := a.fresh.getD 0
    let begun := SshFetcher.beginGeneration p.fetcher names size tailStartBytes a.begins
    if begun.2=false then ({p with fetcher := begun.1},true) else
      let f := begun.1.setState .priming
      if a.fresh.isSome ∧ f.baseOffset < size then
        p.liveIf (SshFetcher.fetchForward f names f.baseOffset size a.fetch)
      else ({p with fetcher := f.setState .live},true)

/-- `SshFetcher::pollOnce`, and whether it has returned. -/
def pollOnce (p : SshPoller) (names : FetchNames) (tailStartBytes : ℕ) (a : PollAnswers) : SshPoller×Bool :=
  match a.movedTo with
  | some _ =>
    ({p with session := false,poked := true
             fetcher := p.fetcher.setWaiting (names.displayHost++" moved to another address — reconnecting…")},true)
  | none =>
    match a.byName with
    | none =>
      if a.connected then ({p with fetcher := p.fetcher.setWaiting a.troubleText},true)
      else ({p with session := false
                    fetcher := p.fetcher.setWaiting
                      ("Lost the connection to "++names.host++" — reconnecting…")},true)
    | some (size,mtime) =>
      if a.wcSized ∧ kWcAbandonBytes < size then
        ({p with fetcher := p.fetcher.setError (names.path++" has grown past 64 MB, and "++names.host++
          " offers no way to measure it except by reading all of it. "++
          "Installing `stat` or `ls` on the server fixes this.")},true)
      else
        let rotated := p.rotated a size mtime
        let consumed := p.fetcher.consumed
        let current := p.fetcher.state
        let p := {p with lastMtime := mtime,lastSize := size}
        if rotated then p.restart names tailStartBytes a
        else if consumed < size then p.liveIf (SshFetcher.fetchForward p.fetcher names consumed size a.fetch)
        else if current=.error ∨ current=.waiting then ({p with fetcher := p.fetcher.setState .live},true)
        else (p,true)

end SshPoller

end Loftail
