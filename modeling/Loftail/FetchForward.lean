import Loftail.BufferedFile
import Loftail.SpooledLogSource

/-! # The fetch that appends a log's new bytes to its spool file

Over SSH and over a console. What the log holds is fetched from an offset on and appended to the
generation's file; the size published is where the next fetch resumes from. -/
namespace Loftail

/-- What the fetches read and write of a fetcher. `reads` is the transport's answers so far, each
with the offset it was asked for; no code reads it. -/
structure Fetcher where
  state : FetchState
  error : String
  baseOffset : ℕ
  committedSize : ℕ
  totalSize : ℕ
  generation : ℕ
  heldCommit : ℕ
  holdBackCommits : Bool
  stopping : Bool
  spools : ℕ→Bytes
  reads : List (ℕ×Bytes)

/-- One pass of the loop: whether a stop was asked for before it, what the transport answered, how the write
and the flush went. -/
structure FetchPass where
  stop : Bool
  read : Except String Bytes
  write : WriteOutcome
  flush : Option ℕ

/-- One call: whether the spool file opened, its passes, and what the close moved. -/
structure FetchCall where
  opened : Bool
  passes : List FetchPass
  closing : ℕ

/-- The names that appear in messages, and how much one read may ask for. -/
structure FetchNames where
  host : String
  displayHost : String
  path : String
  spoolPath : ℕ→String
  chunkBytes : ℕ

/-- `kSshFetchChunkBytes`. -/
def kSshFetchChunkBytes : ℕ := 1024*1024

/-- `kPrimeBytes` of the SSH fetcher. -/
def kPrimeBytes : ℕ := 128*1024

namespace Fetcher

def setError (f : Fetcher) (message : String) : Fetcher := {f with state := .error,error := message}

def setState (f : Fetcher) (state : FetchState) : Fetcher :=
  {f with state := state,error := if state≠.error ∧ state≠.waiting then "" else f.error}

/-- Where a poll resumes from. -/
def consumed (f : Fetcher) : ℕ := f.baseOffset+f.committedSize

/-- The generation's spool file as it is on disk. -/
def spool (f : Fetcher) : Bytes := f.spools f.generation

def setSpool (f : Fetcher) (generation : ℕ) (bytes : Bytes) : Fetcher :=
  {f with spools := Function.update f.spools generation bytes}

/-- What both fetchers do to begin a generation of a log of `remoteSize` bytes, `opened` being whether the new
file was. -/
def beginGeneration (f : Fetcher) (names : FetchNames) (remoteSize tailStartBytes : ℕ) (opened : Bool) :
    Fetcher×Bool :=
  let next := f.generation+1
  let base := if tailStartBytes > 0 ∧ remoteSize > tailStartBytes then remoteSize-tailStartBytes else 0
  if opened then
    ({f.setSpool next [] with baseOffset := base,committedSize := 0,totalSize := remoteSize,generation := next},
      true)
  else (f.setError ("Cannot write the local cache file "++names.spoolPath next++"."),false)

/-- What a fetch leaves: the fetcher, the file, and its answer once it has returned. -/
abbrev Fetched := Fetcher×BufferedFile×Option Bool

end Fetcher

namespace SshFetcher
open Fetcher

/-- `SshFetcher::beginGeneration`. -/
def beginGeneration (f : Fetcher) (names : FetchNames) (remoteSize tailStartBytes : ℕ) (opened : Bool) :
    Fetcher×Bool :=
  let begun := f.beginGeneration names remoteSize tailStartBytes opened
  if begun.2 then ({begun.1 with heldCommit := 0},true) else begun

/-- The bytes up to `offset` are on disk. -/
def publish (f : Fetcher) (offset : ℕ) : Fetcher :=
  let held := offset-f.baseOffset
  {f with heldCommit := held
          totalSize := max f.totalSize offset
          committedSize := if f.holdBackCommits then f.committedSize else held}

/-- The loop of `SshFetcher::fetchForward`. Where the passes end it is still running. -/
def fetchLoop (names : FetchNames) (generation span toRemoteOffset : ℕ) : List FetchPass→ℕ→Fetcher→
    BufferedFile→Fetched
  | passes,offset,f,file =>
    if toRemoteOffset≤offset then (f,file,some true) else
    match passes with
    | [] => (f,file,none)
    | pass::passes =>
      let f := {f with stopping := f.stopping || pass.stop}
      if f.stopping then (f,file,some true)
      else if f.generation≠generation then (f,file,some true)
      else
        match pass.read with
        | .error why =>
          (f.setError (if why="" then "Lost the connection to "++names.host++"." else why),file,some false)
        | .ok answer =>
          let got := answer.take (min span (toRemoteOffset-offset))
          if got=[] then (f,file,some true) else
          let f := {f with reads := f.reads++[(offset,got)]}
          let failed := f.setError ("Cannot write to the local cache file "++names.spoolPath generation++".")
          let written := file.write got pass.write
          if written.2≠got.length then (failed,written.1,some false) else
          let flushed := written.1.flush pass.flush
          if flushed.2=false then (failed,flushed.1,some false) else
          if f.generation≠generation then (f,flushed.1,some true) else
          fetchLoop names generation span toRemoteOffset passes (offset+got.length)
            (publish f (offset+got.length)) flushed.1

/-- `SshFetcher::fetchForward`: `none` while it runs, its file as it then is on disk. -/
def fetchForward (f : Fetcher) (names : FetchNames) (fromRemoteOffset toRemoteOffset : ℕ) (call : FetchCall) :
    Fetcher×Option Bool :=
  let generation := f.generation
  if call.opened=false then
    (f.setError ("Cannot append to the local cache file "++names.spoolPath generation++"."),some false)
  else
    let span := min (toRemoteOffset-fromRemoteOffset) kSshFetchChunkBytes
    let r := fetchLoop names generation span toRemoteOffset call.passes fromRemoteOffset f
      (.open_ (f.spools generation))
    match r.2.2 with
    | none => (r.1.setSpool generation r.2.1.disk,none)
    | some ok => (r.1.setSpool generation (r.2.1.close call.closing),some ok)

def publishHeldCommits (f : Fetcher) : Fetcher := {f with committedSize := max f.heldCommit f.committedSize}

/-- What `SshFetcher::establish` fetches of a log of `size` bytes before it says anything. -/
def primed (f : Fetcher) (names : FetchNames) (size : ℕ) (call : FetchCall) : Fetcher×Option Bool :=
  let primeTo := min size (f.baseOffset+kPrimeBytes)
  if primeTo≤f.baseOffset then (f,some true) else fetchForward f names f.baseOffset primeTo call

/-- The first fetch of `SshFetcher::establish`: nothing of it is published before all of it. -/
def prime (f : Fetcher) (names : FetchNames) (size : ℕ) (call : FetchCall) : Fetcher×Option Bool :=
  match primed {f with holdBackCommits := true} names size call with
  | (g,none) => (g,none)
  | (g,some true) => (publishHeldCommits {g with holdBackCommits := false},some true)
  | (g,some false) => ({g with holdBackCommits := false},some false)

end SshFetcher

namespace ConsoleFetcher
open Fetcher

/-- The loop of `ConsoleFetcher::fetchForward`. -/
def fetchLoop (names : FetchNames) (generation to_ : ℕ) : List FetchPass→ℕ→Fetcher→BufferedFile→Fetched
  | passes,offset,f,file =>
    if to_≤offset then (f,file,some true) else
    match passes with
    | [] => (f,file,none)
    | pass::passes =>
      let f := {f with stopping := f.stopping || pass.stop}
      if f.stopping then (f,file,some true)
      else
        match pass.read with
        | .error _ => (f.setError ("Could not read "++names.path++" from "++names.host++"."),file,some false)
        | .ok answer =>
          let got := answer.take (min names.chunkBytes (to_-offset))
          if got=[] then (f,file,some true) else
          let f := {f with reads := f.reads++[(offset,got)]}
          let written := file.write got pass.write
          if written.2≠got.length then
            (f.setError ("Cannot write to the local cache file "++names.spoolPath generation++"."),
              written.1,some false)
          else
            -- The flush's answer is not looked at.
            fetchLoop names generation to_ passes (offset+got.length)
              {f with committedSize := offset+got.length-f.baseOffset} (written.1.flush pass.flush).1

/-- `ConsoleFetcher::fetchForward`: `none` while it runs, its file as it then is on disk. -/
def fetchForward (f : Fetcher) (names : FetchNames) (from_ to_ : ℕ) (call : FetchCall) : Fetcher×Option Bool :=
  let generation := f.generation
  if call.opened=false then
    (f.setError ("Cannot append to the local cache file "++names.spoolPath generation++"."),some false)
  else
    let r := fetchLoop names generation to_ call.passes from_ f (.open_ (f.spools generation))
    match r.2.2 with
    | none => (r.1.setSpool generation r.2.1.disk,none)
    | some ok => (r.1.setSpool generation (r.2.1.close call.closing),some ok)

end ConsoleFetcher

end Loftail
