import Loftail.ContainerReading
import Loftail.RemoteLocation
import Loftail.SafePrograms

/-! # An archive member expanded into a spool

The worker opens the member, begins a generation of its own spool, and appends what the decompressor
makes of the container's bytes. The decompressor is a parameter: programs that ask for blocks. -/
namespace Loftail

/-- A program of the decompressor; each question is one `readBlock`. -/
abbrev Decompressing (α : Type) := Program Unit (fun _ => Bytes) α

/-- What libarchive is asked for: a stream over the input, the member in it, a stream over that member
for a member that is compressed itself, and the member's bytes, none at its end. -/
structure Codec (S : Type) where
  openStream : Bool→Decompressing (Except String S)
  seekToMember : S→Text→Decompressing (Option String×S)
  openNested : S→Decompressing (Except String S)
  currentSize : S→ℤ
  read : S→ℕ→Decompressing (Except String Bytes×S)

namespace ArchiveFetcher

def kChunkBytes : ℕ := 256*1024

def kPrimeBytes : ℕ := 128*1024

def kAssumedRatio : ℕ := 10

/-- `FetchStatus` as an expansion publishes it. -/
structure Status where
  state : FetchState
  generation : ℕ
  committedSize : ℕ
  baseOffset : ℕ
  totalSize : ℕ
  error : String
  deriving DecidableEq

/-- How a write and its flush end. -/
inductive SpoolWrite
  | landed
  | full
  | failed

/-- What the worker does. A `publish` is one section under the mutex, answered by the status found. -/
inductive ExpandOp
  | stopping
  | openStream (allowRaw : Bool)
  | seekToMember (member : Text)
  | openNested
  | currentSize
  | inputSize
  | bytesAvailable
  | createSpool (generation : ℕ)
  | openSpool (generation : ℕ)
  | append (generation : ℕ) (bytes : Bytes)
  | read (want : ℕ)
  | resetStream
  | publish (f : Status→Status)

def Answer : ExpandOp→Type
  | .stopping => Bool
  | .openStream _ => Option String
  | .seekToMember _ => Option String
  | .openNested => Option String
  | .currentSize => ℤ
  | .inputSize => ℕ
  | .bytesAvailable => Option ℕ
  | .createSpool _ => Bool
  | .openSpool _ => Bool
  | .append _ _ => SpoolWrite
  | .read _ => Except String Bytes
  | .resetStream => Unit
  | .publish _ => Status

abbrev Worker := Program ExpandOp Answer

/-- The container and the member, and the names that appear in messages. -/
structure Names where
  location : ArchiveLocation
  container : String
  member : String
  containerFile : String
  displayName : String
  spoolPath : ℕ→String
  formattedDataSize : ℕ→String

section Operations

abbrev perform (o : ExpandOp) : Worker (Answer o) := Program.ask o

abbrev stopping : Worker Bool := perform .stopping

abbrev openStream (allowRaw : Bool) : Worker (Option String) := perform (.openStream allowRaw)

abbrev seekToMember (member : Text) : Worker (Option String) := perform (.seekToMember member)

abbrev openNested : Worker (Option String) := perform .openNested

abbrev currentSize : Worker ℤ := perform .currentSize

abbrev inputSize : Worker ℕ := perform .inputSize

abbrev bytesAvailable : Worker (Option ℕ) := perform .bytesAvailable

abbrev createSpool (generation : ℕ) : Worker Bool := perform (.createSpool generation)

abbrev openSpool (generation : ℕ) : Worker Bool := perform (.openSpool generation)

abbrev append (generation : ℕ) (bytes : Bytes) : Worker SpoolWrite := perform (.append generation bytes)

abbrev read (want : ℕ) : Worker (Except String Bytes) := perform (.read want)

abbrev resetStream : Worker Unit := perform .resetStream

abbrev publish (f : Status→Status) : Worker Status := perform (.publish f)

end Operations

/-- `status()`. -/
def status : Worker Status := publish id

def setState (state : FetchState) : Worker Unit := do
  let _ ← publish fun st => {st with state,error := if state=.error ∨ state=.waiting then st.error else ""}

def setError (message : String) : Worker Unit := do
  let _ ← publish fun st => {st with state := .error,error := message}

/-- The message of a refusal, where the disk is said to have too little room. -/
def checkFreeSpace (names : Names) (expandedSize : ℤ) : Worker (Option String) := do
  let available ← bytesAvailable
  let inputSize ← inputSize
  let needed := if expandedSize≤0 then inputSize*kAssumedRatio else expandedSize.toNat
  return available.bind fun available =>
    if needed=0 ∨ needed≤available then none
    else some ("Not enough space in the cache directory to expand "++names.displayName++": it needs about "++
      names.formattedDataSize needed++" and there is "++names.formattedDataSize available++" free.")

/-- The new generation is published last, its file there and empty. -/
def beginGeneration (names : Names) (expandedSize : ℤ) : Worker Bool := do
  let found ← status
  let next := found.generation+1
  if ← createSpool next then
    let _ ← publish fun st =>
      {st with baseOffset := 0,committedSize := 0,totalSize := expandedSize.toNat,generation := next}
    return true
  else
    setError ("Cannot write the local cache file "++names.spoolPath next++".")
    return false

/-- What `expand` ends with: whether it went well, whether the member was read to its end, and the tally
of what was written. -/
structure Expanded where
  ok : Bool
  finished : Bool
  heldCommit : ℕ

/-- Bytes are published after their write; during the prime they are only tallied. -/
def publishWritten (holdBackCommits : Bool) (held : ℕ) : Worker Unit := do
  let _ ← publish fun st =>
    {st with totalSize := max st.totalSize held,committedSize := if holdBackCommits then st.committedSize else held}

/-- The loop of `expand`; `none` where the fuel runs out. -/
def expandFrom (names : Names) (limit generation : ℕ) (holdBackCommits : Bool) : ℕ→ℕ→ℕ→Worker (Option Expanded)
  | 0,_,_ => return none
  | fuel+1,written,held => do
    if limit≠0 ∧ limit≤written then return some ⟨true,false,held⟩
    else if ← stopping then return some ⟨true,false,held⟩
    else
      let got ← read (if limit=0 then kChunkBytes else min kChunkBytes (limit-written))
      -- a stop raised while the read was waiting is not an outcome of it
      if ← stopping then return some ⟨true,false,held⟩
      else
        match got with
        | .error readError =>
          setError (if readError="" then "Cannot expand "++names.container++"." else readError)
          return some ⟨false,false,held⟩
        | .ok [] => return some ⟨true,true,held⟩
        | .ok bytes =>
          match ← append generation bytes with
          | .landed =>
            publishWritten holdBackCommits (held+bytes.length)
            expandFrom names limit generation holdBackCommits fuel (written+bytes.length) (held+bytes.length)
          | .full =>
            setError ("Ran out of space while expanding "++names.displayName++
              ". What was expanded so far is still shown.")
            return some ⟨false,false,held⟩
          | .failed =>
            setError ("Cannot write to the local cache file "++names.spoolPath generation++".")
            return some ⟨false,false,held⟩

def expand (names : Names) (fuel limit : ℕ) (holdBackCommits : Bool) (held : ℕ) : Worker (Option Expanded) := do
  let found ← status
  if ← openSpool found.generation then expandFrom names limit found.generation holdBackCommits fuel 0 held
  else
    setError ("Cannot append to the local cache file "++names.spoolPath found.generation++".")
    return some ⟨false,false,held⟩

def publishHeldCommits (held : ℕ) : Worker Unit := do
  let _ ← publish fun st => {st with committedSize := max held st.committedSize}

def publishComplete : Worker Unit := do
  let _ ← publish fun st => {st with totalSize := st.committedSize,error := "",state := .complete}

/-- What `beginExpansion` leaves: a failure, a member expanded to its end, or a stream still to be read,
with the tally. -/
inductive Begun
  | failed (error : String)
  | whole
  | underway (held : ℕ)

/-- A failure is published, and the stream is reset. -/
def abandon (error : String) : Worker (Option Begun) := do
  setError error
  resetStream
  return some (.failed error)

/-- The failure was published before. -/
def abandonPublished : Worker (Option Begun) := do
  let found ← status
  resetStream
  return some (.failed found.error)

/-- The prime expanded and published. -/
def prime (names : Names) (fuel : ℕ) : Worker (Option Begun) := do
  match ← expand names fuel kPrimeBytes true 0 with
  | none => return none
  | some ⟨false,_,_⟩ => abandonPublished
  | some ⟨true,finished,held⟩ =>
    publishHeldCommits held
    if finished then
      resetStream
      publishComplete
      return some .whole
    else return some (.underway held)

/-- From the member found on. -/
def establish (names : Names) (fuel : ℕ) : Worker (Option Begun) := do
  let size ← currentSize
  match ← checkFreeSpace names size with
  | some spaceError => abandon spaceError
  | none =>
    setState .priming
    if ← beginGeneration names (← currentSize) then prime names fuel else abandonPublished

def beginExpansion (names : Names) (fuel : ℕ) : Worker (Option Begun) := do
  match ← openStream (ArchiveLocation.isSingleStreamName names.location.container) with
  | some streamError => abandon streamError
  | none =>
    match ← seekToMember names.location.member with
    | some streamError => abandon streamError
    | none =>
      if ArchiveLocation.isSingleStreamName names.location.member then
        match ← openNested with
        | some streamError => abandon streamError
        | none => establish names fuel
      else if ArchiveLocation.isContainerName names.location.member then
        abandon (names.member++" is an archive inside "++names.containerFile++
          ". Extract it first and open it on its own.")
      else establish names fuel

def expandRest (names : Names) (fuel held : ℕ) : Worker Unit := do
  match ← expand names fuel 0 false held with
  | some ⟨true,true,_⟩ => publishComplete
  | _ => return ()

/-- The worker, once the container has something to give. -/
def work (names : Names) (fuel : ℕ) : Worker Unit := do
  match ← beginExpansion names fuel with
  | some (.underway held) => expandRest names fuel held
  | _ => return ()

end ArchiveFetcher

end Loftail
