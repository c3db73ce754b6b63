import Loftail.ArchiveSplits

/-! # What a log is called: its name, its address as a person reads it, and what a pattern is matched against -/
namespace Loftail
open QString

/-- `QFileInfo::fileName`. -/
def fileName (path : Text) : Text := ArchiveLocation.lastComponent path

namespace RemoteLocation

/-- A name as written, encoded where it would read as two names or as an account. -/
def shownName (n : Text) : Text := if n.contains slash || n.contains 0x40 then toPercentEncoding n
    (ascii " :") else n

/-- The normal form with its percent encoding taken off. -/
def toDisplayString (loc : RemoteLocation) : Text :=
  match loc.transport with
  | .discovered => kDiscoverScheme++shownName loc.discoveryType++slash::shownName loc.host++pathToUrl loc.path
  | .serial => kSerialScheme++(if loc.user.isEmpty then [] else loc.user++[0x40])++loc.host++pathToUrl loc.path
  | .telnet | .ssh =>
    (if loc.transport=.telnet then kTelnetScheme else latin1 "ssh://")++
      (if loc.user.isEmpty then [] else loc.user++[0x40])++
      (if loc.host.contains 0x3A then latin1 "["++loc.host++latin1 "]" else loc.host)++latin1 ":"++
        latin1 loc.port.repr++
      pathToUrl loc.path

/-- A device that announces a UUID is called by its type and by the first group of the UUID. -/
def displayHost (loc : RemoteLocation) : Text :=
  if loc.transport=.discovered ∧ startsWithFolded loc.host (latin1 "urn:uuid:") then
    loc.discoveryType++latin1 " "++(loc.host.drop 9).takeWhile (·≠0x2D)
  else loc.host

/-- An address with its password cut out, by hand. -/
def withoutPassword (s : Text) : Text :=
  if !isRemote s then s
  else
    match indexOf (latin1 "://") s with
    | none => s
    | some schemeEnd =>
      let authorityStart := schemeEnd+3
      let authorityEnd := match indexOf [slash] (s.drop authorityStart) with
        | some i => authorityStart+i
        | none => s.length
      if authorityEnd≤authorityStart then s
      else
        match lastIndexOf 0x40 (s.take authorityEnd) with
        | none => s
        | some mark =>
          if mark < authorityStart then s
          else
            match indexOf [0x3A] (s.drop authorityStart) with
            | none => s
            | some i => if mark < authorityStart+i then s else s.take (authorityStart+i)++s.drop mark

end RemoteLocation

open RemoteLocation ArchiveLocation

def ArchiveLocation.displayMember (loc : ArchiveLocation) : Text :=
  if !loc.isSingleStream then fileName loc.member
  else
    let name := fileName (lastComponent loc.container)
    match kSingleStreamSuffixes.find? (fun suffix => suffix.length < name.length && endsWithFolded name suffix) with
    | some suffix => name.take (name.length-suffix.length)
    | none => name

def unnamed : Text := latin1 "(unnamed)"

/-- The name of an address with no file name in it: its last segment, or its scheme. -/
def tailName (address : Text) : Text :=
  let rest := withoutPassword address
  let cut : Text×Text :=
    if isRemote address then
      match indexOf (latin1 "://") rest with
      | some mark => (rest.take mark,rest.drop (mark+3))
      | none => (rest,rest.drop 2)
    else ([],rest)
  match ((cut.2.splitOn slash).filter (!·.isEmpty)).getLast? with
  | some segment => segment
  | none => if cut.1.isEmpty then unnamed else cut.1

def orTailOf (name whole : Text) : Text := if name.isEmpty then tailName whole else name

/-- The log's own name, and where the log is. -/
structure NameParts where
  bare : Text
  qualifier : Text
  deriving DecidableEq

def composeName (parts : NameParts) : Text :=
  if parts.qualifier.isEmpty then parts.bare else parts.bare++latin1 " ("++parts.qualifier++latin1 ")"

section
variable (q : QUrl) (fs : FileSystem)

def plainNameParts (path : Text) : NameParts :=
  match parse q path with
  | some loc => ⟨orTailOf (fileName loc.path) loc.path,loc.displayHost⟩
  | none => if isRemote path then ⟨tailName path,[]⟩ else ⟨orTailOf (fileName path) path,[]⟩

def plainDisplayName (path : Text) : Text := composeName (plainNameParts q path)

/-- A normal form as a person reads it. -/
def decodedAddress (normalized : Text) : Text :=
  match split q fs normalized with
  | some loc =>
    match parse q loc.container with
    | none => withoutPassword normalized
    | some url =>
      if loc.isSingleStream || loc.member.isEmpty then url.toDisplayString else url.toDisplayString++
        slash::loc.member
  | none =>
    match parse q normalized with
    | some url => url.toDisplayString
    | none => withoutPassword normalized

/-- What a file pattern is matched against. -/
def logMatchTarget (path : Text) (fullPath : Bool) : Text :=
  let normalized := normalizeLogPath q fs path
  if fullPath then decodedAddress q fs normalized
  else
    match split q fs normalized with
    | some loc => loc.displayMember
    | none =>
      match parse q normalized with
      | some url => fileName url.path
      | none => fileName normalized

def nameParts (path : Text) : NameParts :=
  match split q fs path with
  | none => plainNameParts q path
  | some loc =>
    let member := orTailOf loc.displayMember (if loc.member.isEmpty then loc.container else loc.member)
    if loc.isSingleStream then
      if isRemote loc.container then
        match parse q loc.container with
        | some url => ⟨member,url.displayHost⟩
        | none => ⟨member,[]⟩
      else ⟨member,[]⟩
    else if loc.member.isEmpty then plainNameParts q loc.container
    else ⟨member,plainDisplayName q loc.container⟩

def logSourceDisplayName (path : Text) : Text := composeName (nameParts q fs path)

def logSourceBareName (path : Text) : Text := (nameParts q fs path).bare

def logSourceDisplayPath (path : Text) : Text := decodedAddress q fs (normalizeLogPath q fs path)

end
end Loftail
