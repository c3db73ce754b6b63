import Loftail.PercentEncoding
import Mathlib.Data.Int.Notation

/-! # Addresses of logs on other machines, and of logs inside archives -/
namespace Loftail
open QString

inductive Transport | ssh | serial | telnet | discovered
  deriving DecidableEq,Repr

/-- One log on another machine. -/
structure RemoteLocation where
  transport : Transport := .ssh
  user : Text := []
  host : Text := []
  path : Text := []
  port : ℤ := 22
  discoveryType : Text := []
  credentialOverride : Text := []
  deriving DecidableEq

/-- What `QUrl` keeps between the scheme and the path. -/
structure Authority where
  userName : Text
  host : Text
  port : Option ℤ
  deriving DecidableEq

/-- `QUrl`: what `StrictMode` reads from `scheme://authority` and from the rest of an address, the path fully
decoded, and how `FullyEncoded` spells them. -/
structure QUrl where
  readHead : Text→Option Authority
  readPath : Text→Option Text
  spellHead : Text→Authority→Text
  spellPath : Text→Text

/-- What the file system answers, from one working directory. -/
structure FileSystem where
  isFile : Text→Bool
  absoluteFilePath : Text→Text
  cleanPath : Text→Text
  isAbsolutePath : Text→Bool

/-- `QChar::toCaseFolded`, as far as a comparison with ASCII tells: the long s and the Kelvin sign fold to
letters. -/
def foldCase (u : UInt16) : UInt16 :=
  if 0x41≤u ∧ u≤0x5A then u+0x20 else if u=0x17F then 0x73 else if u=0x212A then 0x6B else u

/-- `startsWith` of a lower-case literal, without regard to case. -/
def startsWithFolded (s word : Text) : Bool := word.isPrefixOf (s.map foldCase)

def endsWithFolded (s word : Text) : Bool := word.isSuffixOf (s.map foldCase)

def QString.indexOf (word : Text) : Text→Option ℕ
  | [] => if word.isEmpty then some 0 else none
  | u::t => if word.isPrefixOf (u::t) then some 0 else (QString.indexOf word t).map (·+1)

def lastIndexOf (u : UInt16) : Text→Option ℕ
  | [] => none
  | v::t => match lastIndexOf u t with
    | some i => some (i+1)
    | none => if v=u then some 0 else none

def slash : UInt16 := 0x2F

/-- A remote path may be written relative to the login directory, a URL's path always starts at `/`. -/
def pathFromUrl (urlPath : Text) : Text := if (latin1 "/~").isPrefixOf urlPath then urlPath.drop 1 else urlPath

def pathToUrl (remotePath : Text) : Text := if [slash].isPrefixOf remotePath then remotePath else slash::remotePath

def isNoncharacter (n : ℕ) : Bool := (0xFDD0≤n && n≤0xFDEF) || n%0x10000≥0xFFFE

def holdsNoncharacter : Text→Bool
  | [] => false
  | [u] => isNoncharacter u.toNat
  | u::v::t =>
    if isHighSurrogate u && isLowSurrogate v then isNoncharacter (surrogateToUcs4 u v).toNat || holdsNoncharacter t
    else isNoncharacter u.toNat || holdsNoncharacter (v::t)

def holdsNul (s : Text) : Bool := s.contains 0

namespace RemoteLocation

def kSerialScheme : Text := latin1 "serial://"
def kTelnetScheme : Text := latin1 "telnet://"
def kDiscoverScheme : Text := latin1 "discover://"
def kDefaultPort : ℤ := 22

def isRemote (s : Text) : Bool :=
  startsWithFolded s (latin1 "ssh://") || startsWithFolded s (latin1 "sftp://") ||
    startsWithFolded s kSerialScheme ||
    startsWithFolded s kTelnetScheme || startsWithFolded s kDiscoverScheme

def defaultPortFor : Transport→ℤ
  | .telnet => 23
  | _ => kDefaultPort

def isValid (loc : RemoteLocation) : Bool := !loc.host.isEmpty && !loc.path.isEmpty

def isHex (u : UInt16) : Bool := (0x30≤u && u≤0x39) || (0x61≤u && u≤0x66) || (0x41≤u && u≤0x46)

def escapesAreWellFormed : Text→Bool
  | [] => true
  | 0x25::a::b::t => isHex a && isHex b && escapesAreWellFormed t
  | 0x25::_ => false
  | _::t => escapesAreWellFormed t

def isValidSerialDeviceName (name : Text) : Bool :=
  !name.isEmpty && name.all fun u =>
    (0x61≤u && u≤0x7A) || (0x41≤u && u≤0x5A) || (0x30≤u && u≤0x39) || u=0x2E || u=0x5F || u=0x2D

/-- The account and the device of a serial authority; a password is dropped on the floor. -/
def splitUserinfo (authority : Text) : Text×Text :=
  match lastIndexOf 0x40 authority with
  | none => ([],authority)
  | some i =>
    let userinfo := authority.take i
    (match indexOf [0x3A] userinfo with | some colon => userinfo.take colon | none => userinfo,authority.drop (i+1))

/-- `serial://[user[:password]@]device/path`. -/
def parseSerial (s : Text) : Option RemoteLocation :=
  let rest := s.drop kSerialScheme.length
  (indexOf [slash] rest).bind fun cut =>
    let authority := rest.take cut
    let rawPath := rest.drop cut
    let loc : RemoteLocation := {
      transport := .serial
      user := fromPercentEncoding (splitUserinfo authority).1
      host := (splitUserinfo authority).2
      path := pathFromUrl (fromPercentEncoding rawPath)
      port := kDefaultPort}
    if cut=0 then none
    else if !escapesAreWellFormed authority || !escapesAreWellFormed rawPath then none
    else if !isValidSerialDeviceName loc.host then none
    else if !loc.isValid then none
    else if holdsNoncharacter loc.user || holdsNoncharacter loc.host || holdsNoncharacter loc.path then none
    else if holdsNul loc.user || holdsNul loc.path then none
    else some loc

/-- `discover://<type>/<device id>/<path>`. -/
def parseDiscovered (s : Text) : Option RemoteLocation :=
  let rest := s.drop kDiscoverScheme.length
  (indexOf [slash] rest).bind fun first =>
    (indexOf [slash] (rest.drop (first+1))).bind fun idLength =>
      let rawType := rest.take first
      let rawId := (rest.drop (first+1)).take idLength
      let rawPath := (rest.drop (first+1)).drop idLength
      let loc : RemoteLocation := {
        transport := .discovered
        discoveryType := fromPercentEncoding rawType
        host := fromPercentEncoding rawId
        path := pathFromUrl (fromPercentEncoding rawPath)
        port := kDefaultPort}
      if first=0 then none
      else if idLength=0 then none
      else if !escapesAreWellFormed rawType || !escapesAreWellFormed rawId ||
        !escapesAreWellFormed rawPath then none
      else if rawType.contains 0x40 then none
      else if loc.discoveryType.isEmpty || !loc.isValid then none
      else if holdsNoncharacter loc.discoveryType || holdsNoncharacter loc.host || holdsNoncharacter loc.path ||
        holdsNul loc.discoveryType || holdsNul loc.host || holdsNul loc.path then none
      else some loc

/-- Where the authority of a URL ends. -/
def endsAuthority (u : UInt16) : Bool := u=0x2F || u=0x3F || u=0x23

/-- `scheme://authority`. -/
def urlHead (s : Text) : Text :=
  match indexOf (latin1 "://") s with
  | none => s
  | some i => s.take (i+3)++(s.drop (i+3)).takeWhile (fun u => !endsAuthority u)

section
variable (q : QUrl)

/-- The address that a text spells, where it spells one. -/
def parse (s : Text) : Option RemoteLocation :=
  if !isRemote s then none
  else if startsWithFolded s kSerialScheme then parseSerial s
  else if startsWithFolded s kDiscoverScheme then parseDiscovered s
  else
    (q.readHead (urlHead s)).bind fun url =>
      (q.readPath (s.drop (urlHead s).length)).bind fun urlPath =>
        let transport : Transport := if startsWithFolded s kTelnetScheme then .telnet else .ssh
        let loc : RemoteLocation := {
          transport
          user := url.userName
          host := url.host
          port := url.port.getD (defaultPortFor transport)
          path := pathFromUrl urlPath}
        if url.host.isEmpty then none
        else if !loc.isValid then none
        else if holdsNoncharacter loc.user || holdsNoncharacter loc.host || holdsNoncharacter loc.path then none
        else if loc.port < 1 ∨ 65535 < loc.port then none
        else some loc

/-- The normal form. -/
def toString (loc : RemoteLocation) : Text :=
  match loc.transport with
  | .discovered =>
    kDiscoverScheme++toPercentEncoding loc.discoveryType []++slash::toPercentEncoding loc.host []++
      toPercentEncoding (pathToUrl loc.path) (ascii "/~")
  | .serial =>
    kSerialScheme++(if loc.user.isEmpty then [] else toPercentEncoding loc.user []++[0x40])++loc.host++
      toPercentEncoding (pathToUrl loc.path) (ascii "/~")
  | .telnet => q.spellHead (latin1 "telnet") ⟨loc.user,loc.host,some loc.port⟩++q.spellPath (pathToUrl loc.path)
  | .ssh => q.spellHead (latin1 "ssh") ⟨loc.user,loc.host,some loc.port⟩++q.spellPath (pathToUrl loc.path)

def normalize (s : Text) : Text :=
  match parse q s with
  | some loc => loc.toString q
  | none => s

end
end RemoteLocation

/-- A path cleaned until cleaning it again moves nothing, in at most so many passes. -/
def cleanPasses (fs : FileSystem) : ℕ→Text→Text
  | 0,cleaned => cleaned
  | n+1,cleaned => if fs.cleanPath cleaned=cleaned then cleaned else cleanPasses fs n (fs.cleanPath cleaned)

def kMaxCleanPasses : ℕ := 4

def cleanedToFixedPoint (fs : FileSystem) (path : Text) : Text :=
  let cleaned := cleanPasses fs kMaxCleanPasses path
  if fs.isAbsolutePath path && !fs.isAbsolutePath cleaned then path else cleaned

def absoluteLocalPath (fs : FileSystem) (path : Text) : Text :=
  if holdsNul path then path else cleanedToFixedPoint fs (fs.absoluteFilePath path)

/-- A container and the member inside it. -/
structure ArchiveLocation where
  container : Text
  member : Text
  deriving DecidableEq

namespace ArchiveLocation
open RemoteLocation

def kContainerSuffixes : List Text :=
  [latin1 ".tar.gz",latin1 ".tar.bz2",latin1 ".tar.xz",latin1 ".tar.zst",latin1 ".tar.z",
    latin1 ".tgz",latin1 ".tbz",
    latin1 ".tbz2",latin1 ".txz",latin1 ".tzst",latin1 ".taz",latin1 ".tar",latin1 ".zip",latin1 ".7z"]

def kSingleStreamSuffixes : List Text :=
  [latin1 ".gz",latin1 ".bz2",latin1 ".xz",latin1 ".zst",latin1 ".lzma",latin1 ".z"]

def lastComponent (path : Text) : Text :=
  match lastIndexOf slash path with
  | none => path
  | some cut => path.drop (cut+1)

def endsWithAny (name : Text) (suffixes : List Text) : Bool :=
  suffixes.any fun suffix => suffix.length < name.length && endsWithFolded name suffix

/-- A component that carries an archive extension of either kind. -/
def isArchiveComponent (comp : Text) : Bool :=
    endsWithAny comp kContainerSuffixes || endsWithAny comp kSingleStreamSuffixes

/-- The walk over the components, `start` units into the path and with `comp` read of the component there. -/
def archiveCutFrom (start : ℕ) (comp : Text) : Text→Option ℕ
  | [] => if isArchiveComponent comp then some start else none
  | u::t =>
    if u=slash then if isArchiveComponent comp then some start else archiveCutFrom (start+1) [] t
    else archiveCutFrom (start+1) (comp++[u]) t

/-- Where the container ends: at the separator after the first component with an archive extension, or at the
end. -/
def archiveCut (path : Text) : Option ℕ := archiveCutFrom 0 [] path

/-- Where the path begins inside a remote address. -/
def remotePathStart (s : Text) : Option ℕ :=
  (indexOf (latin1 "://") s).bind fun scheme => (indexOf [slash] (s.drop (scheme+3))).map fun i => scheme+3+i

def isSingleStreamName (name : Text) : Bool :=
  !endsWithAny (lastComponent name) kContainerSuffixes && endsWithAny (lastComponent name) kSingleStreamSuffixes

def isContainerName (name : Text) : Bool := endsWithAny (lastComponent name) kContainerSuffixes

/-- `QDir::fromNativeSeparators`: a backslash is an ordinary character here. -/
def fromNativeSeparators (path : Text) : Text := path

def isSingleStream (loc : ArchiveLocation) : Bool := !isContainerName loc.container

section
variable (q : QUrl) (fs : FileSystem)

/-- The container and the member of an address, where it addresses an archive. -/
def split (path : Text) : Option ArchiveLocation :=
  if path.isEmpty then none
  else if isRemote path then
    (parse q path).bind fun _ => (remotePathStart path).bind fun pathStart =>
      (archiveCut (path.drop pathStart)).bind fun cut =>
        (parse q (path.take (pathStart+cut))).bind fun containerUrl =>
          if !isContainerName containerUrl.path && !isSingleStreamName containerUrl.path then none
          else some ⟨containerUrl.toString q,(path.drop pathStart).drop (cut+1)⟩
  else
    let native := fromNativeSeparators path
    if fs.isFile native then if isContainerName native || isSingleStreamName native then some ⟨native,[]⟩ else none
    else (archiveCut native).map fun cut => ⟨native.take cut,native.drop (cut+1)⟩

def toString (loc : ArchiveLocation) : Text :=
  if loc.container.isEmpty then []
  else
    let base := if isRemote loc.container then normalize q loc.container
      else absoluteLocalPath fs (fromNativeSeparators loc.container)
    if loc.isSingleStream || loc.member.isEmpty then base else base++slash::loc.member

end
end ArchiveLocation

section
variable (q : QUrl) (fs : FileSystem)

def normalizeLogPathOnce (s : Text) : Text :=
  match ArchiveLocation.split q fs s with
  | some loc => loc.toString q fs
  | none => RemoteLocation.normalize q s

def kMaxNormalizePasses : ℕ := 4

/-- The passes after the first. -/
def normalizePasses : ℕ→Text→Text
  | 0,normal => normal
  | n+1,normal =>
    if normalizeLogPathOnce q fs normal=normal then normal else normalizePasses n (normalizeLogPathOnce q fs normal)

def normalizeLogPath (s : Text) : Text := normalizePasses q fs (kMaxNormalizePasses-1) (normalizeLogPathOnce q fs s)

end
end Loftail
