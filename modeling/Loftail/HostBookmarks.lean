import Loftail.JsonValues
import Loftail.LogFileStore
import Loftail.NamedEntries

/-! # The saved hosts and the remote types, one file

Each write reads the file, changes one of its two arrays and writes the whole file back. -/
namespace Loftail

/-- `HostBookmark::Auth`. -/
inductive Auth
  | agent | keyFile | password
  deriving DecidableEq

/-- `RemoteType::Discovery`. -/
inductive Discovery
  | bonjour | onvif
  deriving DecidableEq

/-- `RemoteType::Connection`. -/
inductive Connection
  | ssh | telnet
  deriving DecidableEq

structure HostBookmark where
  label : Text
  user : Text
  host : Text
  port : ℤ
  auth : Auth
  keyFile : Text
  paths : List Text
  pollMs : ℤ
  tailStartBytes : ℤ
  compress : Bool
  connection : Connection
  consolePreset : Text
  savePassword : Bool
  password : Text
  deriving DecidableEq

structure RemoteType where
  name : Text
  discovery : Discovery
  serviceType : Text
  domain : Text
  instanceRe : Text
  txtRe : Text
  scopeRe : Text
  connection : Connection
  port : ℤ
  user : Text
  savePassword : Bool
  password : Text
  defaultLogPath : Text
  pollMs : ℤ
  tailStartBytes : ℤ
  compress : Bool
  consolePreset : Text
  deriving DecidableEq

namespace RemoteType

def discoveryToString : Discovery→Text
  | .onvif => latin1 "onvif"
  | .bonjour => latin1 "bonjour"

def discoveryFromString (s : Text) : Discovery := if s=latin1 "onvif" then .onvif else .bonjour

def connectionToString : Connection→Text
  | .telnet => latin1 "telnet"
  | .ssh => latin1 "ssh"

def connectionFromString (s : Text) : Connection := if s=latin1 "telnet" then .telnet else .ssh

/-- `remoteTypeToJson`. -/
def toJson (t : RemoteType) : List (String×Json) :=
  [("name",.string t.name),("discovery",.string (discoveryToString t.discovery)),
    ("serviceType",.string t.serviceType),
    ("domain",.string t.domain),("instanceMatch",.string t.instanceRe),("txtMatch",.string t.txtRe),
    ("scopeMatch",.string t.scopeRe),("connection",.string (connectionToString t.connection)),
      ("port",.number t.port),
    ("user",.string t.user),("savePassword",.bool t.savePassword)]++
  (if t.savePassword && !t.password.isEmpty then [("password",.string t.password)] else [])++
  [("defaultLog",.string t.defaultLogPath),("pollMs",.number t.pollMs),
    ("tailStartBytes",.number (toDouble t.tailStartBytes)),("compress",.bool t.compress),
    ("consolePreset",.string t.consolePreset)]

/-- A text that is read only where its key is there. -/
def str (o : List (String×Json)) (key : String) (fallback : Text) : Text :=
  ((Json.find? o key).map Json.toText).getD fallback

/-- `remoteTypeFromJson`. -/
def fromJson (o : List (String×Json)) : RemoteType where
  name := str o "name" []
  discovery := discoveryFromString (Json.value o "discovery").toText
  serviceType := str o "serviceType" (latin1 "_ssh._tcp")
  domain := str o "domain" (latin1 "local")
  instanceRe := str o "instanceMatch" []
  txtRe := str o "txtMatch" []
  scopeRe := str o "scopeMatch" []
  connection := connectionFromString (Json.value o "connection").toText
  port := max 0 (min ((Json.value o "port").toInt 0) 65535)
  user := str o "user" []
  savePassword := (Json.value o "savePassword").toBool
  password := str o "password" []
  defaultLogPath := str o "defaultLog" []
  pollMs := (Json.value o "pollMs").toInt 1000
  tailStartBytes := (Json.value o "tailStartBytes").toDoubleQint64
  compress := (Json.value o "compress").toBool
  consolePreset := str o "consolePreset" []

end RemoteType

namespace HostBookmark

/-- `RemoteLocation::kDefaultPort`. -/
def kDefaultPort : ℤ := 22

def authToString : Auth→Text
  | .keyFile => latin1 "key"
  | .password => latin1 "password"
  | .agent => latin1 "agent"

def authFromString (s : Text) : Auth :=
  if s=latin1 "key" then .keyFile else if s=latin1 "password" then .password else .agent

def toJson (b : HostBookmark) : List (String×Json) :=
  [("label",.string b.label),("user",.string b.user),("host",.string b.host),("port",.number b.port),
    ("auth",.string (authToString b.auth))]++
  (if b.keyFile.isEmpty then [] else [("keyFile",.string b.keyFile)])++
  [("pollMs",.number b.pollMs),("tailStartBytes",.number (toDouble b.tailStartBytes)),("compress",.bool b.compress),
    ("connection",.string (RemoteType.connectionToString b.connection))]++
  (if b.consolePreset.isEmpty then [] else [("consolePreset",.string b.consolePreset)])++
  [("paths",.array (b.paths.map .string)),("savePassword",.bool b.savePassword)]++
  if b.savePassword && !b.password.isEmpty then [("password",.string b.password)] else []

def fromJson (o : List (String×Json)) : HostBookmark where
  label := (Json.value o "label").toText
  user := (Json.value o "user").toText
  host := (Json.value o "host").toText
  port := (Json.value o "port").toInt kDefaultPort
  auth := authFromString (Json.value o "auth").toText
  keyFile := (Json.value o "keyFile").toText
  pollMs := (Json.value o "pollMs").toInt 1000
  tailStartBytes := (Json.value o "tailStartBytes").toDoubleQint64
  compress := (Json.value o "compress").toBool
  connection := RemoteType.connectionFromString (Json.value o "connection").toText
  consolePreset := (Json.value o "consolePreset").toText
  paths := ((Json.value o "paths").toArray.filter Json.isString).map Json.toText
  savePassword := (Json.value o "savePassword").toBool
  password := (Json.value o "password").toText

def displayName (b : HostBookmark) : Text := if b.label.isEmpty then b.host else b.label

end HostBookmark

namespace HostBookmarkStore

/-- What the two kinds of entry differ in: the array, the JSON, the name, which ones the reader keeps, and
the password. -/
structure EntryKind (α : Type) where
  key : String
  toJson : α→List (String×Json)
  fromJson : List (String×Json)→α
  name : α→Text
  shown : α→Bool
  savePassword : α→Bool
  password : α→Text

def hosts : EntryKind HostBookmark where
  key := "hosts"
  toJson := HostBookmark.toJson
  fromJson := HostBookmark.fromJson
  name := HostBookmark.displayName
  shown b := !b.host.isEmpty
  savePassword := HostBookmark.savePassword
  password := HostBookmark.password

def types : EntryKind RemoteType where
  key := "types"
  toJson := RemoteType.toJson
  fromJson := RemoteType.fromJson
  name := RemoteType.name
  shown t := !(trimmed t.name).isEmpty
  savePassword := RemoteType.savePassword
  password := RemoteType.password

/-- The file: what is read of it, `none` where it is not there or is no JSON, and whether only its owner may
read it. -/
structure ConfigFile where
  json : Option Json
  isPrivate : Bool

/-- How a write goes: whether the new file takes the old one's place, who may read it then, and whether it
could be restricted to its owner. -/
structure WriteOutcome where
  committed : Bool
  isPrivate : Bool
  restricted : Bool

/-- `AtomicJson::write`. -/
def write (e : WriteOutcome) (doc : Json) (f : ConfigFile) : ConfigFile×Bool :=
  if e.committed then (⟨some doc,e.isPrivate⟩,true) else (f,false)

/-- `AtomicJson::writePrivate`: restricted once it is in place. -/
def writePrivate (e : WriteOutcome) (doc : Json) (f : ConfigFile) : ConfigFile×Bool :=
  let (written,ok) := write e doc f
  if ok then if e.restricted then ({written with isPrivate := true},true) else (written,false) else (written,false)

def kSchemaVersion : ℤ := 1

/-- `Schema::versionOf`. -/
def versionOf (root : List (String×Json)) : ℤ :=
  let v := Json.value root "schemaVersion"
  if v.isDouble then max 0 (v.toInt 0) else 0

/-- The root of a file that this version reads. -/
def usableRoot (f : ConfigFile) : Option (List (String×Json)) :=
  match f.json with
  | some (.object root) => if judge (versionOf root) kSchemaVersion=.usable then some root else none
  | _ => none

/-- `Schema::fileIsFromFuture`. -/
def fileIsFromFuture (f : ConfigFile) : Bool :=
  match f.json with
  | some (.object root) => judge (versionOf root) kSchemaVersion=.fromFuture
  | _ => false

/-- Whether an entry of an array holds a password. -/
def holdsPassword (v : Json) : Bool :=
  (Json.value v.toObject "savePassword").toBool && !(Json.value v.toObject "password").toText.isEmpty

/-- `writeKey`. The file has a path, and is read three times over as it stands. -/
def writeKey (e : WriteOutcome) (key : String) (value : List Json) (holdsSecret : Bool) (f : ConfigFile) :
    ConfigFile×Bool :=
  if fileIsFromFuture f then (f,false)
  else
    let root := (usableRoot f).getD []
    let root := Json.insert key (.array value) (Json.insert "schemaVersion" (.number kSchemaVersion) root)
    let kept := ["hosts","types"].filter (· ≠ key)
    let secret := holdsSecret || kept.any fun k => (Json.value root k).toArray.any holdsPassword
    if secret then writePrivate e (.object root) f else write e (.object root) f

section Entries
variable {α : Type} (fold : Text→Text) (k : EntryKind α)

/-- What a name is compared by: trimmed, the case folded. -/
def nameKey (s : Text) : Text := fold (trimmed s)

/-- `sameName`. -/
def sameName (a b : Text) : Bool := nameKey fold a=nameKey fold b

def EntryKind.id (x : α) : Text := nameKey fold (k.name x)

/-- The loop of `all` and of `types`. -/
def EntryKind.readFrom (out : List α) : List Json→List α
  | [] => out
  | .object o::vs =>
    let x := k.fromJson o
    if !k.shown x || (NamedEntries.indexOf (k.id fold) out (k.id fold x)).isSome then EntryKind.readFrom out vs
    else EntryKind.readFrom (out++[x]) vs
  | _::vs => EntryKind.readFrom out vs

def EntryKind.entries (f : ConfigFile) : List α :=
  match usableRoot f with
  | some root => k.readFrom fold [] (Json.value root k.key).toArray
  | none => []

/-- `replaceAll` and `replaceTypes`. -/
def EntryKind.replaceEntries (e : WriteOutcome) (xs : List α) (f : ConfigFile) : ConfigFile×Bool :=
  writeKey e k.key (xs.map fun x => .object (k.toJson x))
    (xs.any fun x => k.savePassword x && !(k.password x).isEmpty) f

def EntryKind.saveEntry (e : WriteOutcome) (x : α) (f : ConfigFile) : ConfigFile×Bool :=
  k.replaceEntries e (NamedEntries.put (k.id fold) (k.entries fold f) x) f

def EntryKind.removeEntry (e : WriteOutcome) (name : Text) (f : ConfigFile) : ConfigFile×Bool :=
  if (NamedEntries.indexOf (k.id fold) (k.entries fold f) (nameKey fold name)).isNone then (f,true)
  else k.replaceEntries e (NamedEntries.drop (k.id fold) (k.entries fold f) (nameKey fold name)) f

/-- `HostBookmarkStore::all`. -/
def all (f : ConfigFile) : List HostBookmark := hosts.entries fold f

/-- `HostBookmarkStore::types`. -/
def allTypes (f : ConfigFile) : List RemoteType := types.entries fold f

def replaceAll (e : WriteOutcome) (bookmarks : List HostBookmark) (f : ConfigFile) : ConfigFile×Bool :=
  hosts.replaceEntries e bookmarks f

def replaceTypes (e : WriteOutcome) (all : List RemoteType) (f : ConfigFile) : ConfigFile×Bool :=
  types.replaceEntries e all f

def save (e : WriteOutcome) (bookmark : HostBookmark) (f : ConfigFile) : ConfigFile×Bool :=
  hosts.saveEntry fold e bookmark f

def remove (e : WriteOutcome) (name : Text) (f : ConfigFile) : ConfigFile×Bool := hosts.removeEntry fold e name f

def saveType (e : WriteOutcome) (type : RemoteType) (f : ConfigFile) : ConfigFile×Bool :=
  types.saveEntry fold e type f

def removeType (e : WriteOutcome) (name : Text) (f : ConfigFile) : ConfigFile×Bool :=
    types.removeEntry fold e name f

end Entries
end HostBookmarkStore

end Loftail
