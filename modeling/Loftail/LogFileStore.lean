import Loftail.Programs
import Mathlib.Data.Int.Notation
import Mathlib.Data.Nat.Notation
import Mathlib.Logic.Function.Basic

/-! # One file per log, in a bounded pool of slots -/
namespace Loftail

/-- The run that was being read. -/
structure StoredRun where
  all : Bool
  startOffset : ℤ
  startTimestamp : ℤ
  deriving DecidableEq

namespace StoredRun

def kNoTimestamp : ℤ := -0x8000000000000000

/-- Follow whichever run is last. -/
def last : StoredRun := ⟨false,-1,kNoTimestamp⟩

def saysNothing (r : StoredRun) : Bool := !r.all && r.startOffset < 0

end StoredRun

/-- Everything one log says about itself: a profile, the filters, the rules and the run. -/
structure LogFileSettings (P F H : Type) where
  address : String
  profile : Option P
  filters : F
  highlighters : Option H
  run : StoredRun
  deriving DecidableEq

/-- What the sections of a record say. -/
structure SectionRules (F H : Type) where
  noFilters : F
  isEmpty : F→Bool
  filterStateSaysNothing : F→Bool
  /-- The rules every log opens with. -/
  areDefaults : H→Bool

namespace LogFileSettings
variable {P F H : Type}

def blank (rules : SectionRules F H) (address : String) : LogFileSettings P F H :=
  ⟨address,none,rules.noFilters,none,.last⟩

/-- Every section that has come back into line with its parent is dropped. -/
def reduce [DecidableEq P] (rules : SectionRules F H) (s : LogFileSettings P F H) (inherited : P) :
    LogFileSettings P F H :=
  {s with
   profile := if s.profile=some inherited then none else s.profile
   filters := if rules.filterStateSaysNothing s.filters then rules.noFilters else s.filters
   highlighters := if s.highlighters.any rules.areDefaults then none else s.highlighters
   run := if s.run.saysNothing then .last else s.run}

def saysSomething (rules : SectionRules F H) (s : LogFileSettings P F H) : Bool :=
  s.profile.isSome || !rules.isEmpty s.filters || s.highlighters.isSome || !s.run.saysNothing

end LogFileSettings

inductive Verdict | usable | unstamped | fromFuture
  deriving DecidableEq,Repr

/-- What a stamp says; 0 where there is none. -/
def judge (version current : ℤ) : Verdict := if version≤0 then .unstamped else if current < version then
    .fromFuture else .usable

/-- A slot file that is a JSON object: a stamp, and a record that names its own address. -/
structure SlotDoc (P F H : Type) where
  version : ℤ
  settings : LogFileSettings P F H
  deriving DecidableEq

/-- An entry as the map file has it. -/
structure RawEntry where
  address : String
  slot : ℤ
  used : ℤ
  deriving DecidableEq

structure MapDoc where
  version : ℤ
  tick : ℤ
  entries : List RawEntry
  deriving DecidableEq

def kRecordVersion : ℤ := 1

/-- `none` for a record that this build must not interpret. -/
def SlotDoc.fromJson {P F H : Type} (d : SlotDoc P F H) : Option (LogFileSettings P F H) :=
  if judge d.version kRecordVersion=.usable then some d.settings else none

def LogFileSettings.toJson {P F H : Type} (s : LogFileSettings P F H) : SlotDoc P F H := ⟨kRecordVersion,s⟩

/-- What the store asks of the disk. A missing file and one that is no JSON object read the same, and a
write is answered by what went wrong. -/
inductive StoreOp (P F H : Type)
  | readMap
  | listSlots
  | readSlot (slot : ℕ)
  | writeSlot (slot : ℕ) (doc : SlotDoc P F H)
  | writeMap (doc : MapDoc)
  | removeSlot (slot : ℕ)

def StoreAnswer (P F H : Type) : StoreOp P F H→Type
  | .readMap => Option MapDoc
  | .listSlots => List ℕ
  | .readSlot _ => Option (SlotDoc P F H)
  | .writeSlot _ _ => Option String
  | .writeMap _ => Option String
  | .removeSlot _ => Unit

abbrev StoreProgram (P F H α : Type) := Program (StoreOp P F H) (StoreAnswer P F H) α

namespace StoreOp
variable {P F H : Type}

abbrev askMap : StoreProgram P F H (Option MapDoc) := @Program.ask _ (StoreAnswer P F H) .readMap

abbrev askNames : StoreProgram P F H (List ℕ) := @Program.ask _ (StoreAnswer P F H) .listSlots

abbrev askSlot (slot : ℕ) : StoreProgram P F H (Option (SlotDoc P F H)) :=
  @Program.ask _ (StoreAnswer P F H) (.readSlot slot)

abbrev putSlot (slot : ℕ) (doc : SlotDoc P F H) : StoreProgram P F H (Option String) :=
  @Program.ask _ (StoreAnswer P F H) (.writeSlot slot doc)

abbrev putMap (doc : MapDoc) : StoreProgram P F H (Option String) :=
  @Program.ask _ (StoreAnswer P F H) (.writeMap doc)

abbrev dropSlot (slot : ℕ) : StoreProgram P F H Unit := @Program.ask _ (StoreAnswer P F H) (.removeSlot slot)

end StoreOp

/-- How addresses are normalised; the legacy key is empty where there is nothing to look up. -/
structure StoreKeys where
  logSettingsKey : String→String
  legacyLogSettingsKey : String→String

structure StoreEntry where
  address : String
  slot : ℕ
  used : ℤ
  deriving DecidableEq

structure LogFileStore where
  entries : List StoreEntry
  pinned : String→Bool
  fromFuture : String→Bool
  tick : ℤ
  mapDirty : Bool
  readOnly : Bool

namespace LogFileStore

def kSchemaVersion : ℤ := 1

def kSlots : ℕ := 500

def initial : LogFileStore := ⟨[],fun _ => false,fun _ => false,0,false,false⟩

/-- The first entry of an address, and where it is. -/
def indexOf (st : LogFileStore) (key : String) : Option (ℕ×StoreEntry) :=
  (st.entries.zipIdx.find? fun e => e.1.address=key).map fun e => (e.2,e.1)

/-- An entry is dropped. -/
def dropEntry (st : LogFileStore) (i : ℕ) : LogFileStore :=
    {st with entries := st.entries.eraseIdx i,mapDirty := true}

/-! ## Loading -/

/-- The two entries claim one address or one slot. -/
def conflicts (x e : StoreEntry) : Bool := x.address=e.address || x.slot=e.slot

/-- The more recently used claim wins, and the loser is dropped. -/
def settleEntry (e : StoreEntry) : List StoreEntry→Option (List StoreEntry)
  | [] => none
  | x::entries =>
    if conflicts x e then some ((if x.used < e.used then e else x)::entries)
    else (settleEntry e entries).map (x::·)

/-- An entry of the map file, if it names a log and a slot of the pool. -/
def claim (raw : RawEntry) : Option StoreEntry :=
  if raw.address="" ∨ raw.slot < 0 ∨ (kSlots : ℤ)≤raw.slot then none else some ⟨raw.address,raw.slot.toNat,raw.used⟩

def loadEntry (st : LogFileStore) (raw : RawEntry) : LogFileStore :=
  match claim raw with
  | none => {st with mapDirty := true}
  | some e =>
    let st :=
      match settleEntry e st.entries with
      | some entries => {st with entries,mapDirty := true}
      | none => {st with entries := st.entries++[e]}
    {st with tick := max st.tick e.used}

variable {P F H : Type}

/-- A slot file names an address that no entry has yet. -/
def rebuildEntry (st : LogFileStore) (slot : ℕ) (doc : Option (SlotDoc P F H)) : LogFileStore :=
  match doc with
  | none => st
  | some doc =>
    if doc.settings.address="" ∨ (st.indexOf doc.settings.address).isSome then st
    else {st with entries := st.entries++[⟨doc.settings.address,slot,0⟩]}

def rebuildLoop (st : LogFileStore) : List ℕ→StoreProgram P F H LogFileStore
  | [] => pure {st with mapDirty := !st.entries.isEmpty}
  | slot::names => do
    let doc ← StoreOp.askSlot slot
    rebuildLoop (st.rebuildEntry slot doc) names

def rebuildFromSlots (st : LogFileStore) : StoreProgram P F H LogFileStore := do
  let names ← StoreOp.askNames
  rebuildLoop st names

def load (st : LogFileStore) : StoreProgram P F H LogFileStore := do
  let st : LogFileStore := {initial with pinned := st.pinned}
  let doc ← StoreOp.askMap
  match doc with
  | none => rebuildFromSlots st
  | some doc =>
    match judge doc.version kSchemaVersion with
    -- there is no migration downwards
    | .fromFuture => pure {st with readOnly := true}
    | .unstamped => rebuildFromSlots st
    | .usable => pure (doc.entries.foldl loadEntry {st with tick := doc.tick})

/-! ## Slots -/

/-- The least recently used entry so far, of those that may be taken. -/
def consider (eligible : StoreEntry→Bool) (victim : Option (StoreEntry×ℕ)) (e : StoreEntry×ℕ) : Option
    (StoreEntry×ℕ) :=
  if eligible e.1 then
    match victim with
    | none => some e
    | some v => if e.1.used < v.1.used then some e else some v
  else victim

def leastUsed (eligible : StoreEntry→Bool) (entries : List StoreEntry) : Option (StoreEntry×ℕ) :=
  entries.zipIdx.foldl (consider eligible) none

/-- A record found to be of a later build is passed over while there is anything else to take. -/
def victim (st : LogFileStore) : Option (StoreEntry×ℕ) :=
  match leastUsed (fun e => !st.pinned e.address && !st.fromFuture e.address) st.entries with
  | some v => some v
  | none => leastUsed (fun e => !st.pinned e.address) st.entries

/-- The first slot from `n` on that no entry has, of the `left` slots that are left. -/
def firstFree (entries : List StoreEntry) : ℕ→ℕ→Option ℕ
  | 0,_ => none
  | left+1,n => if entries.any fun e => e.slot=n then firstFree entries left (n+1) else some n

def freeSlot (st : LogFileStore) : Option ℕ := firstFree st.entries kSlots 0

/-- A free slot, or the slot of the record that is evicted. -/
def allocateSlot (st : LogFileStore) : Option (ℕ×LogFileStore) :=
  match st.freeSlot with
  | some n => some (n,st)
  | none =>
    match st.victim with
    | none => none
    | some (e,i) => some (e.slot,st.dropEntry i)

def noSlot : String := "every one of the "++toString kSlots++" per-log settings slots belongs to a log that is open"

/-! ## Writing -/

def mapDoc (st : LogFileStore) : MapDoc :=
  ⟨kSchemaVersion,st.tick,st.entries.map fun e => ⟨e.address,e.slot,e.used⟩⟩

/-- The map is written if anything has moved it; the answer is what went wrong. -/
def flush (st : LogFileStore) : StoreProgram P F H (LogFileStore×Option String) :=
  if st.readOnly || !st.mapDirty then pure (st,none)
  else do
    let failed ← StoreOp.putMap st.mapDoc
    match failed with
    | some error => pure (st,some error)
    | none => pure ({st with mapDirty := false},none)

/-- A new entry, the most recently used one. -/
def addEntry (st : LogFileStore) (address : String) (slot : ℕ) : LogFileStore :=
  {st with entries := st.entries++[⟨address,slot,st.tick+1⟩],tick := st.tick+1,mapDirty := true}

/-- The map first, the slot file second. -/
def remove (keys : StoreKeys) (st : LogFileStore) (address : String) : StoreProgram P F H (LogFileStore×Bool) :=
  if st.readOnly || st.fromFuture (keys.logSettingsKey address) then pure (st,false)
  else
    match st.indexOf (keys.logSettingsKey address) with
    | none => pure (st,false)
    | some (i,e) => do
      let (st,_) ← (st.dropEntry i).flush
      StoreOp.dropSlot e.slot
      pure (st,true)

/-- The slot of a record that is to be written: its own, or a new one. -/
def slotFor (st : LogFileStore) (address : String) : Option (ℕ×LogFileStore) :=
  match st.indexOf address with
  | some (_,e) => some (e.slot,st)
  | none => st.allocateSlot.map fun (slot,st) => (slot,st.addEntry address slot)

/-- What a save comes to: whether the disk changed, and what went wrong. -/
structure SaveResult where
  changed : Bool
  error : Option String
  deriving DecidableEq

/-- The slot file first, the map second. -/
def save [DecidableEq P] (keys : StoreKeys) (rules : SectionRules F H) (st : LogFileStore)
    (s : LogFileSettings P F H) (inherited : P) : StoreProgram P F H (LogFileStore×SaveResult) :=
  let s := {s with address := keys.logSettingsKey s.address}
  if st.readOnly then pure (st,⟨false,some "the per-log settings were written by a newer version"⟩)
  else if st.fromFuture s.address then
    pure (st,⟨false,some "the settings for this log were written by a newer version of loftail"⟩)
  else
    let s := s.reduce rules inherited
    if !s.saysSomething rules then do
      let (st,removed) ← st.remove keys s.address
      pure (st,⟨removed,none⟩)
    else
      match st.slotFor s.address with
      | none => pure (st,⟨false,some noSlot⟩)
      | some (slot,st) => do
        let failed ← StoreOp.putSlot slot s.toJson
        match failed with
        | some error => pure (st,⟨false,some error⟩)
        | none => do
          let (st,failed) ← st.flush
          pure (st,⟨failed.isNone,failed⟩)

/-! ## Reading -/

/-- The record an entry of the legacy key leads to, if it is one to copy. -/
def legacyRecord (st : LogFileStore) (legacy : String) (i : ℕ) (doc : Option (SlotDoc P F H)) :
    LogFileStore×Option (LogFileSettings P F H) :=
  match doc with
  | none => (st.dropEntry i,none)
  | some doc =>
    match doc.fromJson with
    -- a later build's record: the map keeps naming it
    | none => ({st with fromFuture := Function.update st.fromFuture legacy true},none)
    | some s => if s.address=legacy then (st,some s) else (st.dropEntry i,none)

def beside (st : LogFileStore) (legacy : String) : LogFileStore :=
    {st with pinned := Function.update st.pinned legacy true}

/-- The legacy record is protected for the length of the allocation. -/
def allocateBeside (st : LogFileStore) (legacy : String) : Option (ℕ×LogFileStore) :=
  (st.beside legacy).allocateSlot.map fun (slot,after) => (slot,{after with pinned := st.pinned})

/-- The record of the legacy key is copied, and never moved. -/
def adoptLegacyKey (keys : StoreKeys) (st : LogFileStore) (address key : String) :
    StoreProgram P F H (LogFileStore×Option (ℕ×StoreEntry)) :=
  let legacy := keys.legacyLogSettingsKey address
  if legacy="" ∨ legacy=key then pure (st,none)
  else
    match st.indexOf legacy with
    | none => pure (st,none)
    | some (i,e) => do
      let doc ← StoreOp.askSlot e.slot
      match st.legacyRecord legacy i doc with
      | (st,none) => pure (st,none)
      | (st,some s) =>
        match st.allocateBeside legacy with
        | none => pure (st,none)
        | some (slot,st) => do
          let failed ← StoreOp.putSlot slot ({s with address := key} : LogFileSettings P F H).toJson
          match failed with
          | some _ => pure (st,none)
          | none => do
            let st := st.addEntry key slot
            let (st,_) ← st.flush
            pure (st,some (st.entries.length-1,⟨key,slot,st.tick⟩))

/-- The entry of a key, or the one it gets by adoption. -/
def entryFor (keys : StoreKeys) (st : LogFileStore) (address key : String) :
    StoreProgram P F H (LogFileStore×Option (ℕ×StoreEntry)) :=
  match st.indexOf key with
  | some found => pure (st,some found)
  | none => st.adoptLegacyKey keys address key

/-- What a slot file says to the log that reads it. -/
def readEntry (rules : SectionRules F H) (st : LogFileStore) (key : String) (i : ℕ) (doc : Option (SlotDoc P F H)) :
    LogFileStore×LogFileSettings P F H :=
  match doc with
  | none => (st.dropEntry i,.blank rules key)
  | some doc =>
    match doc.fromJson with
    | none => ({st with fromFuture := Function.update st.fromFuture key true},.blank rules key)
    -- the file wins
    | some record => if record.address=key then (st,record) else (st.dropEntry i,.blank rules key)

def read (keys : StoreKeys) (rules : SectionRules F H) (st : LogFileStore) (address : String) :
    StoreProgram P F H (LogFileStore×LogFileSettings P F H) :=
  let key := keys.logSettingsKey address
  if st.readOnly then pure (st,.blank rules key)
  else do
    let (st,found) ← st.entryFor keys address key
    match found with
    | none => pure (st,.blank rules key)
    | some (i,e) => do
      let doc ← StoreOp.askSlot e.slot
      pure (st.readEntry rules key i doc)

/-! ## The other operations -/

def touch (keys : StoreKeys) (st : LogFileStore) (address : String) : LogFileStore :=
  match st.indexOf (keys.logSettingsKey address) with
  | none => st
  | some (i,e) =>
    {st with entries := st.entries.set i {e with used := st.tick+1},tick := st.tick+1,mapDirty := true}

def setPinned (keys : StoreKeys) (st : LogFileStore) (addresses : List String) : LogFileStore :=
  {st with pinned := fun a => addresses.any fun b => keys.logSettingsKey b=a}

/-- One record is tested again: what is left of the store, whether it changed, and what is done about
the slot file, if anything. -/
def pruneEntry [DecidableEq P] [DecidableEq F] [DecidableEq H] (rules : SectionRules F H) (st : LogFileStore)
    (inherited : String→P) (i : ℕ) (e : StoreEntry) (doc : Option (SlotDoc P F H)) :
    LogFileStore×Bool×Option (StoreOp P F H) :=
  match doc with
  | none => (st.dropEntry i,true,none)
  | some doc =>
    match doc.fromJson with
    | none => ({st with fromFuture := Function.update st.fromFuture e.address true},false,none)
    | some before =>
      if before.address≠e.address then (st.dropEntry i,true,none)
      else
        let s := before.reduce rules (inherited e.address)
        if s=before then (st,false,none)
        else if !s.saysSomething rules then (st.dropEntry i,true,some (.removeSlot e.slot))
        else (st,true,some (.writeSlot e.slot s.toJson))

/-- Backwards, so that dropping one entry does not step over the next. -/
def pruneLoop [DecidableEq P] [DecidableEq F] [DecidableEq H] (rules : SectionRules F H) (inherited : String→P) :
    ℕ→LogFileStore→ℕ→StoreProgram P F H (LogFileStore×ℕ)
  | 0,st,changed => pure (st,changed)
  | i+1,st,changed =>
    match st.entries[i]? with
    | none => pruneLoop rules inherited i st changed
    | some e => do
      let doc ← StoreOp.askSlot e.slot
      match st.pruneEntry rules inherited i e doc with
      | (st,moved,none) => pruneLoop rules inherited i st (changed+moved.toNat)
      | (st,moved,some o) => do
        let _ ← Program.ask o
        pruneLoop rules inherited i st (changed+moved.toNat)

/-- Every record against what its address inherits now. -/
def pruneAgainst [DecidableEq P] [DecidableEq F] [DecidableEq H] (rules : SectionRules F H) (st : LogFileStore)
    (inherited : String→P) : StoreProgram P F H (LogFileStore×ℕ) :=
  if st.readOnly then pure (st,0)
  else do
    let (st,changed) ← pruneLoop rules inherited st.entries.length st 0
    let (st,_) ← st.flush
    pure (st,changed)

/-- The nodes of an older store, saved where no record says something yet. -/
def adoptNodes [DecidableEq P] (keys : StoreKeys) (rules : SectionRules F H) (inherited : String→P) :
    List (String×P)→LogFileStore→ℕ→StoreProgram P F H (LogFileStore×ℕ)
  | [],st,adopted => pure (st,adopted)
  | (path,profile)::nodes,st,adopted =>
    if path="" then adoptNodes keys rules inherited nodes st adopted
    else do
      let (st,existing) ← st.read (P:=P) keys rules path
      if existing.saysSomething rules then adoptNodes keys rules inherited nodes st adopted
      else do
        let (st,saved) ← st.save keys rules
          {(.blank rules path : LogFileSettings P F H) with profile := some profile}
          (inherited (keys.logSettingsKey path))
        adoptNodes keys rules inherited nodes st (adopted+saved.changed.toNat)

def adoptLegacy [DecidableEq P] (keys : StoreKeys) (rules : SectionRules F H) (st : LogFileStore)
    (nodes : List (String×P)) (inherited : String→P) : StoreProgram P F H (LogFileStore×ℕ) :=
  if st.readOnly then pure (st,0)
  -- the tail is what is kept
  else adoptNodes keys rules inherited (nodes.drop (nodes.length-kSlots)) st 0

end LogFileStore

end Loftail
