import Loftail.SettingsTree

/-! # The store of the settings tree, and the patterns it is seeded with

One file holds the tree. Windows read it when they start and when their preferences are opened, and write it back
whole; a later build's file is not theirs to write. -/
namespace Loftail
open RemoteLocation

abbrev SettingsTree := LogSettingsTree LogProfile

/-! ## The file -/

namespace LogPatternNode

def toJson (n : LogPatternNode LogProfile) : JsonObject :=
  [("id",.string n.id),("kind",.string (latin1 (if n.kind=.regex then "regex" else "wildcard"))),
    ("match",.string n.matchText),("caseSensitive",.bool n.caseSensitive),("fullPath",.bool n.matchFullPath),
    ("profile",.object n.profile.toJson)]

def fromJson (o : JsonObject) : LogPatternNode LogProfile where
  id := (Json.value o "id").toText
  kind := if (Json.value o "kind").toText=latin1 "regex" then .regex else .wildcard
  matchText := (Json.value o "match").toText
  caseSensitive := (Json.value o "caseSensitive").toBool
  matchFullPath := (Json.value o "fullPath").toBool
  profile := .fromJson (Json.value o "profile").toObject

end LogPatternNode

/-- A log's profile from before the logs had files of their own. -/
structure LegacyFileNode where
  path : Text
  profile : LogProfile

namespace SettingsTree

def kSchemaVersion : ℤ := 1

def builtIn : SettingsTree := ⟨.builtIn,[]⟩

def toJson (tree : SettingsTree) : JsonObject :=
  [("schemaVersion",.number kSchemaVersion),("defaults",.object tree.defaults.toJson),
    ("patterns",.array (tree.patterns.map fun n => .object n.toJson))]

/-- A missing id, and one that is there already, are made anew. -/
def fromJson (root : JsonObject) : SettingsTree :=
  let defaults :=
    if (Json.find? root "defaults").isSome then .fromJson
      (Json.value root "defaults").toObject else LogProfile.builtIn
  (Json.value root "patterns").toArray.foldl (fun tree v => tree.addPattern (.fromJson v.toObject)) ⟨defaults,[]⟩

def legacyFiles (root : JsonObject) : List LegacyFileNode :=
  (Json.value root "files").toArray.filterMap fun v =>
    let path := (Json.value v.toObject "path").toText
    if path.isEmpty then none else some ⟨path,.fromJson (Json.value v.toObject "profile").toObject⟩

end SettingsTree

/-- What is at the store's path; a file that cannot be opened and one that is no JSON object read the same. -/
inductive SettingsFile
  | absent
  | damaged
  | holding (root : JsonObject)

structure LogSettingsStore where
  readOnly : Bool
  legacyFiles : List LegacyFileNode

namespace LogSettingsStore

def fresh : LogSettingsStore := ⟨false,[]⟩

def load (store : LogSettingsStore) : SettingsFile→SettingsTree×LogSettingsStore
  | .holding root =>
    match judge (LogRecord.versionOf root) SettingsTree.kSchemaVersion with
    | .fromFuture => (.builtIn,{store with readOnly := true})
    | .unstamped => (.builtIn,{store with readOnly := false})
    | .usable => (.fromJson root,⟨false,store.legacyFiles++SettingsTree.legacyFiles root⟩)
  | _ => (.builtIn,{store with readOnly := false})

/-- A write succeeds whole or changes nothing. -/
def save (store : LogSettingsStore) (writable : Bool) (tree : SettingsTree) (file : SettingsFile) :
    SettingsFile×Bool :=
  if store.readOnly || !writable then (file,false) else (.holding tree.toJson,true)

end LogSettingsStore

/-! ## The stores this one replaced -/

structure LegacyDefault where
  pattern : Text
  encoding : ℕ
  sourceZone : Text

structure LegacyFormat where
  path : Text
  pattern : Text
  encoding : ℕ
  sourceZone : Text
  timeDisplay : Text
  displayZone : Text
  runStartPattern : Text
  runStartIsRegex : Bool
  runStartCaseSensitive : Bool

/-- The display was a zone once, which is spelled alike. -/
def legacyFormatAt (s : LegacyFormat) : FormatSettings where
  pattern := s.pattern
  encoding := .ofNat s.encoding
  sourceZone := .fromText s.sourceZone
  timeDisplay := .fromText (if s.timeDisplay.isEmpty then s.displayZone else s.timeDisplay)
  runStartPattern := s.runStartPattern
  runStartIsRegex := s.runStartIsRegex
  runStartCaseSensitive := s.runStartCaseSensitive

/-- The application's `QSettings`, as far as these patterns are concerned. -/
structure SeedSettings where
  seed : ℤ
  defaultFormat : Option LegacyDefault
  formatCache : List LegacyFormat

structure Configuration where
  file : SettingsFile
  settings : SeedSettings

namespace SeedSettings

/-- The old default held three of the format's fields; the rest are the built-in's. -/
def legacyDefaults (s : SeedSettings) : LogProfile :=
  match s.defaultFormat with
  | some old => {LogProfile.builtIn with
      format := {LogProfile.builtIn.format with
        pattern := old.pattern,encoding := .ofNat old.encoding,sourceZone := .fromText old.sourceZone}}
  | none => LogProfile.builtIn

def legacyNodes (s : SeedSettings) : List LegacyFileNode :=
  (s.formatCache.filter (!·.path.isEmpty)).map fun f =>
    ⟨f.path,{LogProfile.builtIn with format := legacyFormatAt f}⟩

end SeedSettings

namespace LogSettingsStore

def migrateLegacy (writable : Bool) (store : LogSettingsStore) (c : Configuration) :
    LogSettingsStore×Configuration :=
  match c.file with
  | .absent =>
    let store := {store with legacyFiles := store.legacyFiles++c.settings.legacyNodes}
    if c.settings.defaultFormat.isNone && c.settings.formatCache.isEmpty then (store,c)
    else
      let saved := store.save writable ⟨c.settings.legacyDefaults,[]⟩ c.file
      if saved.2 then (store,⟨saved.1,{c.settings with defaultFormat := none,formatCache := []}⟩) else (store,c)
  | _ => (store,c)

end LogSettingsStore

/-! ## The seed -/

/-- A pattern the application ships with, and the generation it first shipped in. -/
structure BuiltInPattern where
  sinceVersion : ℤ
  matchText : Text
  representative : Text
  pattern : Text
  deriving DecidableEq

namespace BuiltInPattern

def node (b : BuiltInPattern) : LogPatternNode LogProfile :=
  ⟨[],.wildcard,b.matchText,false,false,{LogProfile.builtIn with
    format := {LogProfile.builtIn.format with pattern := b.pattern}}⟩

end BuiltInPattern

/-- A build, as far as it seeds: it is of the generation of the newest pattern it ships with, or a later one. -/
structure Release where
  seedVersion : ℤ
  builtIns : List BuiltInPattern
  distinct : builtIns.Nodup
  dated : ∀b∈builtIns,b.sinceVersion ≤ seedVersion

def kBuiltInPatterns : List BuiltInPattern :=
  [⟨1,latin1 "messages",latin1 "/var/log/messages",latin1 "%D\x7b%b %e %H:%M:%S\x7d %h %c: %m%n"⟩,
    ⟨2,latin1 "dmesg",latin1 "/var/log/dmesg",latin1 "[%x] %m%n"⟩]

/-- This build. -/
def Release.current : Release := ⟨2,kBuiltInPatterns,by decide,by decide⟩

section
variable (E : RegexEngine) (q : QUrl) (fs : FileSystem)

/-- A pattern is passed over where another claims what it is for. -/
def offer (offered : SettingsTree×List BuiltInPattern) (b : BuiltInPattern) : SettingsTree×List BuiltInPattern :=
  if 0≤offered.1.matchingPattern E q fs b.representative then
    offered else (offered.1.addPattern b.node,offered.2++[b])

/-- What seeding leaves: the tree, what is on disk, and the patterns that were put there. -/
structure Seeded where
  tree : SettingsTree
  config : Configuration
  added : List BuiltInPattern

/-- `flag` says whether what is remembered of it lands. -/
def seedBuiltInPatterns (release : Release) (writable flag : Bool) (store : LogSettingsStore) (tree : SettingsTree)
    (c : Configuration) : Seeded :=
  if release.seedVersion≤c.settings.seed then ⟨tree,c,[]⟩
  else
    let offered := (release.builtIns.filter (c.settings.seed < ·.sinceVersion)).foldl (offer E q fs) (tree,[])
    let seen := if flag then {c.settings with seed := release.seedVersion} else c.settings
    if offered.2.isEmpty then ⟨offered.1,{c with settings := seen},[]⟩
    else
      let saved := store.save writable offered.1 c.file
      -- the flag goes down only with the tree it describes
      if saved.2 then ⟨offered.1,⟨saved.1,seen⟩,offered.2⟩ else ⟨offered.1,c,[]⟩

/-! ## The windows -/

structure SettingsWindow where
  store : LogSettingsStore
  tree : SettingsTree

/-- Which of a start's writes succeed. -/
structure Writable where
  migration : Bool
  drain : Bool
  seeding : Bool
  flag : Bool

/-- A window's start: what the old stores held goes into this one, what it held of single logs is handed on and
written no more, and the patterns are seeded. -/
def launch (release : Release) (writable : Writable) (c : Configuration) :
    LogSettingsStore×Seeded×List LegacyFileNode :=
  let migrated := LogSettingsStore.fresh.migrateLegacy writable.migration c
  let loaded := migrated.1.load migrated.2.file
  let legacy := loaded.2.legacyFiles
  let store := {loaded.2 with legacyFiles := []}
  let c := migrated.2
  let c := if legacy.isEmpty then c else {c with file := (store.save writable.drain loaded.1 c.file).1}
  (store,seedBuiltInPatterns E q fs release writable.seeding writable.flag store loaded.1 c,legacy)

inductive TreeEdit
  | setDefaults (p : LogProfile)
  | add (node : LogPatternNode LogProfile)
  | remove (index : ℤ)
  | move (index delta : ℤ)
  | edit (index : ℕ) (node : LogPatternNode LogProfile)

def TreeEdit.apply (tree : SettingsTree) : TreeEdit→SettingsTree
  | .setDefaults p => {tree with defaults := p}
  | .add node => tree.addPattern node
  | .remove index => tree.removePattern index
  | .move index delta => tree.movePattern index delta
  | .edit index node => tree.editPattern index node

/-- The windows of any builds on one configuration, and all that was ever seeded into it. -/
structure SettingsWorld where
  config : Configuration
  windows : ℕ→SettingsWindow
  seeded : List BuiltInPattern

/-- A window starts, or reads the tree for its preferences, or writes it back edited; or the file is written from
elsewhere. -/
inductive SettingsEvent
  | launched (i : ℕ) (release : Release) (writable : Writable)
  | preferences (i : ℕ)
  | committed (i : ℕ) (edits : List TreeEdit) (writable : Bool)
  | rewritten (file : SettingsFile)

/-- What a start remembers of its seeding lands. -/
def SettingsEvent.Lands : SettingsEvent→Prop
  | .launched _ _ writable => writable.flag=true
  | _ => True

namespace SettingsWorld

def withWindow (w : SettingsWorld) (i : ℕ) (window : SettingsWindow) : SettingsWorld :=
  {w with windows := Function.update w.windows i window}

def step (w : SettingsWorld) : SettingsEvent→SettingsWorld
  | .launched i release writable =>
    let (store,result,_) := launch E q fs release writable w.config
    {w.withWindow i ⟨store,result.tree⟩ with config := result.config,seeded := w.seeded++result.added}
  | .preferences i =>
    let loaded := (w.windows i).store.load w.config.file
    w.withWindow i ⟨loaded.2,loaded.1⟩
  | .committed i edits writable =>
    let tree := edits.foldl TreeEdit.apply (w.windows i).tree
    let file := ((w.windows i).store.save writable tree w.config.file).1
    {w.withWindow i {w.windows i with tree := tree} with config := {w.config with file := file}}
  | .rewritten file => {w with config := {w.config with file := file}}

def run (w : SettingsWorld) (events : List SettingsEvent) : SettingsWorld := events.foldl (step E q fs) w

/-- No window has started yet. -/
def initial (c : Configuration) : SettingsWorld := ⟨c,fun _ => ⟨.fresh,.builtIn⟩,[]⟩

end SettingsWorld

end

/-! ## What is read is what was written -/

theorem LogPatternNode.fromJson_toJson (n : LogPatternNode LogProfile) : LogPatternNode.fromJson n.toJson=n := by
  have hprofile : (Json.value n.toJson "profile").toObject=n.profile.toJson := rfl
  have hkind : (Json.value n.toJson "kind").toText=latin1 (if n.kind=.regex then "regex" else "wildcard") := rfl
  have hread (kind : PatternKind) : (if latin1 (if kind=.regex then "regex" else "wildcard")=latin1 "regex" then
      PatternKind.regex else .wildcard)=kind := by
    cases kind <;> decide
  rw [LogPatternNode.fromJson,hprofile,hkind,LogProfile.fromJson_toJson,hread]
  rfl

namespace SettingsTree
variable {tree : SettingsTree}

/-- Patterns with ids of their own are added as they are. -/
theorem foldl_addPattern {defaults : LogProfile} {before after : List (LogPatternNode LogProfile)}
    (h : LogSettingsTree.Identified (⟨defaults,before++after⟩ : SettingsTree)) :
    after.foldl LogSettingsTree.addPattern (⟨defaults,before⟩ : SettingsTree)=⟨defaults,before++after⟩ := by
  induction after generalizing before with
  | nil => rw [List.foldl_nil,List.append_nil]
  | cons node after ih =>
    have hcons : before++node::after=(before++[node])++after := by simp
    have hne : node.id≠[] := h.named node (List.mem_append_right _ (List.mem_cons_self ..))
    have hfree : node.id∉before.map (·.id) := by
      have hnodup := h.nodup
      rw [List.map_append,List.map_cons,List.nodup_middle,List.nodup_cons,List.mem_append,not_or] at hnodup
      exact hnodup.1.1
    rw [List.foldl_cons,LogSettingsTree.Identified.addPattern_own hne hfree]
    rw [hcons] at h ⊢
    exact ih h

theorem fromJson_toJson (h : tree.Identified) : fromJson tree.toJson=tree := by
  have hpatterns : (Json.value tree.toJson "patterns").toArray=
      tree.patterns.map fun n => Json.object n.toJson := rfl
  have hdefaults : (Json.value tree.toJson "defaults").toObject=tree.defaults.toJson := rfl
  have hsome : (Json.find? tree.toJson "defaults").isSome=true := rfl
  rw [fromJson,hpatterns,hdefaults,if_pos hsome,LogProfile.fromJson_toJson,List.foldl_map]
  have hread : (fun (t : SettingsTree) (n : LogPatternNode LogProfile) =>
      t.addPattern (.fromJson (Json.object n.toJson).toObject))=LogSettingsTree.addPattern := by
    funext t n
    exact congrArg t.addPattern n.fromJson_toJson
  rw [hread]
  exact @foldl_addPattern _ [] _ h

/-- Whatever the file says of ids. -/
theorem fromJson_identified (root : JsonObject) : (fromJson root).Identified := by
  rw [fromJson]
  refine List.foldlRecOn _ _ (LogSettingsTree.Identified.empty _) ?_
  intro tree h v _
  exact h.addPattern _

end SettingsTree

namespace LogSettingsStore
variable {store : LogSettingsStore} {tree : SettingsTree}

theorem load_identified (store : LogSettingsStore) (file : SettingsFile) : (store.load file).1.Identified := by
  cases file with
  | absent => exact .empty _
  | damaged => exact .empty _
  | holding root =>
    rw [load]
    split
    · exact .empty _
    · exact .empty _
    · exact SettingsTree.fromJson_identified root

private theorem load_saved (store : LogSettingsStore) (h : tree.Identified) :
    store.load (.holding tree.toJson)=(tree,⟨false,store.legacyFiles⟩) := by
  have hjudge : judge (LogRecord.versionOf tree.toJson) SettingsTree.kSchemaVersion=.usable := rfl
  have hfiles : SettingsTree.legacyFiles tree.toJson=[] := rfl
  rw [load,hjudge]
  dsimp only
  rw [SettingsTree.fromJson_toJson h,hfiles,List.append_nil]

theorem save_cases (store : LogSettingsStore) (writable : Bool) (tree : SettingsTree) (file : SettingsFile) :
    store.save writable tree file=(file,false) ∨
      store.readOnly=false ∧ store.save writable tree file=(.holding tree.toJson,true) := by
  rw [save]
  split
  · exact Or.inl rfl
  · rename_i hopen
    rw [Bool.or_eq_true,not_or,Bool.not_eq_true] at hopen
    exact Or.inr ⟨hopen.1,rfl⟩

end LogSettingsStore

private theorem TreeEdit.apply_identified {tree : SettingsTree} (h : tree.Identified) (edit : TreeEdit) :
    (edit.apply tree).Identified := by
  cases edit with
  | setDefaults p => exact ⟨h.nodup,h.named⟩
  | add node => exact h.addPattern node
  | remove index => exact h.removePattern index
  | move index delta => exact h.movePattern index delta
  | edit index node => exact h.editPattern index node

theorem TreeEdit.edited_identified {tree : SettingsTree} (h : tree.Identified) (edits : List TreeEdit) :
    (edits.foldl TreeEdit.apply tree).Identified := by
  refine List.foldlRecOn _ _ h ?_
  intro tree h edit _
  exact edit.apply_identified h

/-! ## What seeding does -/

section
variable {E : RegexEngine} {q : QUrl} {f : FileSystem}

/-- A pattern is there, under whatever id it was given. -/
def Carries (tree : SettingsTree) (b : BuiltInPattern) : Prop := ∃id,{b.node with id := id}∈tree.patterns

private theorem addPattern_patterns {Profile : Type} (tree : LogSettingsTree Profile)
    (node : LogPatternNode Profile) :
    ∃id,(tree.addPattern node).patterns=tree.patterns++[{node with id := id}] := by
  rw [LogSettingsTree.addPattern]
  split
  · exact ⟨_,rfl⟩
  · exact ⟨node.id,rfl⟩

theorem matchingPattern_nonneg {Profile : Type} {tree : LogSettingsTree Profile} {address : Text} :
    0≤tree.matchingPattern E q f address↔∃node∈tree.patterns,node.claims E q f address=true := by
  rw [LogSettingsTree.matchingPattern]
  cases h : tree.patterns.findIdx? (·.claims E q f address) with
  | none =>
    rw [List.findIdx?_eq_none_iff] at h
    refine iff_of_false (by decide) ?_
    rintro ⟨node,hnode,hclaims⟩
    exact Bool.false_ne_true ((h node hnode).symm.trans hclaims)
  | some i =>
    obtain ⟨hi,hclaims,-⟩ := List.findIdx?_eq_some_iff_getElem.mp h
    exact iff_of_true (Int.natCast_nonneg i) ⟨_,List.getElem_mem hi,hclaims⟩

/-- What an offer leaves: a tree with what it had, and with what was added to it. -/
structure Offered (E : RegexEngine) (q : QUrl) (f : FileSystem) (tree : SettingsTree) (bs : List BuiltInPattern)
    (offered : SettingsTree×List BuiltInPattern) : Prop where
  identified : offered.1.Identified
  kept : ∀node∈tree.patterns,node∈offered.1.patterns
  added : offered.2.Sublist bs
  held : ∀b∈offered.2,Carries offered.1 b
  asked : ∀b∈bs,b∈offered.2 ∨ 0≤offered.1.matchingPattern E q f b.representative

theorem Offered.offer {tree : SettingsTree} {bs : List BuiltInPattern} {offered : SettingsTree×List BuiltInPattern}
    (h : Offered E q f tree bs offered) (b : BuiltInPattern) :
    Offered E q f tree (bs++[b]) (offer E q f offered b) := by
  rw [Loftail.offer]
  split
  · rename_i hclaimed
    refine ⟨h.identified,h.kept,h.added.trans (List.sublist_append_left ..),h.held,fun b' hb' => ?_⟩
    rcases List.mem_append.mp hb' with hb' | hb'
    · exact h.asked b' hb'
    · obtain rfl := List.mem_singleton.mp hb'
      exact Or.inr hclaimed
  · obtain ⟨id,hpatterns⟩ := addPattern_patterns offered.1 b.node
    have hmore : ∀node∈offered.1.patterns,node∈(offered.1.addPattern b.node).patterns := by
      intro node hnode
      rw [hpatterns]
      exact List.mem_append_left _ hnode
    refine ⟨h.identified.addPattern _,fun node hnode => hmore _ (h.kept node hnode),
      h.added.append (List.Sublist.refl _),fun b' hb' => ?_,fun b' hb' => ?_⟩
    · rcases List.mem_append.mp hb' with hb' | hb'
      · obtain ⟨id',hheld⟩ := h.held b' hb'
        exact ⟨id',hmore _ hheld⟩
      · obtain rfl := List.mem_singleton.mp hb'
        refine ⟨id,?_⟩
        rw [hpatterns]
        exact List.mem_append_right _ (List.mem_singleton_self _)
    · rcases List.mem_append.mp hb' with hb' | hb'
      · rcases h.asked b' hb' with hadded | hclaimed
        · exact Or.inl (List.mem_append_left _ hadded)
        · obtain ⟨node,hnode,hclaims⟩ := matchingPattern_nonneg.mp hclaimed
          exact Or.inr (matchingPattern_nonneg.mpr ⟨node,hmore node hnode,hclaims⟩)
      · exact Or.inl (List.mem_append_right _ hb')

private theorem foldl_offered {tree : SettingsTree} (h : tree.Identified) (bs : List BuiltInPattern) :
    Offered E q f tree bs (bs.foldl (offer E q f) (tree,[])) := by
  induction bs using List.reverseRecOn with
  | nil =>
    exact ⟨h,fun _ hnode => hnode,List.Sublist.refl _,fun _ hb => (nomatch hb),fun _ hb => nomatch hb⟩
  | append_singleton bs b ih =>
    rw [List.foldl_append]
    exact ih.offer b

/-- What seeding leaves: only what no earlier generation offered is added, and it is remembered as offered no sooner
than it is on disk. -/
structure Seeds (E : RegexEngine) (q : QUrl) (f : FileSystem) (release : Release) (readOnly flag : Bool)
    (c : Configuration) (result : Seeded) : Prop where
  identified : result.tree.Identified
  nodup : result.added.Nodup
  shipped : ∀b∈result.added,b∈release.builtIns
  newer : ∀b∈result.added,c.settings.seed < b.sinceVersion
  remembered : flag=true → ∀b∈result.added,b.sinceVersion≤result.config.settings.seed
  monotone : c.settings.seed≤result.config.settings.seed
  filed : result.added≠[] → result.config.file=.holding result.tree.toJson
  held : ∀b∈result.added,Carries result.tree b
  asked : c.settings.seed < result.config.settings.seed→∀b∈release.builtIns,c.settings.seed < b.sinceVersion→
    b∈result.added ∨ 0≤result.tree.matchingPattern E q f b.representative
  kept : readOnly=true → result.config.file=c.file

theorem seedBuiltInPatterns_seeds {tree : SettingsTree} (h : tree.Identified) (release : Release)
    (writable flag : Bool)
    (store : LogSettingsStore) (c : Configuration) : Seeds E q f release store.readOnly flag c
      (seedBuiltInPatterns E q f release writable flag store tree c) := by
  have hoffered := foldl_offered (E:=E) (q:=q) (f:=f) h (release.builtIns.filter (c.settings.seed < ·.sinceVersion))
  rw [seedBuiltInPatterns]
  dsimp only
  generalize hbs : release.builtIns.filter (c.settings.seed < ·.sinceVersion)=bs at hoffered ⊢
  generalize bs.foldl (offer E q f) (tree,[])=offered at hoffered ⊢
  have hadded : ∀b∈offered.2,b∈release.builtIns ∧ c.settings.seed < b.sinceVersion := by
    intro b hb
    have hmem := hoffered.added.mem hb
    rw [← hbs,List.mem_filter,decide_eq_true_iff] at hmem
    exact hmem
  have hasked : ∀b∈release.builtIns,c.settings.seed < b.sinceVersion→
      b∈offered.2 ∨ 0≤offered.1.matchingPattern E q f b.representative := by
    intro b hb hnewer
    apply hoffered.asked
    rw [← hbs,List.mem_filter,decide_eq_true_iff]
    exact ⟨hb,hnewer⟩
  -- nothing was written: nothing is remembered either
  have hunwritten (t : SettingsTree) (ht : t.Identified) : Seeds E q f release store.readOnly flag c ⟨t,c,[]⟩ :=
    ⟨ht,List.nodup_nil,fun _ hb => (nomatch hb),fun _ hb => (nomatch hb),fun _ _ hb => (nomatch hb),le_rfl,
      fun hne => (hne rfl).elim,fun _ hb => (nomatch hb),fun hlt => (lt_irrefl _ hlt).elim,fun _ => rfl⟩
  split
  · exact hunwritten tree h
  · rename_i hlater
    rw [not_le] at hlater
    generalize hseen : (if flag then {c.settings with seed := release.seedVersion} else c.settings)=seen
    have hmonotone : c.settings.seed ≤ seen.seed := by
      rw [← hseen]
      split
      · exact hlater.le
      · exact le_rfl
    split
    · rename_i hnone
      rw [List.isEmpty_iff] at hnone
      refine ⟨hoffered.identified,List.nodup_nil,fun _ hb => (nomatch hb),fun _ hb => (nomatch hb),
        fun _ _ hb => (nomatch hb),hmonotone,fun hne => (hne rfl).elim,fun _ hb =>
          (nomatch hb),fun _ b hb hnewer => ?_,
        fun _ => rfl⟩
      rw [← hnone]
      exact hasked b hb hnewer
    · rcases store.save_cases writable offered.1 c.file with hsaved | ⟨hopen,hsaved⟩
      · rw [hsaved]
        exact hunwritten offered.1 hoffered.identified
      · rw [hsaved]
        have hnodup : offered.2.Nodup := by
          refine hoffered.added.nodup ?_
          rw [← hbs]
          exact release.distinct.filter _
        refine ⟨hoffered.identified,hnodup,fun b hb => (hadded b hb).1,fun b hb => (hadded b hb).2,
          fun hflag b hb => ?_,hmonotone,fun _ => rfl,hoffered.held,fun _ => hasked,fun hro => ?_⟩
        · rw [← hseen,if_pos hflag]
          exact release.dated b (hadded b hb).1
        · exact nomatch hopen.symm.trans hro

end

namespace SettingsWorld
variable {E : RegexEngine} {q : QUrl} {f : FileSystem} {w : SettingsWorld}

/-! ## Runs -/

private theorem migrateLegacy_seed (writable : Bool) (store : LogSettingsStore) (c : Configuration) :
    (store.migrateLegacy writable c).2.settings.seed=c.settings.seed := by
  rw [LogSettingsStore.migrateLegacy]
  split
  · dsimp only
    split
    · rfl
    · split <;> rfl
  · rfl

/-- A start seeds the tree it reads. -/
theorem launch_seeds (release : Release) (writable : Writable) (c : Configuration) :
    ∃c' : Configuration,c'.settings.seed=c.settings.seed ∧
      Seeds E q f release (launch E q f release writable c).1.readOnly writable.flag c'
        (launch E q f release writable c).2.1 := by
  rw [launch]
  dsimp only
  generalize hm : LogSettingsStore.fresh.migrateLegacy writable.migration c=migrated
  have hseed : migrated.2.settings.seed=c.settings.seed := hm ▸ migrateLegacy_seed ..
  refine ⟨_,?_,seedBuiltInPatterns_seeds (migrated.1.load_identified _) ..⟩
  split
  · exact hseed
  · exact hseed

/-- Every tree a window holds has its patterns told apart. -/
def Identified (w : SettingsWorld) : Prop := ∀i,(w.windows i).tree.Identified

/-- What was seeded was seeded once, and is remembered. -/
structure Remembers (w : SettingsWorld) : Prop where
  nodup : w.seeded.Nodup
  remembered : ∀b∈w.seeded,b.sinceVersion≤w.config.settings.seed

theorem withWindow_identified (h : w.Identified) (i : ℕ) {window : SettingsWindow}
    (hw : window.tree.Identified) (j : ℕ) : ((w.withWindow i window).windows j).tree.Identified := by
  show (Function.update w.windows i window j).tree.Identified
  by_cases hj : j=i
  · rw [hj,Function.update_self]
    exact hw
  · rw [Function.update_of_ne hj]
    exact h j

private theorem step_identified (h : w.Identified) (e : SettingsEvent) : (w.step E q f e).Identified := by
  cases e with
  | launched i release writable =>
    obtain ⟨c',-,hs⟩ := launch_seeds (E:=E) (q:=q) (f:=f) release writable w.config
    exact withWindow_identified h i hs.identified
  | preferences i => exact withWindow_identified h i ((w.windows i).store.load_identified _)
  | committed i edits writable => exact withWindow_identified h i (TreeEdit.edited_identified (h i) edits)
  | rewritten file => exact h

private theorem run_identified (h : w.Identified) (events : List SettingsEvent) :
    (w.run E q f events).Identified := by
  induction events generalizing w with
  | nil => exact h
  | cons e events ih => exact ih (step_identified h e)

private theorem initial_identified (c : Configuration) : (initial c).Identified := fun _ => .empty _

private theorem initial_remembers (c : Configuration) : (initial c).Remembers :=
    ⟨List.nodup_nil,fun _ hb => nomatch hb⟩

private theorem step_remembers (h : w.Remembers) {e : SettingsEvent} (he : e.Lands) :
    (w.step E q f e).Remembers := by
  cases e with
  | launched i release writable =>
    obtain ⟨c',hseed,hs⟩ := launch_seeds (E:=E) (q:=q) (f:=f) release writable w.config
    refine ⟨List.nodup_append.mpr ⟨h.nodup,hs.nodup,fun b hb b' hb' heq => ?_⟩,fun b hb => ?_⟩
    · have hold := h.remembered b hb
      have hnew := hs.newer b' hb'
      rw [hseed,← heq] at hnew
      omega
    · rcases List.mem_append.mp hb with hb | hb
      · exact (h.remembered b hb).trans (hseed ▸ hs.monotone)
      · exact hs.remembered he b hb
  | preferences i => exact ⟨h.nodup,h.remembered⟩
  | committed i edits writable => exact ⟨h.nodup,h.remembered⟩
  | rewritten file => exact ⟨h.nodup,h.remembered⟩

private theorem run_remembers (h : w.Remembers) {events : List SettingsEvent} (hlands : ∀e∈events,e.Lands) :
    (w.run E q f events).Remembers := by
  induction events generalizing w with
  | nil => exact h
  | cons e events ih =>
    obtain ⟨he,hrest⟩ := List.forall_mem_cons.mp hlands
    exact ih (step_remembers h he) hrest

/-- Whatever windows of whatever builds are started, and whatever is done to the tree in between: where what the
starts remember lands, no pattern is seeded twice. A start with nothing newer to offer adds nothing; what one
seeds is newer than what is remembered and is in the tree on disk; and where it counts a generation as offered,
each newer pattern was added or what it is for is claimed. -/
theorem seeded_once (E : RegexEngine) (q : QUrl) (f : FileSystem) (c : Configuration)
    (events : List SettingsEvent) :
    let w := (initial c).run E q f events
    ((∀e∈events,e.Lands) → w.seeded.Nodup) ∧ (∀release,release.seedVersion≤w.config.settings.seed→∀writable,
      (launch E q f release writable w.config).2.1.added=[]) ∧
    ∀release writable,
      let started := (launch E q f release writable w.config).2.1
      (∀b∈started.added,w.config.settings.seed < b.sinceVersion ∧ ((∀e∈events,e.Lands) → b∉w.seeded) ∧
        started.config.file=.holding started.tree.toJson ∧ Carries started.tree b) ∧
      (w.config.settings.seed < started.config.settings.seed→
        ∀b∈release.builtIns,w.config.settings.seed < b.sinceVersion→
          b∈started.added ∨ 0 ≤ started.tree.matchingPattern E q f b.representative) := by
  intro w
  have hw (hlands : ∀e∈events,e.Lands) : w.Remembers := run_remembers (initial_remembers c) hlands
  refine ⟨fun hlands => (hw hlands).nodup,fun release hseen writable => ?_,fun release writable => ?_⟩
  · obtain ⟨c',hseed,hs⟩ := launch_seeds (E:=E) (q:=q) (f:=f) release writable w.config
    rw [List.eq_nil_iff_forall_not_mem]
    intro b hb
    have hnew := hs.newer b hb
    have hdated := release.dated b (hs.shipped b hb)
    omega
  · obtain ⟨c',hseed,hs⟩ := launch_seeds (E:=E) (q:=q) (f:=f) release writable w.config
    refine ⟨fun b hb => ?_,fun hlt b hb hnewer => hs.asked (hseed ▸ hlt) b hb (hseed ▸ hnewer)⟩
    have hnew : w.config.settings.seed < b.sinceVersion := hseed ▸ hs.newer b hb
    refine ⟨hnew,fun hlands hold => ?_,hs.filed (List.ne_nil_of_mem hb),hs.held b hb⟩
    have hremembered := (hw hlands).remembered b hold
    omega

/-- The first start on an empty configuration seeds what ships; one that follows the deletion of a pattern does not
bring it back. -/
theorem seeded_once_deleted :
    let starts : SettingsEvent := .launched 0 .current ⟨true,true,true,true⟩
    let w := (initial ⟨.absent,⟨0,none,[]⟩⟩).run signEngine plainUrl plainFiles
      [starts,.committed 0 [.remove 0] true,starts]
    w.seeded=kBuiltInPatterns ∧ w.seeded.Nodup ∧ (w.windows 0).tree.patterns.length=1 := by
  intro starts w
  refine ⟨by decide +kernel,?_,by decide +kernel⟩
  apply (seeded_once signEngine plainUrl plainFiles _ _).1
  simp [starts,SettingsEvent.Lands]

/-! ## What is on disk stays what it is -/

@[simp] theorem withWindow_store (w : SettingsWorld) (i j : ℕ) (tree : SettingsTree) :
    ((w.withWindow i {w.windows i with tree := tree}).windows j).store=(w.windows j).store := by
  show (Function.update w.windows i _ j).store=_
  by_cases hj : j=i
  · rw [hj,Function.update_self]
  · rw [Function.update_of_ne hj]

private theorem committed_reread (h : w.Identified) {i : ℕ} (hopen : (w.windows i).store.readOnly=false)
    (edits : List TreeEdit)
    (j : ℕ) : ((w.step E q f (.committed i edits true)).step E q f (.preferences j)).windows j=
      ⟨⟨false,(w.windows j).store.legacyFiles⟩,edits.foldl TreeEdit.apply (w.windows i).tree⟩ := by
  have hidentified := TreeEdit.edited_identified (h i) edits
  have hsaved : (w.step E q f (.committed i edits true)).config.file=
      .holding (SettingsTree.toJson (edits.foldl TreeEdit.apply (w.windows i).tree)) := by
    show ((w.windows i).store.save true _ w.config.file).1=_
    rcases (w.windows i).store.save_cases true (edits.foldl TreeEdit.apply (w.windows i).tree) w.config.file with
      hrefused | ⟨-,hsaved⟩
    · simp [LogSettingsStore.save,hopen] at hrefused
    · rw [hsaved]
  have hstore : ((w.step E q f (.committed i edits true)).windows j).store=(w.windows j).store :=
    withWindow_store w i j _
  generalize w.step E q f (.committed i edits true)=w' at hsaved hstore
  show Function.update w'.windows j _ j=_
  rw [Function.update_self,hsaved,LogSettingsStore.load_saved _ hidentified,hstore]

/-- A file of a later build. -/
def FromFuture (root : JsonObject) : Prop := judge
    (LogRecord.versionOf root) SettingsTree.kSchemaVersion=.fromFuture

private theorem launch_future {c : Configuration} {root : JsonObject} (hfile : c.file=.holding root)
    (hroot : FromFuture root)
    (release : Release) (writable : Writable) : (launch E q f release writable c).1.readOnly=true ∧
      (launch E q f release writable c).2.1.config.file=.holding root := by
  have hmigrated : LogSettingsStore.fresh.migrateLegacy writable.migration c=(.fresh,c) := by
    rw [LogSettingsStore.migrateLegacy,hfile]
  have hloaded : LogSettingsStore.fresh.load c.file=(.builtIn,⟨true,[]⟩) := by
    rw [hfile,LogSettingsStore.load,hroot]
    rfl
  rw [launch,hmigrated]
  dsimp only
  rw [hloaded]
  refine ⟨rfl,?_⟩
  have hs := seedBuiltInPatterns_seeds (E:=E) (q:=q) (f:=f) (LogSettingsTree.Identified.empty LogProfile.builtIn)
    release writable.seeding writable.flag ⟨true,[]⟩ c
  exact (hs.kept rfl).trans hfile

/-- A window looks at the file as it starts and as its preferences are opened. -/
def Looks (i : ℕ) (e : SettingsEvent) : Prop := e=.preferences i ∨ ∃release writable,e=.launched i release writable

/-- No window writes that has not looked. -/
def LooksFirst (events : List SettingsEvent) : Prop :=
  ∀before i edits writable after,events=before++.committed i edits writable::after→∃e∈before,Looks i e

private theorem run_future {root : JsonObject} (hfile : w.config.file=.holding root) (hroot : FromFuture root)
    {events : List SettingsEvent} (hours : ∀file,.rewritten file∉events) (hlooks : LooksFirst events) :
    (w.run E q f events).config.file=.holding root ∧
      ∀i,(∃e∈events,Looks i e)→((w.run E q f events).windows i).store.readOnly=true := by
  induction events using List.reverseRecOn with
  | nil => exact ⟨hfile,fun i ⟨_,he,_⟩ => nomatch he⟩
  | append_singleton events e ih =>
    have hours' : ∀file,.rewritten file∉events := fun file hmem => hours file (List.mem_append_left _ hmem)
    have hlooks' : LooksFirst events := by
      intro before i edits writable after hevents
      refine hlooks before i edits writable (after++[e]) ?_
      rw [hevents]
      simp
    obtain ⟨hkept,haware⟩ := ih hours' hlooks'
    have hrun : w.run E q f (events++[e])=(w.run E q f events).step E q f e := by
      rw [run,run,List.foldl_append,List.foldl_cons,List.foldl_nil]
    rw [hrun]
    generalize w.run E q f events=w' at hkept haware
    have hseen (i j : ℕ) (window : SettingsWindow) (hw : window.store.readOnly=true)
        (hj : (∃e∈events,Looks j e) ∨ j=i) : ((w'.withWindow i window).windows j).store.readOnly=true := by
      show (Function.update w'.windows i window j).store.readOnly=true
      by_cases heq : j=i
      · rw [heq,Function.update_self]
        exact hw
      · rw [Function.update_of_ne heq]
        exact haware j (hj.resolve_right heq)
    cases e with
    | launched i release writable =>
      obtain ⟨haware',hkept'⟩ := launch_future (E:=E) (q:=q) (f:=f) hkept hroot release writable
      refine ⟨hkept',fun j ⟨e,he,hj⟩ => hseen i j _ haware' ?_⟩
      rcases List.mem_append.mp he with he | he
      · exact Or.inl ⟨e,he,hj⟩
      · obtain rfl := List.mem_singleton.mp he
        rcases hj with hj | ⟨_,_,hj⟩
        · cases hj
        · cases hj
          exact Or.inr rfl
    | preferences i =>
      have hloaded : ((w'.windows i).store.load w'.config.file).2.readOnly=true := by
        rw [hkept,LogSettingsStore.load,hroot]
      refine ⟨hkept,fun j ⟨e,he,hj⟩ => hseen i j _ hloaded ?_⟩
      rcases List.mem_append.mp he with he | he
      · exact Or.inl ⟨e,he,hj⟩
      · obtain rfl := List.mem_singleton.mp he
        rcases hj with hj | ⟨_,_,hj⟩
        · cases hj
          exact Or.inr rfl
        · cases hj
    | committed i edits writable =>
      have hwriter := haware i (hlooks events i edits writable [] rfl)
      constructor
      · show ((w'.windows i).store.save writable _ w'.config.file).1=_
        rw [LogSettingsStore.save,hwriter]
        exact hkept
      · rintro j ⟨e,he,hj⟩
        refine hseen i j _ hwriter (Or.inl ?_)
        rcases List.mem_append.mp he with he | he
        · exact ⟨e,he,hj⟩
        · obtain rfl := List.mem_singleton.mp he
          rcases hj with hj | ⟨_,_,hj⟩
          · cases hj
          · cases hj
    | rewritten file => exact (hours file (List.mem_append_right _ (List.mem_singleton_self _))).elim

/-- In every run of windows each tree has its patterns told apart, whatever the file said of them; what a window
writes is what each window reads next, to the last field; and a later build's file is left alone by all that have
looked at it. -/
theorem saved_reread (E : RegexEngine) (q : QUrl) (f : FileSystem) (c : Configuration)
    (events : List SettingsEvent) :
    let w := (initial c).run E q f events
    (∀i,(w.windows i).tree.Identified) ∧
    (∀i j edits,(w.windows i).store.readOnly=false→
      ((w.step E q f (.committed i edits true)).step E q f (.preferences j)).windows j=
        ⟨⟨false,(w.windows j).store.legacyFiles⟩,edits.foldl TreeEdit.apply (w.windows i).tree⟩) ∧
    (∀root,w.config.file=.holding root→FromFuture root→∀later,(∀file,.rewritten file∉later)→LooksFirst later→
      (w.run E q f later).config.file=.holding root) := by
  intro w
  have hw : w.Identified := run_identified (initial_identified c) events
  exact ⟨hw,fun i j edits hopen => committed_reread hw hopen edits j,
    fun root hfile hroot later hours hlooks => (run_future hfile hroot hours hlooks).1⟩

end SettingsWorld

end Loftail
