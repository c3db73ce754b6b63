import Loftail.IndexCoverage

/-! # The watch over a local log

Between two ticks anything may happen to the file: it is appended to, cut, rewritten in place, renamed away and
made again, or deleted. A mapping follows the file it was opened on; the path is asked again for what is there. -/
namespace Loftail

/-- What is at a log's path: a file, that can be read or cannot, or nothing. A file is told by its device and
inode. -/
structure LogPlace where
  file : Option ℕ
  readable : Bool
  bytes : ℕ→Bytes

/-- `logSourceAvailable`. -/
def LogPlace.available (s : LogPlace) : Bool := s.file.isSome && s.readable

/-- The first bytes of a file as they were when its source last agreed with it. -/
structure HeadWitness where
  head : Bytes

namespace HeadWitness

def kBytes : ℕ := 1024

def taken (head : Bytes) : HeadWitness := ⟨head.take kBytes⟩

def contradicts (w : HeadWitness) (head : Bytes) : Bool :=
  if w.head=[] then false
  else if head.length < w.head.length then true
  else decide (head.take w.head.length≠w.head)

def wantsMore (w : HeadWitness) : Bool := w.head.length < kBytes

/-- A witness is contradicted where it is no longer what the file begins with. -/
theorem contradicts_iff {w : HeadWitness} {head : Bytes} : w.contradicts head=true↔¬w.head<+:head := by
  rw [contradicts]
  split
  · rename_i hnil
    rw [hnil]
    simp
  · split
    · rename_i hshort
      refine iff_of_true rfl fun hprefix => ?_
      have hlen := hprefix.length_le
      omega
    · rw [decide_eq_true_iff,ne_eq,not_iff_not,List.prefix_iff_eq_take]
      exact eq_comm

end HeadWitness

/-- A mapping of a file, as far as it was when last measured. -/
structure MappedLogSource where
  file : ℕ
  mappedSize : ℕ
  head : HeadWitness
  truncated : Bool

namespace MappedLogSource

def openSource (s : LogPlace) : Option MappedLogSource :=
  match s.file with
  | none => none
  | some file =>
    if s.readable then some ⟨file,(s.bytes file).length,.taken (s.bytes file),false⟩ else none

/-- A file that shrank is truncated, and one whose first bytes are others. -/
def refreshSize (src : MappedLogSource) (s : LogPlace) : MappedLogSource :=
  let current := (s.bytes src.file).length
  let src := {src with truncated := src.truncated || decide (current < src.mappedSize),mappedSize := current}
  if src.truncated then src
  else
    let head := (s.bytes src.file).take HeadWitness.kBytes
    if src.head.contradicts head then {src with truncated := true}
    else if src.head.wantsMore then {src with head := .taken head}
    else src

def wasReplaced (src : MappedLogSource) (s : LogPlace) : Bool := s.file.any fun file => file≠src.file

def originVanished (s : LogPlace) : Bool := s.file.isNone

variable {src : MappedLogSource} {s : LogPlace}

theorem openSource_available : (openSource s).isSome=s.available := by
  rw [openSource,LogPlace.available]
  cases s.file with
  | none => rfl
  | some file => cases s.readable <;> rfl

theorem openSource_some (h : openSource s=some src) :
    s.file=some src.file ∧ src.mappedSize=(s.bytes src.file).length ∧ src.truncated=false := by
  rw [openSource] at h
  cases hfile : s.file with
  | none =>
    rw [hfile] at h
    cases h
  | some file =>
    rw [hfile] at h
    dsimp only at h
    split at h
    · cases h
      exact ⟨rfl,rfl,rfl⟩
    · cases h

@[simp] theorem refreshSize_file (src : MappedLogSource) (s : LogPlace) : (src.refreshSize s).file=src.file := by
  rw [refreshSize]
  dsimp only
  split
  · rfl
  · split
    · rfl
    · split <;> rfl

@[simp] theorem refreshSize_size (src : MappedLogSource) (s : LogPlace) :
    (src.refreshSize s).mappedSize=(s.bytes src.file).length := by
  rw [refreshSize]
  dsimp only
  split
  · rfl
  · split
    · rfl
    · split <;> rfl

/-- A source that is not found truncated has a file that is no shorter and begins as it did, as far as that was
witnessed. -/
theorem refreshSize_sound (h : (src.refreshSize s).truncated=false) :
    src.truncated=false ∧ src.mappedSize≤(s.bytes src.file).length ∧
      src.head.head<+:(s.bytes src.file).take HeadWitness.kBytes := by
  rw [refreshSize] at h
  dsimp only at h
  split at h
  · rename_i htruncated
    exact absurd (htruncated.symm.trans h) (by decide)
  · rename_i hsame
    rw [Bool.or_eq_true,not_or,Bool.not_eq_true,decide_eq_true_iff] at hsame
    split at h
    · cases h
    · rename_i hhead
      rw [HeadWitness.contradicts_iff,not_not] at hhead
      exact ⟨hsame.1,by omega,hhead⟩

end MappedLogSource

/-- The live controller of a local document, its source and the size the index was last brought up to. Without a
source a document waits, unless what is at its path cannot be read. -/
structure LocalWatch where
  controller : LiveController
  source : Option MappedLogSource
  formatSettled : Bool
  waiting : Bool
  lastSize : ℕ

namespace LocalWatch
variable (p : Opening)

def document (w : LocalWatch) : Document := w.controller.document

def setDocument (w : LocalWatch) (d : Document) : LocalWatch :=
    {w with controller := {w.controller with document := d}}

/-- No source reports no bytes. -/
def syncBaseline (w : LocalWatch) : LocalWatch :=
    {w with lastSize := (w.source.map MappedLogSource.mappedSize).getD 0}

/-- A local document lets go of its source while it waits. -/
def beginWaiting (w : LocalWatch) : LocalWatch :=
  {w.setDocument w.document.clearIndex with source := none,waiting := true,lastSize := 0}

def doRescan (s : LogPlace) (w : LocalWatch) : LocalWatch :=
  match MappedLogSource.openSource s with
  | some src => {w.setDocument (w.document.reload (s.bytes src.file)) with source := some src}.syncBaseline
  -- caught between a rename and what is made in its place, or gone
  | none => w.beginWaiting

/-- `Document::resume`: where no format was settled yet, it is now. -/
def resume (s : LogPlace) (w : LocalWatch) : LocalWatch :=
  match MappedLogSource.openSource s with
  | some src =>
    let content := s.bytes src.file
    let d := if w.formatSettled then w.document else w.document.settle p content
    {w.setDocument (d.reload content) with
      source := some src,waiting := false,formatSettled := w.formatSettled || decide (0 < content.length)}
  | none => {w with source := none}

/-- What has come since is read by the format there is. -/
def ingestAppended (s : LogPlace) (src : MappedLogSource) (w : LocalWatch) : LocalWatch :=
  let w := w.setDocument {w.document with source := (s.bytes src.file).take src.mappedSize}
  let ingested := {w with controller := w.controller.ingestAppended}
  if SpoolWatch.tailEmpty w.document then ingested else ingested.syncBaseline

def settleFirstBytes (answers : Bool) (s : LogPlace) (w : LocalWatch) : LocalWatch :=
  let w := if answers then w.resume p s else w
  match w.source with
  | none => w
  | some src =>
    if w.waiting then w
    else if w.formatSettled then w.syncBaseline
    else w.ingestAppended s src

/-- `Document::prepare`, and the first scan. -/
def openDocument (d : Document) (s : LogPlace) : LocalWatch :=
  match MappedLogSource.openSource s with
  | some src =>
    ⟨⟨(d.settle p (s.bytes src.file)).reload (s.bytes src.file),.none⟩,some src,
      decide (0 < (s.bytes src.file).length),false,0⟩
  | none =>
    let zoned := {d with sourceZone := p.sourceZone d.format,displayZone := p.displayZone (p.sourceZone d.format)}
    ⟨⟨zoned.clearIndex,.none⟩,none,false,true,0⟩

def start (answers : Bool) (s : LogPlace) (w : LocalWatch) : LocalWatch :=
  match w.source with
  | none => w.syncBaseline
  | some src =>
    if w.waiting || w.formatSettled then w.syncBaseline
    else
      let w := {w with source := some (src.refreshSize s)}
      if (src.refreshSize s).mappedSize=0 then w.syncBaseline else (w.settleFirstBytes p answers s).syncBaseline

def checkWhileWaiting (tick : Tick) (s : LogPlace) (w : LocalWatch) : LocalWatch :=
  if !s.available || !tick.answers then w
  else
    let w := w.resume p s
    if w.waiting then w else w.syncBaseline

/-- What is still the same file: gone, with its first bytes, with more of them, or as it was. -/
def checkSame (tick : Tick) (s : LogPlace) (src : MappedLogSource) (w : LocalWatch) : LocalWatch :=
  if MappedLogSource.originVanished s then if tick.withinGrace then w else w.beginWaiting
  else if !w.formatSettled && decide (0 < src.mappedSize) then w.settleFirstBytes p tick.answers s
  else if w.lastSize < src.mappedSize then w.ingestAppended s src
  else w.syncBaseline

/-- `LiveController::checkNow`. -/
def checkNow (tick : Tick) (s : LogPlace) (w : LocalWatch) : LocalWatch :=
  if w.waiting then w.checkWhileWaiting p tick s
  else
    match w.source with
    | none => if s.available then w.doRescan s else w
    | some src =>
      let fresh := src.refreshSize s
      let w := {w with source := some fresh}
      if src.wasReplaced s || fresh.truncated || decide (fresh.mappedSize < w.lastSize) then w.doRescan s
      else w.checkSame p tick s fresh

end LocalWatch

/-! ## What a tick leaves on the screen -/

theorem Document.reload_indexed (d : Document) (content : Bytes) :
    (d.reload content).toSetup=d.toSetup ∧ (d.reload content).source=content ∧
      Indexed d.indexer content (d.reload content).index := by
  obtain ⟨hset,hsource,-⟩ := d.reload_spec content
  obtain ⟨-,-,hindexed,-⟩ := d.rescan_spec content
  have hk : KeepsRuns (d.rescan content) (d.reload content) := by
    unfold Document.reload
    dsimp only
    split
    · exact (Document.keepsRuns_refreshHighlighting _).trans (Document.keepsRuns_applyFilters _)
    · exact Document.keepsRuns_refreshHighlighting _
  exact ⟨hset,hsource,hk.index ▸ hindexed⟩

theorem Document.clearIndex_toSetup (d : Document) : d.clearIndex.toSetup=d.toSetup := by
  rw [clearIndex]
  dsimp only
  rw [invalidateRunMemos,recomputeViewBounds_eq]
  rfl

namespace LocalWatch

/-- The formats a document can come to: its own, and what the first bytes of a log settle. -/
def Formatted (p : Opening) (own : LogFormat) (d : Document) : Prop :=
  d.format=own ∨ ∃sample,p.formatFor sample=some d.format

/-- A document that has been opened over a log. -/
structure Comes (p : Opening) (own : LogFormat) (d : Document) : Prop where
  format : Formatted p own d
  decoder : ∃sample,d.decoder=p.detect sample

/-- The index is what one pass over the bytes finds, and the source is not behind them. -/
structure Follows (p : Opening) (own : LogFormat) (w : LocalWatch) : Prop where
  waits : w.waiting=true→w.source=none ∧ w.lastSize=0 ∧ w.document.index.records=[]
  format : Formatted p own w.document
  comes : w.waiting=false ∨ w.formatSettled=true → Comes p own w.document
  shown : ∀src,w.source=some src→Indexed w.document.indexer w.document.source w.document.index ∧
    w.lastSize≤w.document.source.length ∧ w.document.source.length ≤ src.mappedSize

/-- The index holds all the source has. -/
def CaughtUp (w : LocalWatch) : Prop := ∀src,w.source=some src→src.mappedSize=w.document.source.length

/-- What is seen of a change: the file only grew, or is shorter than it was last, or begins otherwise, or another
one is in its place. -/
def Noticed (s : LogPlace) (w : LocalWatch) : Prop :=
  ∀src,w.source=some src→w.document.source<+:s.bytes src.file ∨ (s.bytes src.file).length < src.mappedSize ∨
    ¬src.head.head<+:(s.bytes src.file).take HeadWitness.kBytes ∨ src.wasReplaced s=true

/-- A line that was taken for the beginning of a record still is one with what came behind it. -/
def Steady (s : LogPlace) (w : LocalWatch) : Prop :=
  ∀src,w.source=some src→∀more,w.document.source++more=s.bytes src.file→
    w.document.indexer.StaysWith w.document.source more

/-- The records are those of the file at the path, found in one pass over it. -/
def Shows (s : LogPlace) (w : LocalWatch) : Prop :=
  w.waiting=false ∧ ∃src,w.source=some src ∧ s.file=some src.file ∧ w.document.source=s.bytes src.file ∧
    Indexed w.document.indexer (s.bytes src.file) w.document.index

variable {p : Opening} {own : LogFormat} {w : LocalWatch} {s : LogPlace} {t : Tick} {src : MappedLogSource}

theorem settle_comes {d : Document} (h : Formatted p own d) (content : Bytes) : Comes p own
    (d.settle p content) := by
  have hsettled : (d.settle p content).format=(p.formatFor (content.take Document.kSampleBytes)).getD
    d.format := rfl
  refine ⟨?_,_,rfl⟩
  rw [Formatted,hsettled]
  cases hformat : p.formatFor (content.take Document.kSampleBytes) with
  | none => exact h
  | some format => exact Or.inr ⟨_,hformat⟩

theorem Comes.of_setup {d d' : Document} (h : Comes p own d) (hset : d'.toSetup=d.toSetup) : Comes p own d' := by
  have hformat : d'.format=d.format := congrArg Setup.format hset
  have hdecoder : d'.decoder=d.decoder := congrArg Setup.decoder hset
  obtain ⟨sample,hsample⟩ := h.decoder
  refine ⟨?_,sample,hdecoder.trans hsample⟩
  rw [Formatted,hformat]
  exact h.format

/-- What is read anew is shown. -/
theorem reload_shows {d : Document} (hd : Comes p own d) (hopen : MappedLogSource.openSource s=some src)
    (hdocument : w.document=d.reload (s.bytes src.file)) (hsource : w.source=some src) (hwaiting : w.waiting=false)
    (hsize : w.lastSize≤(s.bytes src.file).length) : Follows p own w ∧ Shows s w := by
  obtain ⟨hset,hbytes,hindexed⟩ := d.reload_indexed (s.bytes src.file)
  obtain ⟨hfile,hlen,-⟩ := MappedLogSource.openSource_some hopen
  have hcomes : Comes p own w.document := by
    rw [hdocument]
    exact hd.of_setup hset
  have hbytes' : w.document.source=s.bytes src.file := by rw [hdocument,hbytes]
  have hwhole : Indexed w.document.indexer (s.bytes src.file) w.document.index := by
    rw [hdocument,hset]
    exact hindexed
  refine ⟨⟨?_,hcomes.format,fun _ => hcomes,?_⟩,hwaiting,src,hsource,hfile,hbytes',hwhole⟩
  · intro hwaits
    rw [hwaiting] at hwaits
    cases hwaits
  · intro other hother
    obtain rfl := Option.some_inj.mp (hsource.symm.trans hother)
    rw [hbytes']
    exact ⟨hwhole,hsize,hlen.ge⟩

/-- A document that waits has no records, and keeps what was settled. -/
theorem beginWaiting_follows (h : Formatted p own w.document) (hc : w.formatSettled=true → Comes p own w.document) :
    Follows p own w.beginWaiting := by
  have hset : w.document.clearIndex.toSetup=w.document.toSetup := w.document.clearIndex_toSetup
  refine ⟨fun _ => ⟨rfl,rfl,w.document.clearIndex_records⟩,?_,?_,fun _ hsrc => nomatch hsrc⟩
  · show Formatted p own w.document.clearIndex
    rw [Formatted,hset]
    exact h
  · rintro (hfalse | hsettled)
    · cases hfalse
    · exact (hc hsettled).of_setup hset

theorem doRescan_follows (h : Comes p own w.document) (hw : w.waiting=false) : Follows p own (w.doRescan s) := by
  rw [doRescan]
  cases hopen : MappedLogSource.openSource s with
  | none => exact beginWaiting_follows h.format fun _ => h
  | some src =>
    obtain ⟨-,hlen,-⟩ := MappedLogSource.openSource_some hopen
    exact And.left <| reload_shows (w:={w.setDocument (w.document.reload _) with source := some src}.syncBaseline)
      h hopen rfl rfl hw hlen.le

theorem doRescan_shows (h : Comes p own w.document) (hw : w.waiting=false) (ha : s.available=true) :
    Shows s (w.doRescan s) := by
  rw [← MappedLogSource.openSource_available] at ha
  obtain ⟨src,hopen⟩ := Option.isSome_iff_exists.mp ha
  obtain ⟨-,hlen,-⟩ := MappedLogSource.openSource_some hopen
  rw [doRescan,hopen]
  exact And.right <| reload_shows (w:={w.setDocument (w.document.reload _) with source := some src}.syncBaseline)
    h hopen rfl rfl hw hlen.le

private theorem resume_follows (h : Follows p own w)
    (hsize : ∀file,s.file=some file→w.lastSize≤(s.bytes file).length) :
    Follows p own (w.resume p s) := by
  rw [resume]
  cases hopen : MappedLogSource.openSource s with
  | none => exact ⟨fun hw => ⟨rfl,(h.waits hw).2⟩,h.format,h.comes,fun _ hsrc => nomatch hsrc⟩
  | some src =>
    obtain ⟨hfile,-⟩ := MappedLogSource.openSource_some hopen
    dsimp only
    have hcomes : Comes p own (if w.formatSettled then w.document else w.document.settle p (s.bytes src.file)) := by
      split
      · rename_i hsettled
        exact h.comes (Or.inr hsettled)
      · exact settle_comes h.format _
    exact And.left <| reload_shows hcomes hopen rfl rfl rfl (hsize _ hfile)

/-- A log that can be read is shown once the owner has answered, and its format is settled as soon as it has
bytes. -/
theorem resume_shows (h : Follows p own w) (hopen : MappedLogSource.openSource s=some src) :
    (Follows p own (w.resume p s).syncBaseline ∧ Shows s (w.resume p s).syncBaseline) ∧
      (w.resume p s).source=some src ∧ (w.resume p s).document.source=s.bytes src.file := by
  obtain ⟨-,hlen,-⟩ := MappedLogSource.openSource_some hopen
  rw [resume,hopen]
  dsimp only
  have hcomes : Comes p own (if w.formatSettled then w.document else w.document.settle p (s.bytes src.file)) := by
    split
    · rename_i hsettled
      exact h.comes (Or.inr hsettled)
    · exact settle_comes h.format _
  exact ⟨reload_shows hcomes hopen rfl rfl rfl hlen.le,rfl,(Document.reload_indexed _ _).2.1⟩

theorem syncBaseline_follows (h : Follows p own w) (hcaught : CaughtUp w) : Follows p own w.syncBaseline := by
  refine ⟨fun hw => ?_,h.format,h.comes,fun src hsrc => ?_⟩
  · obtain ⟨hsource,-,hrecords⟩ := h.waits hw
    refine ⟨hsource,?_,hrecords⟩
    show (w.source.map MappedLogSource.mappedSize).getD 0=0
    rw [hsource]
    rfl
  · obtain ⟨hindexed,-,hbehind⟩ := h.shown src hsrc
    refine ⟨hindexed,?_,hbehind⟩
    show (w.source.map MappedLogSource.mappedSize).getD 0≤_
    have hsrc' : w.source=some src := hsrc
    rw [hsrc']
    exact (hcaught src hsrc').le

/-- What has come is read as the tick of a file that grew. -/
theorem ingestAppended_tick (hsize : src.mappedSize=(s.bytes src.file).length)
    (hgrew : w.document.source<+:s.bytes src.file) : ∃more,w.document.source++more=s.bytes src.file ∧
      (w.ingestAppended s src={w with controller := w.controller.tick more} ∨
        w.ingestAppended s src={w with controller := w.controller.tick more}.syncBaseline) := by
  obtain ⟨more,hmore⟩ := hgrew
  have htake : (s.bytes src.file).take src.mappedSize=w.document.source++more := by
    rw [hmore]
    exact List.take_of_length_le hsize.ge
  refine ⟨more,hmore,?_⟩
  rw [ingestAppended,htake]
  dsimp only
  split
  · exact Or.inl rfl
  · exact Or.inr rfl

theorem ingestAppended_follows (h : Follows p own w) (hsteady : Steady s w) (hsource : w.source=some src)
    (hsize : src.mappedSize=(s.bytes src.file).length) (hgrew : w.document.source<+:s.bytes src.file) :
    Follows p own (w.ingestAppended s src) ∧ CaughtUp (w.ingestAppended s src) ∧
      (s.file=some src.file→Shows s (w.ingestAppended s src)) := by
  have hwaiting : w.waiting=false := by
    rw [← Bool.not_eq_true]
    intro hw
    exact nomatch hsource.symm.trans (h.waits hw).1
  have hcomes := h.comes (Or.inl hwaiting)
  obtain ⟨hindexed,hlast,hbehind⟩ := h.shown src hsource
  obtain ⟨more,hmore,htick⟩ := ingestAppended_tick hsize hgrew
  have hset : (w.controller.tick more).document.toSetup=w.document.toSetup := w.controller.tick_toSetup more
  have hbytes : (w.controller.tick more).document.source=s.bytes src.file :=
    (w.controller.tick_source more).trans hmore
  have hwhole := Indexed.tick (c:=w.controller) (hsteady src hsource more hmore) hindexed
  have hlen : w.document.source.length≤(s.bytes src.file).length := hgrew.length_le
  have hnew := hcomes.of_setup hset
  have hfollows (w' : LocalWatch) (hc : w'.controller=w.controller.tick more) (hsrc : w'.source=some src)
      (hw : w'.waiting=false) (hl : w'.lastSize ≤ src.mappedSize) :
      Follows p own w' ∧ CaughtUp w' ∧ (s.file=some src.file→Shows s w') := by
    have hdoc : w'.document=(w.controller.tick more).document := congrArg LiveController.document hc
    refine ⟨⟨fun hwaits => (nomatch hw.symm.trans hwaits),?_,fun _ => hdoc ▸ hnew,?_⟩,?_,?_⟩
    · exact hdoc ▸ hnew.format
    · intro other hother
      obtain rfl := Option.some_inj.mp (hsrc.symm.trans hother)
      rw [hdoc]
      exact ⟨hwhole,by rw [hbytes]; omega,by rw [hbytes]; omega⟩
    · intro other hother
      obtain rfl := Option.some_inj.mp (hsrc.symm.trans hother)
      rw [hdoc,hbytes,hsize]
    · intro hfile
      refine ⟨hw,src,hsrc,hfile,?_,?_⟩
      · rw [hdoc,hbytes]
      · rw [hdoc,← hbytes]
        exact hwhole
  obtain htick | htick := htick
  · rw [htick]
    exact hfollows _ rfl hsource hwaiting (by show w.lastSize≤_; omega)
  · rw [htick]
    refine hfollows _ rfl hsource hwaiting ?_
    show (w.source.map MappedLogSource.mappedSize).getD 0≤_
    rw [hsource]
    exact le_rfl

/-- Once there are bytes to settle a format by, they are read by it, or by the one there was. -/
theorem settleFirstBytes_follows (h : Follows p own w) (hsteady : Steady s w) (hsettled : w.formatSettled=false)
    (hsource : w.source=some src) (hsize : src.mappedSize=(s.bytes src.file).length)
    (hgrew : w.document.source<+:s.bytes src.file) (hlast : ∀file,s.file=some file→w.lastSize≤(s.bytes file).length)
    (answers : Bool) : Follows p own (w.settleFirstBytes p answers s) ∧ CaughtUp (w.settleFirstBytes p answers s) ∧
      (s.available=true→s.file=some src.file→Shows s (w.settleFirstBytes p answers s)) := by
  have hwaiting : w.waiting=false := by
    rw [← Bool.not_eq_true]
    intro hw
    exact nomatch hsource.symm.trans (h.waits hw).1
  cases answers with
  | false =>
    obtain ⟨hfollows,hcaught,hshows⟩ := ingestAppended_follows h hsteady hsource hsize hgrew
    have heq : w.settleFirstBytes p false s=w.ingestAppended s src := by
      simp [settleFirstBytes,hsource,hwaiting,hsettled]
    rw [heq]
    exact ⟨hfollows,hcaught,fun _ => hshows⟩
  | true =>
    have hresumed := resume_follows (p:=p) h hlast
    cases hopen : MappedLogSource.openSource s with
    | none =>
      have heq : w.settleFirstBytes p true s=w.resume p s := by simp [settleFirstBytes,resume,hopen]
      have hnone : (w.resume p s).source=none := by rw [resume,hopen]
      rw [heq]
      refine ⟨hresumed,fun src hsrc => (nomatch hnone.symm.trans hsrc),fun ha => ?_⟩
      rw [← MappedLogSource.openSource_available,hopen] at ha
      cases ha
    | some src =>
      obtain ⟨hfile,hlen,-⟩ := MappedLogSource.openSource_some hopen
      obtain ⟨⟨hfollows,hshows⟩,hsrc,hbytes⟩ := resume_shows (p:=p) h hopen
      have hrunning : (w.resume p s).waiting=false := hshows.1
      cases hfresh : (w.resume p s).formatSettled with
      | true =>
        have heq : w.settleFirstBytes p true s=(w.resume p s).syncBaseline := by
          simp [settleFirstBytes,hsrc,hrunning,hfresh]
        rw [heq]
        refine ⟨hfollows,fun other hother => ?_,fun _ _ => hshows⟩
        obtain rfl := Option.some_inj.mp (hsrc.symm.trans hother)
        rw [hlen,← hbytes]
        rfl
      | false =>
        have heq : w.settleFirstBytes p true s=(w.resume p s).ingestAppended s src := by
          simp [settleFirstBytes,hsrc,hrunning,hfresh]
        rw [heq]
        have hnothing : (w.resume p s).document.source=[] := by
          have hunset : (w.formatSettled || decide (0 < (s.bytes src.file).length))=false := by
            rw [← hfresh,resume,hopen]
          rw [Bool.or_eq_false_iff,decide_eq_false_iff_not] at hunset
          rw [hbytes]
          exact List.length_eq_zero_iff.mp (by omega)
        have hfirst : Steady s (w.resume p s) := fun _ _ more _ => by
          rw [hnothing]
          exact Indexer.staysWith_nil _ more
        obtain ⟨hkept,hcaught,hagain⟩ := ingestAppended_follows hresumed hfirst hsrc hlen (hbytes ▸ List.prefix_rfl)
        exact ⟨hkept,hcaught,fun _ _ => hagain hfile⟩

/-- A file that is still the one it was, no shorter and with the bytes that were read. -/
theorem checkSame_follows (h : Follows p own w) (hsteady : Steady s w) (hsource : w.source=some src)
    (hsize : src.mappedSize=(s.bytes src.file).length) (hgrew : w.document.source<+:s.bytes src.file)
    (hsame : src.wasReplaced s=false) (hlast : w.lastSize ≤ src.mappedSize) :
    Follows p own (w.checkSame p t s src) ∧ (s.available=true→Shows s (w.checkSame p t s src)) := by
  have hwaiting : w.waiting=false := by
    rw [← Bool.not_eq_true]
    intro hw
    exact nomatch hsource.symm.trans (h.waits hw).1
  have hcomes := h.comes (Or.inl hwaiting)
  rw [checkSame]
  cases hfile : s.file with
  | none =>
    rw [if_pos (by simp [MappedLogSource.originVanished,hfile])]
    have hgone : s.available=true→False := by simp [LogPlace.available,hfile]
    split
    · exact ⟨h,fun ha => (hgone ha).elim⟩
    · exact ⟨beginWaiting_follows h.format fun _ => hcomes,fun ha => (hgone ha).elim⟩
  | some file =>
    obtain rfl : file=src.file := by simpa [MappedLogSource.wasReplaced,hfile] using hsame
    rw [if_neg (by simp [MappedLogSource.originVanished,hfile])]
    split
    · rename_i hfirst
      rw [Bool.and_eq_true,Bool.not_eq_true'] at hfirst
      have hlast' : ∀file,s.file=some file→w.lastSize≤(s.bytes file).length := by
        intro file hother
        obtain rfl := Option.some_inj.mp (hfile.symm.trans hother)
        omega
      obtain ⟨hfollows,-,hshows⟩ := settleFirstBytes_follows h hsteady hfirst.1 hsource hsize hgrew hlast' t.answers
      exact ⟨hfollows,fun ha => hshows ha hfile⟩
    · split
      · obtain ⟨hfollows,-,hshows⟩ := ingestAppended_follows h hsteady hsource hsize hgrew
        exact ⟨hfollows,fun _ => hshows hfile⟩
      · rename_i hstill
        -- nothing came: the baseline is what was read
        obtain ⟨hindexed,hread,hbehind⟩ := h.shown src hsource
        have hall : w.document.source=s.bytes src.file := hgrew.eq_of_length (by omega)
        have hcaught : CaughtUp w := by
          intro other hother
          obtain rfl := Option.some_inj.mp (hsource.symm.trans hother)
          omega
        exact ⟨syncBaseline_follows h hcaught,fun _ => ⟨hwaiting,src,hsource,hfile,hall,hall ▸ hindexed⟩⟩

/-- A tick with the log gone, or back, and with the owner answering or not. -/
theorem checkWhileWaiting_follows (h : Follows p own w) : Follows p own (w.checkWhileWaiting p t s) ∧
    (s.available=true→t.answers=true→Shows s (w.checkWhileWaiting p t s)) := by
  rw [checkWhileWaiting]
  split
  · rename_i hback
    rw [Bool.or_eq_true,Bool.not_eq_true',Bool.not_eq_true'] at hback
    refine ⟨h,fun ha hanswers => ?_⟩
    rw [ha,hanswers] at hback
    simp at hback
  · rename_i hback
    rw [Bool.or_eq_true,not_or,Bool.not_eq_true',Bool.not_eq_false] at hback
    have ha := hback.1
    rw [← MappedLogSource.openSource_available] at ha
    obtain ⟨src,hopen⟩ := Option.isSome_iff_exists.mp ha
    obtain ⟨⟨hfollows,hshows⟩,-⟩ := resume_shows (p:=p) h hopen
    have hrunning : (w.resume p s).waiting=false := hshows.1
    dsimp only
    rw [if_neg (by rw [hrunning]; exact Bool.false_ne_true)]
    exact ⟨hfollows,fun _ _ => hshows⟩

/-- What a refresh does not find truncated, nor in the place of another file, only grew. -/
theorem refreshed_follows (h : Follows p own w) (hn : Noticed s w) (hsource : w.source=some src)
    (hreplaced : src.wasReplaced s=false) (htruncated : (src.refreshSize s).truncated=false) :
    Follows p own {w with source := some (src.refreshSize s)} ∧ w.document.source<+:s.bytes src.file := by
  obtain ⟨-,hlonger,hhead⟩ := MappedLogSource.refreshSize_sound htruncated
  obtain ⟨hindexed,hread,hbehind⟩ := h.shown src hsource
  refine ⟨⟨fun hw => ?_,h.format,h.comes,fun other hother => ?_⟩,?_⟩
  · exact nomatch hsource.symm.trans (h.waits hw).1
  · obtain rfl := Option.some_inj.mp hother
    refine ⟨hindexed,hread,?_⟩
    rw [MappedLogSource.refreshSize_size]
    exact hbehind.trans hlonger
  -- what would have been missed is what `Noticed` excludes
  · rcases hn src hsource with hgrew | hshort | hother | hmoved
    · exact hgrew
    · omega
    · exact (hother hhead).elim
    · exact nomatch hreplaced.symm.trans hmoved

/-- A tick, whatever has become of the file since the last one. -/
theorem checkNow_follows (h : Follows p own w) (hn : Noticed s w) (hsteady : Steady s w) :
    Follows p own (w.checkNow p t s) ∧
      (s.available=true→t.answers=true ∨ w.waiting=false→Shows s (w.checkNow p t s)) := by
  rw [checkNow]
  by_cases hwaiting : w.waiting=true
  · rw [if_pos hwaiting]
    obtain ⟨hfollows,hshows⟩ := checkWhileWaiting_follows (s:=s) (t:=t) h
    refine ⟨hfollows,fun ha hanswers => hshows ha ?_⟩
    simpa [hwaiting] using hanswers
  · rw [if_neg hwaiting]
    rw [Bool.not_eq_true] at hwaiting
    have hcomes := h.comes (Or.inl hwaiting)
    cases hsource : w.source with
    | none =>
      dsimp only
      split
      · rename_i ha
        exact ⟨doRescan_follows hcomes hwaiting,fun _ _ => doRescan_shows hcomes hwaiting ha⟩
      · rename_i ha
        exact ⟨h,fun ha' => (ha ha').elim⟩
    | some src =>
      have hcomes' : Comes p own {w with source := some (src.refreshSize s)}.document := hcomes
      dsimp only
      split
      · exact ⟨doRescan_follows hcomes' hwaiting,fun ha _ => doRescan_shows hcomes' hwaiting ha⟩
      · rename_i hsame
        rw [Bool.or_eq_true,Bool.or_eq_true,not_or,not_or,Bool.not_eq_true,Bool.not_eq_true,
          decide_eq_true_iff] at hsame
        obtain ⟨⟨hreplaced,htruncated⟩,hshrunk⟩ := hsame
        obtain ⟨hfresh,hgrew⟩ := refreshed_follows h hn hsource hreplaced htruncated
        have hgrew' : w.document.source<+:s.bytes (src.refreshSize s).file := by
          rw [MappedLogSource.refreshSize_file]
          exact hgrew
        have hreplaced' : (src.refreshSize s).wasReplaced s=false := by
          rw [MappedLogSource.wasReplaced,MappedLogSource.refreshSize_file]
          exact hreplaced
        have hsteady' : Steady s {w with source := some (src.refreshSize s)} := by
          rintro _ ⟨⟩ more hmore
          rw [MappedLogSource.refreshSize_file] at hmore
          exact hsteady src hsource more hmore
        obtain ⟨hfollows,hshows⟩ := checkSame_follows (t:=t) hfresh hsteady' rfl (by simp) hgrew' hreplaced'
          (Nat.not_lt.mp hshrunk)
        exact ⟨hfollows,fun ha _ => hshows ha⟩

/-- A path with nothing at it, once it has had time to be made again, is waited for. -/
theorem checkNow_waits (hsource : w.source≠none) (hgone : s.file=none) (hgrace : t.withinGrace=false) :
    (w.checkNow p t s).waiting=true := by
  rw [checkNow]
  cases hwaiting : w.waiting with
  | true =>
    have hnot : s.available=false := by simp [LogPlace.available,hgone]
    simp [checkWhileWaiting,hnot,hwaiting]
  | false =>
    obtain ⟨src,hsrc⟩ := Option.ne_none_iff_exists'.mp hsource
    have hopen : MappedLogSource.openSource s=none := by rw [MappedLogSource.openSource,hgone]
    rw [if_neg Bool.false_ne_true,hsrc]
    dsimp only
    split
    · rw [doRescan,hopen]
      rfl
    · simp [checkSame,MappedLogSource.originVanished,hgone,hgrace,beginWaiting]

private theorem openDocument_follows {d : Document} (hd : d.format=own) : Follows p own (openDocument p d s) ∧
    CaughtUp (openDocument p d s) ∧ (openDocument p d s).lastSize=0 ∧
      ((openDocument p d s).formatSettled=false→(openDocument p d s).source≠none→
        (openDocument p d s).document.source=[]) := by
  rw [openDocument]
  cases hopen : MappedLogSource.openSource s with
  | none =>
    dsimp only
    refine ⟨⟨fun _ => ⟨rfl,rfl,Document.clearIndex_records _⟩,?_,?_,fun _ hsrc => nomatch hsrc⟩,
      fun _ hsrc => (nomatch hsrc),rfl,fun _ hne => (hne rfl).elim⟩
    · rw [document,Formatted,Document.clearIndex_toSetup]
      exact Or.inl hd
    · rintro (hfalse | hfalse)
      · cases hfalse
      · cases hfalse
  | some src =>
    obtain ⟨-,hlen,-⟩ := MappedLogSource.openSource_some hopen
    dsimp only
    have hbytes : ((d.settle p (s.bytes src.file)).reload (s.bytes src.file)).source=s.bytes src.file :=
      (Document.reload_indexed _ _).2.1
    refine ⟨And.left <| reload_shows (settle_comes (Or.inl hd) _) hopen rfl rfl rfl (Nat.zero_le _),?_,rfl,?_⟩
    · intro other hother
      obtain rfl := Option.some_inj.mp hother
      show src.mappedSize=((d.settle p (s.bytes src.file)).reload (s.bytes src.file)).source.length
      rw [hlen,hbytes]
    · intro hsettled _
      have hnil : s.bytes src.file=[] := by
        rw [decide_eq_false_iff_not] at hsettled
        exact List.length_eq_zero_iff.mp (by omega)
      exact hbytes.trans hnil

/-- What came while the first scan ran is taken in before the watch begins. -/
theorem start_follows (h : Follows p own w) (hcaught : CaughtUp w) (hzero : w.lastSize=0)
    (hempty : w.formatSettled=false→w.source≠none→w.document.source=[]) (answers : Bool) :
    Follows p own (w.start p answers s) := by
  rw [start]
  cases hsource : w.source with
  | none => exact syncBaseline_follows h hcaught
  | some src =>
    dsimp only
    split
    · exact syncBaseline_follows h hcaught
    · rename_i hopened
      rw [Bool.or_eq_true,not_or,Bool.not_eq_true,Bool.not_eq_true] at hopened
      obtain ⟨hwaiting,hsettled⟩ := hopened
      have hnil := hempty hsettled (by rw [hsource]; exact Option.some_ne_none _)
      obtain ⟨hindexed,-,-⟩ := h.shown src hsource
      have hfresh : Follows p own {w with source := some (src.refreshSize s)} := by
        refine ⟨fun hw => (nomatch hwaiting.symm.trans hw),h.format,h.comes,fun other _ => ⟨hindexed,?_,?_⟩⟩
        · show w.lastSize≤_
          omega
        · show w.document.source.length≤_
          rw [hnil]
          exact Nat.zero_le _
      split
      · rename_i hnothing
        refine syncBaseline_follows hfresh fun other hother => ?_
        obtain rfl := Option.some_inj.mp hother
        show (src.refreshSize s).mappedSize=w.document.source.length
        rw [hnothing,hnil]
        rfl
      · have hgrew : w.document.source<+:s.bytes (src.refreshSize s).file := by
          rw [hnil]
          exact List.nil_prefix
        have hlast : ∀file,s.file=some file→w.lastSize≤(s.bytes file).length := fun _ _ => by omega
        have hfirst : Steady s {w with source := some (src.refreshSize s)} := by
          intro other _ more _
          show w.document.indexer.StaysWith w.document.source more
          rw [hnil]
          exact Indexer.staysWith_nil _ more
        obtain ⟨hfollows,hcaught',-⟩ := settleFirstBytes_follows hfresh hfirst hsettled rfl
          (by simp) hgrew hlast answers
        exact syncBaseline_follows hfollows hcaught'

/-- The watches over a document: it is opened over what is at its path, started over what is there by then, and
ticks, each time over what it may find there. -/
inductive Watched (p : Opening) (d : Document) : LocalWatch→Prop
  | started (opened s : LogPlace) (answers : Bool) : Watched p d ((openDocument p d opened).start p answers s)
  | ticked {w : LocalWatch} {s : LogPlace} (t : Tick) : Watched p d w→Noticed s w→Steady s w→
    Watched p d (w.checkNow p t s)

theorem watched_follows {d : Document} (h : Watched p d w) : Follows p d.format w := by
  induction h with
  | started opened s answers =>
    obtain ⟨hfollows,hcaught,hzero,hempty⟩ := openDocument_follows (s:=opened) (p:=p) (rfl : d.format=d.format)
    exact start_follows hfollows hcaught hzero hempty answers
  | ticked tick _ hn hsteady ih => exact (checkNow_follows ih hn hsteady).1

/-- Whatever became of a log on the way, grown, cut, rewritten, replaced or gone and back: the tick that finds
it there, and the owner there where it waits for one, shows the records of the file there now, as one pass over
it finds them. A document that waits shows none. -/
theorem watched_shows {d : Document} (h : Watched p d w) (hn : Noticed s w) (hsteady : Steady s w) :
    (s.available=true→t.answers=true ∨ w.waiting=false→Shows s (w.checkNow p t s)) ∧
      (s.file=none→t.withinGrace=false→w.source≠none→(w.checkNow p t s).waiting=true) ∧
        ((w.checkNow p t s).waiting=true→(w.checkNow p t s).document.index.records=[]) := by
  obtain ⟨hfollows,hshows⟩ := checkNow_follows (t:=t) (watched_follows h) hn hsteady
  exact ⟨hshows,fun hgone hgrace hsource => checkNow_waits hsource hgone hgrace,fun hw => (hfollows.waits hw).2.2⟩

/-- A bracket at the head of a line begins a record, whatever comes behind it. -/
theorem bracketed_startsStay {d : Document} (h : Comes .plain Document.bracketed.format d) :
    d.indexer.StartsStay := by
  obtain ⟨sample,hdecoder⟩ := h.decoder
  have hformat : d.format=Document.bracketed.format := by
    rcases h.format with hown | ⟨_,hnone⟩
    · exact hown
    · cases hnone
  exact Indexer.startsStay_plain 0x5B hformat hdecoder (by decide) (by decide)

/-- Opened before the log is there, which comes with half a line, grows by the rest of it and is then replaced by
another. -/
theorem watched_shows_replaced :
    let absent : LogPlace := ⟨none,true,fun _ => []⟩
    let first : LogPlace := ⟨some 1,true,fun _ => [0x5B,0x61]⟩
    let grown : LogPlace := ⟨some 1,true,fun _ => [0x5B,0x61,0x0A]⟩
    let second : LogPlace := ⟨some 2,true,fun _ => [0x5B,0x62,0x0A]⟩
    let watch := (openDocument .plain .bracketed absent).start .plain true absent
    let shown := watch.checkNow .plain ⟨true,true⟩ first
    let again := shown.checkNow .plain ⟨false,true⟩ grown
    Shows first shown ∧ Shows grown again ∧ Shows second (again.checkNow .plain ⟨false,true⟩ second) := by
  intro absent first grown second watch shown again
  have hstays {s : LogPlace} {w : LocalWatch} (h : Watched .plain .bracketed w)
      (hw : w.waiting=false) : Steady s w :=
    fun _ _ more _ => (bracketed_startsStay ((watched_follows h).comes (.inl hw))).staysWith _ more
  have hwatch : Watched .plain .bracketed watch := .started absent absent true
  have hcame : Noticed first watch := fun _ hsrc => nomatch hsrc
  have hsteady : Steady first watch := fun _ hsrc => nomatch hsrc
  have hfirst : Shows first shown := (watched_shows hwatch hcame hsteady).1 rfl (.inl rfl)
  have hshown : Watched .plain .bracketed shown := .ticked _ hwatch hcame hsteady
  obtain ⟨hrunning,src,hsrc,-,hbytes,-⟩ := id hfirst
  have hgrew : Noticed grown shown := by
    intro other _
    rw [hbytes]
    exact .inl ⟨[0x0A],rfl⟩
  have hagain : Shows grown again := (watched_shows hshown hgrew (hstays hshown hrunning)).1 rfl (.inr hrunning)
  have hticked : Watched .plain .bracketed again := .ticked _ hshown hgrew (hstays hshown hrunning)
  obtain ⟨hrunning',src',hsrc',hfile',-⟩ := id hagain
  have hmoved : Noticed second again := by
    intro other hother
    obtain rfl := Option.some_inj.mp (hsrc'.symm.trans hother)
    obtain hone : 1=src'.file := Option.some_inj.mp hfile'
    exact .inr (.inr (.inr (by simp [MappedLogSource.wasReplaced,← hone,second])))
  exact ⟨hfirst,hagain,(watched_shows hticked hmoved (hstays hticked hrunning')).1 rfl (.inr hrunning')⟩

end LocalWatch

end Loftail
