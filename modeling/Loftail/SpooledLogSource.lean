import Mathlib.Data.List.Infix
import Mathlib.Logic.Function.Basic
import Loftail.Indexer
import Loftail.SharedReads

/-! # A log read through the spool a fetcher is filling

The fetcher appends to the newest generation's file, publishes how much of it is committed, and
begins another generation when the log is replaced. The source reads what is published. -/
namespace Loftail

/-- `FetchStatus::State`. -/
inductive FetchState
  | idle | connecting | priming | live | error | disconnected | waiting | complete
  deriving DecidableEq

structure FetchStatus where
  state : FetchState
  generation : ℕ
  committedSize : ℕ
  deriving DecidableEq

/-- The spool: the file of each generation, and how much of each was committed. -/
structure SourceSpool where
  state : FetchState
  generation : ℕ
  committed : ℕ→ℕ
  files : ℕ→Bytes

namespace SourceSpool

/-- Before the fetcher has begun a generation. -/
def initial : SourceSpool := ⟨.idle,0,fun _ => 0,fun _ => []⟩

/-- The published snapshot. -/
def status (s : SourceSpool) : FetchStatus := ⟨s.state,s.generation,s.committed s.generation⟩

/-- What a fetcher does. -/
inductive Publish
  | write (bytes : Bytes)
  | commit (size : ℕ)
  | beginGeneration
  | setState (state : FetchState)

/-- A size is published once its bytes have landed, and only ever a greater one; a generation is
a new file, published empty. -/
def step (s : SourceSpool) : Publish→Option SourceSpool
  | .write bytes =>
    if s.generation=0 then none else
      some {s with files := Function.update s.files s.generation (s.files s.generation++bytes)}
  | .commit size =>
    if s.committed s.generation ≤ size ∧ size≤(s.files s.generation).length then
      some {s with committed := Function.update s.committed s.generation size}
    else none
  | .beginGeneration =>
    some {s with generation := s.generation+1
                 committed := Function.update s.committed (s.generation+1) 0
                 files := Function.update s.files (s.generation+1) []}
  | .setState state => some {s with state := state}

/-- What the fetcher may have done meanwhile. -/
def Later : SourceSpool→SourceSpool→Prop := Relation.ReflTransGen fun s t => ∃a,s.step a=some t

/-- What is committed has landed; no file is written before the first generation. -/
structure Landed (s : SourceSpool) : Prop where
  committed : ∀g ≤ s.generation,s.committed g≤(s.files g).length
  unwritten : s.files 0=[]

/-- Generations are added; what each holds and has committed only grows. -/
structure Grown (s t : SourceSpool) : Prop where
  generation : s.generation≤t.generation
  committed : ∀g ≤ s.generation,s.committed g≤t.committed g
  files : ∀g ≤ s.generation,s.files g<+:t.files g

variable {s t u : SourceSpool}

theorem Grown.refl (s : SourceSpool) : Grown s s := ⟨le_rfl,fun _ _ => le_rfl,fun _ _ => List.prefix_rfl⟩

theorem Grown.trans (h : Grown s t) (h' : Grown t u) : Grown s u where
  generation := h.generation.trans h'.generation
  committed := fun g hg => (h.committed g hg).trans (h'.committed g (hg.trans h.generation))
  files := fun g hg => (h.files g hg).trans (h'.files g (hg.trans h.generation))

private theorem grown_step {a : Publish} (h : s.step a=some t) : Grown s t := by
  cases a with
  | write bytes =>
    rw [step] at h
    split at h
    · cases h
    · obtain rfl := Option.some_inj.mp h
      refine ⟨le_rfl,fun _ _ => le_rfl,?_⟩
      intro g hg
      by_cases hs : g=s.generation
      · subst hs
        simp
      · simp [Function.update_of_ne hs]
  | commit size =>
    rw [step] at h
    split at h
    · rename_i hc
      obtain rfl := Option.some_inj.mp h
      refine ⟨le_rfl,?_,fun _ _ => List.prefix_rfl⟩
      intro g hg
      by_cases hs : g=s.generation
      · subst hs
        simpa using hc.1
      · simp [Function.update_of_ne hs]
    · cases h
  | beginGeneration =>
    obtain rfl := Option.some_inj.mp h
    refine ⟨Nat.le_succ _,?_,?_⟩ <;> intro g hg
    · simp [Function.update_of_ne (show g≠s.generation+1 by omega)]
    · simp [Function.update_of_ne (show g≠s.generation+1 by omega)]
  | setState state =>
    obtain rfl := Option.some_inj.mp h
    exact ⟨le_rfl,fun _ _ => le_rfl,fun _ _ => List.prefix_rfl⟩

private theorem landed_step {a : Publish} (hl : s.Landed) (h : s.step a=some t) : t.Landed := by
  cases a with
  | write bytes =>
    rw [step] at h
    split at h
    · cases h
    · rename_i hz
      obtain rfl := Option.some_inj.mp h
      refine ⟨?_,?_⟩
      · intro g hg
        have hle := hl.committed g hg
        by_cases hs : g=s.generation
        · subst hs
          simp
          omega
        · simpa [Function.update_of_ne hs] using hle
      · simpa [Function.update_of_ne (Ne.symm hz)] using hl.unwritten
  | commit size =>
    rw [step] at h
    split at h
    · rename_i hc
      obtain rfl := Option.some_inj.mp h
      refine ⟨?_,hl.unwritten⟩
      intro g hg
      by_cases hs : g=s.generation
      · subst hs
        simpa using hc.2
      · simpa [Function.update_of_ne hs] using hl.committed g hg
    · cases h
  | beginGeneration =>
    obtain rfl := Option.some_inj.mp h
    refine ⟨?_,?_⟩
    · intro g hg
      by_cases hs : g=s.generation+1
      · subst hs
        simp
      · have hle : g ≤ s.generation := by
          simp only at hg
          omega
        simpa [Function.update_of_ne hs] using hl.committed g hle
    · simpa [Function.update_of_ne (show 0≠s.generation+1 by omega)] using hl.unwritten
  | setState state =>
    obtain rfl := Option.some_inj.mp h
    exact ⟨hl.committed,hl.unwritten⟩

theorem Later.grown (h : Later s t) : Grown s t := by
  induction h with
  | refl => exact .refl s
  | tail _ hs ih =>
    obtain ⟨a,ha⟩ := hs
    exact ih.trans (grown_step ha)

theorem Later.landed (h : Later s t) (hl : s.Landed) : t.Landed := by
  induction h with
  | refl => exact hl
  | tail _ hs ih =>
    obtain ⟨a,ha⟩ := hs
    exact landed_step ih ha

/-- The spool after what can be done of these. -/
def publish (s : SourceSpool) (as : List Publish) : SourceSpool := as.foldl (fun s a => (s.step a).getD s) s

theorem later_publish (s : SourceSpool) (as : List Publish) : Later s (s.publish as) := by
  induction as generalizing s with
  | nil => exact .refl
  | cons a as ih =>
    cases h : s.step a with
    | none => simpa [publish,h] using ih s
    | some t =>
      have ht : (t.publish as)=s.publish (a::as) := by simp [publish,h]
      exact .head ⟨a,h⟩ (ht ▸ ih t)

theorem landed_initial : initial.Landed := ⟨fun _ _ => Nat.zero_le _,rfl⟩

/-- Nothing is committed before the first generation. -/
theorem Landed.committed_zero (h : s.Landed) : s.committed 0=0 := by
  have hle := h.committed 0 (Nat.zero_le _)
  rw [h.unwritten] at hle
  exact Nat.eq_zero_of_le_zero hle

end SourceSpool

/-- A source over one generation's file: the size the local source under it last saw (`none`
where there was no file to open), the size it reports, and the latched truncation. -/
structure SpooledLogSource where
  generation : ℕ
  inner : Option ℕ
  size : ℕ
  truncated : Bool
  deriving DecidableEq

namespace SpooledLogSource
open Reads

/-- A local source over a generation's file; the generation before the first has none. -/
def openSpoolFile (generation : ℕ) : Reads SourceSpool (Option ℕ) :=
  look fun s => if generation=0 then none else some (s.files generation).length

/-- `SpooledLogSource::open`. -/
def openSource : Reads SourceSpool SpooledLogSource := do
  let status ← look SourceSpool.status
  let inner ← openSpoolFile status.generation
  return ⟨status.generation,inner,min (inner.getD 0) status.committedSize,false⟩

/-- The generation changes, and with it the file; truncation is latched. -/
def adoptGeneration (src : SpooledLogSource) (generation : ℕ) : Reads SourceSpool SpooledLogSource := do
  if generation=src.generation then return src
  let inner ← openSpoolFile generation
  return ⟨generation,inner,0,true⟩

/-- The local source looks at its file again. -/
def refreshInner (src : SpooledLogSource) : Reads SourceSpool SpooledLogSource :=
  match src.inner with
  | none => return src
  | some _ => look fun s => {src with inner := some (s.files src.generation).length}

def refreshSize (src : SpooledLogSource) : Reads SourceSpool SpooledLogSource := do
  let status ← look SourceSpool.status
  let src ← src.adoptGeneration status.generation
  let src ← src.refreshInner
  let visible := min (src.inner.getD 0) status.committedSize
  return {src with size := visible,truncated := src.truncated || decide (visible<src.size)}

/-- What a read returns, the file read through the local source. -/
def bytes (src : SpooledLogSource) (offset length : ℤ) : Reads SourceSpool Bytes :=
  match src.inner with
  | none => return []
  | some inner =>
    if offset<0 ∨ length≤0 ∨ (src.size : ℤ)≤offset then return [] else
      look fun s => bytesAt ((s.files src.generation).take inner) offset.toNat (min length (src.size-offset)).toNat

def wasReplaced (src : SpooledLogSource) : Reads SourceSpool Bool :=
  look fun s => decide (s.status.generation≠src.generation)

def originVanished : Reads SourceSpool Bool := look fun s => decide (s.status.state=.waiting)

/-- Nothing is committed and it is on its way, or was refused. -/
def notReadyYet : Reads SourceSpool Bool :=
  look fun s =>
    if 0<s.status.committedSize then false else
      match s.status.state with
      | .idle | .connecting | .priming | .error => true
      | .live | .complete | .disconnected | .waiting => false

def isDelivering : Reads SourceSpool Bool :=
  look fun s =>
    match s.status.state with
    | .live | .complete => true
    | .waiting | .error | .idle | .connecting | .priming | .disconnected => false

def isComplete : Reads SourceSpool Bool := look fun s => decide (s.status.state=.complete)

/-- What is left of the source's bytes is what its generation has committed. -/
structure Serves (s : SourceSpool) (src : SpooledLogSource) : Prop where
  generation : src.generation ≤ s.generation
  inner : ∀n∈src.inner,n≤(s.files src.generation).length
  size : src.size ≤ src.inner.getD 0
  committed : src.size ≤ s.committed src.generation

variable {s t : SourceSpool} {src src' : SpooledLogSource} {seen : List SourceSpool}

theorem Serves.later (h : Serves s src) (hl : SourceSpool.Later s t) : Serves t src where
  generation := h.generation.trans hl.grown.generation
  inner := fun n hn => (h.inner n hn).trans (hl.grown.files _ h.generation).length_le
  size := h.size
  committed := h.committed.trans (hl.grown.committed _ h.generation)

/-- The file is as long as what the source reports. -/
theorem Serves.fits (h : Serves s src) : src.size≤(s.files src.generation).length := by
  have hsize := h.size
  cases hi : src.inner with
  | none =>
    rw [hi,Option.getD_none] at hsize
    omega
  | some n =>
    rw [hi,Option.getD_some] at hsize
    exact hsize.trans (h.inner n (by simp [hi]))

private theorem runs_bind {α β : Type} {p : Reads SourceSpool α} {f : α→Reads SourceSpool β} {b : β} :
    (p.bind f).Runs SourceSpool.Later s seen b t↔∃a m seen₁ seen₂,p.Runs SourceSpool.Later s seen₁ a m ∧
      (f a).Runs SourceSpool.Later m seen₂ b t ∧ seen=seen₁++seen₂ :=
  Reads.runs_bind (fun _ _ _ h h' => h.trans h') fun _ => .refl

/-- An opened source serves what is committed, and has no truncation to tell. -/
theorem openSource_serves (h : openSource.Runs SourceSpool.Later s seen src t) : Serves t src ∧
    src.truncated=false := by
  obtain ⟨m,seen₁,hm,-,n,seen₂,hn,-,-,rfl,ht⟩ := h
  have hgen : m.status.generation≤n.generation := hn.grown.generation
  refine ⟨Serves.later ⟨hgen,?_,Nat.min_le_left _ _,?_⟩ ht,rfl⟩
  · intro k hk
    simp only [Option.mem_def] at hk
    split at hk
    · cases hk
    · obtain rfl := Option.some_inj.mp hk
      exact le_rfl
  · exact (Nat.min_le_right _ _).trans (hn.grown.committed _ le_rfl)

/-- What an opened or refreshed source holds, `m` the spool its snapshot was taken of: that
generation's file as it was no earlier, and the size clamped to what was committed then. -/
structure Latched (m t : SourceSpool) (src : SpooledLogSource) : Prop where
  before : SourceSpool.Later m t
  generation : src.generation=m.generation
  size : src.size=min (src.inner.getD 0) (m.committed m.generation)
  inner : ∀n∈src.inner,(m.files m.generation).length≤n ∧ n≤(t.files m.generation).length

theorem Latched.serves {m : SourceSpool} (h : Latched m t src) : Serves t src where
  generation := h.generation ▸ h.before.grown.generation
  inner := fun n hn => h.generation ▸ (h.inner n hn).2
  size := h.size ▸ Nat.min_le_left _ _
  committed := by
    rw [h.size,h.generation]
    exact (Nat.min_le_right _ _).trans (h.before.grown.committed _ le_rfl)

theorem Latched.later {m : SourceSpool} (h : Latched m s src) (hl : SourceSpool.Later s t) : Latched m t src where
  before := h.before.trans hl
  generation := h.generation
  size := h.size
  inner := fun n hn => ⟨(h.inner n hn).1,(h.inner n hn).2.trans
    (hl.grown.files _ h.before.grown.generation).length_le⟩

/-- Where what is committed has landed, the source reports all of it. -/
theorem Latched.size_eq {m : SourceSpool} (h : Latched m t src) (hl : m.Landed)
    (hn : src.inner=none→src.generation=0) :
    src.size=m.committed m.generation := by
  have hsize := h.size
  cases hi : src.inner with
  | none =>
    have hz : m.generation=0 := by
      rw [← h.generation]
      exact hn hi
    rw [hsize,hz,hl.committed_zero]
    exact Nat.min_zero _
  | some n =>
    have hle := (h.inner n hi).1
    have hc := hl.committed m.generation le_rfl
    rw [hi,Option.getD_some] at hsize
    omega

theorem openSource_latched (h : openSource.Runs SourceSpool.Later s seen src t) :
    ∃m rest,seen=m::rest ∧ SourceSpool.Later s m ∧ Latched m t src ∧ (src.inner=none→m.generation=0) := by
  obtain ⟨m,seen₁,hm,rfl,n,seen₂,hn,-,-,rfl,ht⟩ := h
  refine ⟨m,seen₁,rfl,hm,⟨hn.trans ht,rfl,rfl,?_⟩,?_⟩
  · intro k hk
    simp only [Option.mem_def] at hk
    split at hk
    · cases hk
    · obtain rfl := Option.some_inj.mp hk
      exact ⟨(hn.grown.files _ le_rfl).length_le,(ht.grown.files _ hn.grown.generation).length_le⟩
  · intro hnone
    by_contra hz
    have hz' : ¬m.status.generation=0 := hz
    simp [hz'] at hnone

private theorem runs_adoptGeneration {g : ℕ} (h : (src.adoptGeneration g).Runs SourceSpool.Later s seen src' t) :
    SourceSpool.Later s t ∧ ((g=src.generation ∧ src'=src) ∨ (g≠src.generation ∧ src'.generation=g ∧ src'.size=0 ∧
      src'.truncated=true ∧ (src'.inner=none → g=0))) := by
  by_cases hg : g=src.generation
  · have hp : src.adoptGeneration g=.pure src := by simp [adoptGeneration,hg]
    rw [hp] at h
    obtain ⟨-,rfl,ht⟩ := h
    exact ⟨ht,Or.inl ⟨hg,rfl⟩⟩
  · have hp : src.adoptGeneration g=(openSpoolFile g).bind fun inner => .pure ⟨g,inner,0,true⟩ := by
      simp [adoptGeneration,hg]
    rw [hp] at h
    obtain ⟨m,seen₁,hm,-,-,rfl,ht⟩ := h
    refine ⟨hm.trans ht,Or.inr ⟨hg,rfl,rfl,rfl,?_⟩⟩
    intro hnone
    by_contra hz
    simp [hz] at hnone

private theorem runs_refreshInner (h : src.refreshInner.Runs SourceSpool.Later s seen src' t) :
    SourceSpool.Later s t ∧ src'.generation=src.generation ∧ src'.size=src.size ∧ src'.truncated=src.truncated ∧
      (src'.inner=none→src.inner=none) ∧ (src.generation ≤ s.generation→∀n∈src'.inner,
        (s.files src.generation).length≤n ∧ n≤(t.files src.generation).length) := by
  unfold refreshInner at h
  split at h
  · rename_i hnone
    obtain ⟨-,rfl,ht⟩ := h
    refine ⟨ht,rfl,rfl,rfl,fun hn => hn,?_⟩
    intro _ n hn
    simp [hnone] at hn
  · rename_i k hk
    obtain ⟨m,hm,-,rfl,ht⟩ := runs_look h
    refine ⟨hm.trans ht,rfl,rfl,rfl,?_,?_⟩
    · intro hn
      cases hn
    · intro hg n hn
      obtain rfl := Option.some_inj.mp hn
      exact ⟨(hm.grown.files _ hg).length_le,(ht.grown.files _ (hg.trans hm.grown.generation)).length_le⟩

/-- What a refresh does: it takes on the generation it finds published, and latches truncation
where that is another one. -/
theorem refreshSize_latched (h : src.refreshSize.Runs SourceSpool.Later s seen src' t) :
    ∃m rest,seen=m::rest ∧ SourceSpool.Later s m ∧ Latched m t src' ∧
      (m.generation≠src.generation→src'.truncated=true) ∧ (src.truncated=true→src'.truncated=true) ∧
      (m.generation=src.generation→src'.truncated=(src.truncated || decide (src'.size < src.size))) ∧
      (src'.inner=none→(m.generation≠src.generation ∧ m.generation=0) ∨
        (m.generation=src.generation ∧ src.inner=none)) := by
  obtain ⟨m,rest,hm,rfl,h⟩ := h
  obtain ⟨adopted,u,seen₁,seen₂,ha,h,-⟩ := (runs_bind (p:=src.adoptGeneration m.status.generation)).mp h
  obtain ⟨hmu,hadopt⟩ := runs_adoptGeneration ha
  obtain ⟨inner,v,seen₃,seen₄,hi,h,-⟩ := (runs_bind (p:=adopted.refreshInner)).mp h
  obtain ⟨huv,hgen,hsize,htrunc,hnone,hlen⟩ := runs_refreshInner hi
  obtain ⟨-,rfl,ht⟩ := h
  have hag : adopted.generation=m.generation := by
    rcases hadopt with ⟨hg,rfl⟩ | ⟨-,hg,-⟩
    · exact hg.symm
    · exact hg
  rw [hag] at hlen hgen
  have hin := hlen hmu.grown.generation
  refine ⟨m,rest,rfl,hm,⟨hmu.trans (huv.trans ht),hgen,rfl,?_⟩,?_,?_,?_,?_⟩
  · intro n hn
    obtain ⟨h₁,h₂⟩ := hin n hn
    have hmv : SourceSpool.Later m v := hmu.trans huv
    exact ⟨(hmu.grown.files _ le_rfl).length_le.trans h₁,h₂.trans (ht.grown.files _ hmv.grown.generation).length_le⟩
  · intro hne
    rcases hadopt with ⟨hg,-⟩ | ⟨-,-,-,hta,-⟩
    · exact absurd hg hne
    · simp [htrunc,hta]
  · intro hta
    rcases hadopt with ⟨-,rfl⟩ | ⟨-,-,-,hta',-⟩
    · simp [htrunc,hta]
    · simp [htrunc,hta']
  · intro hg
    rcases hadopt with ⟨-,rfl⟩ | ⟨hne,-⟩
    · rw [htrunc,hsize]
    · exact absurd hg hne
  · intro hn
    rcases hadopt with ⟨hg,rfl⟩ | ⟨hne,-,-,-,hz⟩
    · exact Or.inr ⟨hg,hnone hn⟩
    · exact Or.inl ⟨hne,hz (hnone hn)⟩

/-- What is left of a generation only grows: a refresh that finds the same one has no truncation
to latch. -/
theorem refreshSize_grows {m : SourceSpool} {rest : List SourceSpool} (hs : Serves s src)
    (h : src.refreshSize.Runs SourceSpool.Later s (m::rest) src' t) (hg : m.generation=src.generation) :
    src.size ≤ src'.size ∧ src'.truncated=src.truncated := by
  obtain ⟨m',rest',hseen,hm,hl,-,-,hkeep,hnone⟩ := refreshSize_latched h
  obtain rfl : m=m' := (List.cons.inj hseen).1
  have hm' := hs.later hm
  have hfit := hm'.fits
  have hc := hm'.committed
  have hsize := hl.size
  rw [← hg] at hc hfit
  have hle : src.size ≤ src'.size := by
    cases hi : src'.inner with
    | none =>
      rcases hnone hi with ⟨hne,-⟩ | ⟨-,hi'⟩
      · exact absurd hg hne
      · have h0 := hs.size
        rw [hi',Option.getD_none] at h0
        omega
    | some n =>
      rw [hi,Option.getD_some] at hsize
      have hn := (hl.inner n (by simp [hi])).1
      omega
  refine ⟨hle,?_⟩
  rw [hkeep hg]
  simp [hle]

/-- Refreshed, a source still serves. -/
theorem refreshSize_serves (h : src.refreshSize.Runs SourceSpool.Later s seen src' t) : Serves t src' := by
  obtain ⟨m,rest,-,-,hl,-⟩ := refreshSize_latched h
  exact hl.serves

private theorem runs_bytes {offset length : ℤ} {out : Bytes}
    (h : (src.bytes offset length).Runs SourceSpool.Later s seen out t)
    (hout : out≠[]) : 0≤offset ∧ offset<src.size ∧ ∃m n,src.inner=some n ∧ SourceSpool.Later s m ∧
    SourceSpool.Later m t ∧
      out=bytesAt ((m.files src.generation).take n) offset.toNat (min length (src.size-offset)).toNat := by
  unfold bytes at h
  split at h
  · obtain ⟨-,rfl,-⟩ := h
    exact absurd rfl hout
  · rename_i n hn
    split at h
    · obtain ⟨-,rfl,-⟩ := h
      exact absurd rfl hout
    · rename_i hrange
      obtain ⟨m,hm,-,rfl,ht⟩ := runs_look h
      push Not at hrange
      exact ⟨hrange.1,hrange.2.2,m,n,hn,hm,ht,rfl⟩

/-- Each byte of a read stands in the generation's file where it was asked for, below what is
committed there. -/
theorem bytes_committed (hs : Serves s src) {offset length : ℤ} {out : Bytes}
    (h : (src.bytes offset length).Runs SourceSpool.Later s seen out t) {i : ℕ} {b : UInt8} (hb : out[i]?=some b) :
    0≤offset ∧ (t.files src.generation)[offset.toNat+i]?=some b ∧ offset.toNat+i < t.committed src.generation := by
  have hout : out≠[] := by
    rintro rfl
    simp at hb
  obtain ⟨h0,hlt,m,n,-,hm,ht,rfl⟩ := runs_bytes h hout
  have hgen := hs.generation.trans hm.grown.generation
  rw [bytesAt,List.getElem?_take,List.getElem?_drop,List.getElem?_take] at hb
  have hi : i < (min length (src.size-offset)).toNat := by
    by_contra hge
    simp [hge] at hb
  have hn : offset.toNat+i < n := by
    by_contra hge
    simp [hge] at hb
  rw [if_pos hi,if_pos hn] at hb
  have hc := (hs.later (hm.trans ht)).committed
  refine ⟨h0,?_,by omega⟩
  obtain ⟨rest,hrest⟩ := ht.grown.files _ hgen
  rw [← hrest,List.getElem?_append_left (List.getElem?_eq_some_iff.mp hb).1]
  exact hb

/-- A source in use: the fetcher publishes meanwhile, the source is refreshed. -/
inductive Used : SourceSpool→SpooledLogSource→SourceSpool→SpooledLogSource→Prop
  | here {s : SourceSpool} {src : SpooledLogSource} : Used s src s src
  | publish {s t u : SourceSpool} {src src' : SpooledLogSource} (h : Used s src t src')
      (hp : SourceSpool.Later t u) :
      Used s src u src'
  | refresh {s t u : SourceSpool} {src src' src'' : SpooledLogSource} {seen : List SourceSpool}
    (h : Used s src t src')
      (hr : src'.refreshSize.Runs SourceSpool.Later t seen src'' u) : Used s src u src''

theorem Used.serves (h : Used s src t src') (hs : Serves s src) : Serves t src' := by
  induction h with
  | here => exact hs
  | publish _ hp ih => exact (ih hs).later hp
  | refresh _ hr _ => exact refreshSize_serves hr

/-- Truncation, once latched, stays; a source of another generation has it latched. -/
theorem Used.latched (h : Used s src t src') :
    (src.truncated=true→src'.truncated=true) ∧ (src'.generation≠src.generation→src'.truncated=true) := by
  induction h with
  | here => exact ⟨id,fun hne => absurd rfl hne⟩
  | publish _ _ ih => exact ih
  | refresh _ hr ih =>
    rename_i src' src'' _ _
    obtain ⟨m,-,-,-,hl,hnew,hkeep,-⟩ := refreshSize_latched hr
    refine ⟨fun ht => hkeep (ih.1 ht),?_⟩
    intro hne
    by_cases hgen : m.generation=src'.generation
    · apply hkeep
      apply ih.2
      rw [← hgen,← hl.generation]
      exact hne
    · exact hnew hgen

/-- A source reports and serves only what is committed of the generation it adopted; where that
is not the one it had earlier it tells truncation, and where the spool has gone on to another
one it answers that it was replaced. -/
theorem served_committed {s₀ m : SourceSpool} {opened earlier : SpooledLogSource} {seen₀ : List SourceSpool}
    (h₀ : openSource.Runs SourceSpool.Later SourceSpool.initial seen₀ opened s₀) (hm : Used s₀ opened m earlier)
    (h : Used m earlier s src) :
    src.size ≤ s.committed src.generation ∧
      (src.generation≠earlier.generation→src.truncated=true) ∧
      (∀(offset length : ℤ) (seen : List SourceSpool) (out : Bytes) (t : SourceSpool),
        (src.bytes offset length).Runs SourceSpool.Later s seen out t→∀(i : ℕ) (b : UInt8),out[i]?=some b→
          0≤offset ∧ (t.files src.generation)[offset.toNat+i]?=some b ∧
          offset.toNat+i < t.committed src.generation) ∧
      (∀(seen : List SourceSpool) (replaced : Bool) (t : SourceSpool),
        src.wasReplaced.Runs SourceSpool.Later s seen replaced t→s.generation≠src.generation → replaced=true) := by
  have hs : Serves s src := h.serves (hm.serves (openSource_serves h₀).1)
  refine ⟨hs.committed,h.latched.2,?_,?_⟩
  · intro offset length seen out t hr i b hb
    exact bytes_committed hs hr hb
  · intro seen replaced t hr hne
    obtain ⟨n,hn,-,rfl,-⟩ := runs_look hr
    have hle : s.generation≤n.generation := hn.grown.generation
    have hg := hs.generation
    have hne' : n.status.generation≠src.generation := by
      change n.generation≠src.generation
      omega
    simpa using hne'

/-- Opened on two bytes of the first generation, refreshed once the second has one. -/
theorem served_committed_rotated :
    ∃s t : SourceSpool,∃opened src : SpooledLogSource,Used s opened t src ∧ src.generation≠opened.generation ∧
      src.truncated=true ∧ 0 < src.size ∧ src.size ≤ t.committed src.generation := by
  let s := SourceSpool.initial.publish [.beginGeneration,.write [65,66],.commit 2]
  let t := s.publish [.beginGeneration,.write [67],.commit 1]
  have hs : SourceSpool.Later SourceSpool.initial s := SourceSpool.later_publish _ _
  have ht : SourceSpool.Later s t := SourceSpool.later_publish _ _
  have hrefl : ∀s : SourceSpool,SourceSpool.Later s s := fun _ => .refl
  have hopen : openSource.answer [s,s]=some ⟨1,some 2,2,false⟩ := by decide +kernel
  have hrefresh : (⟨1,some 2,2,false⟩ : SpooledLogSource).refreshSize.answer [t,t,t]=some ⟨2,some 1,1,true⟩ := by
    decide +kernel
  have hopened := runs_of_answer hrefl hopen (s:=SourceSpool.initial) (by simp [hs,hrefl])
  have hrefreshed := runs_of_answer hrefl hrefresh (s:=s) (by simp [ht,hrefl])
  have hused : Used s ⟨1,some 2,2,false⟩ t ⟨2,some 1,1,true⟩ := Used.here.refresh hrefreshed
  have hne : (2 : ℕ)≠1 := by decide
  have hserved := served_committed hopened .here hused
  exact ⟨s,t,_,_,hused,hne,hserved.2.1 hne,Nat.one_pos,hserved.1⟩

end SpooledLogSource

end Loftail
