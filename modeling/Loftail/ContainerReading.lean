import Loftail.SpooledLogSource

/-! # An expansion reading its container

The decompressor asks for the container's bytes block by block. Where nothing more is committed, the
expansion waits until the transport has more, or nothing more will come. -/
namespace Loftail

namespace Reads
variable {σ τ α : Type}

/-- A program that looks at a part of the state. -/
def through (f : σ→τ) : Reads τ α→Reads σ α
  | .pure a => .pure a
  | .read k => .read fun s => (k (f s)).through f

theorem Runs.through {later : σ→σ→Prop} {later' : τ→τ→Prop} {f : σ→τ} (hf : ∀s t,later s t → later' (f s) (f t))
    {p : Reads τ α} {s t : σ} {seen : List σ} {a : α} (h : (p.through f).Runs later s seen a t) :
    p.Runs later' (f s) (seen.map f) a (f t) := by
  induction p generalizing s seen with
  | pure b =>
    obtain ⟨rfl,rfl,ht⟩ := h
    exact ⟨rfl,rfl,hf _ _ ht⟩
  | read k ih =>
    obtain ⟨m,seen',hm,rfl,hk⟩ := h
    exact ⟨f m,seen'.map f,hf _ _ hm,rfl,ih (f m) hk⟩

theorem answer_through {f : σ→τ} (p : Reads τ α) (seen : List σ) : (p.through f).answer seen=p.answer
    (seen.map f) := by
  induction p generalizing seen with
  | pure a => cases seen <;> rfl
  | read k ih =>
    cases seen with
    | nil => rfl
    | cons s seen => exact ih (f s) seen

theorem runs_look_bind {β : Type} {later : σ→σ→Prop} {f : σ→α} {k : α→Reads σ β} {s t : σ} {seen : List σ} {b : β} :
    ((look f).bind k).Runs later s seen b t↔
      ∃m seen',later s m ∧ seen=m::seen' ∧ (k (f m)).Runs later m seen' b t := Iff.rfl

end Reads

/-- What an expansion looks at: the spool its container is fetched into, how much the fetcher says there
is to fetch, and whether the expansion was asked to stop. -/
structure Container where
  spool : SourceSpool
  totalSize : ℕ
  stopping : Bool

namespace Container

/-- What others do meanwhile. -/
inductive Move
  | publish (p : SourceSpool.Publish)
  | setTotalSize (size : ℕ)
  | requestStop

def step (c : Container) : Move→Option Container
  | .publish p => (c.spool.step p).map fun s => {c with spool := s}
  | .setTotalSize size => some {c with totalSize := size}
  | .requestStop => some {c with stopping := true}

def Later : Container → Container→Prop := Relation.ReflTransGen fun c d => ∃m,c.step m=some d

/-- Whether nothing more will arrive, as `awaitInput` judges it. -/
def exhausted (c : Container) : Bool :=
  match c.spool.state with
  | .idle | .error | .disconnected | .complete => true
  | .waiting => false
  | .connecting | .priming | .live => decide (0 < c.totalSize ∧ c.totalSize≤c.spool.status.committedSize)

private theorem step_spool {c d : Container} {m : Move} (h : c.step m=some d) :
    SourceSpool.Later c.spool d.spool := by
  cases m with
  | publish p =>
    obtain ⟨s,hs,rfl⟩ := Option.map_eq_some_iff.mp h
    exact .single ⟨p,hs⟩
  | setTotalSize size =>
    obtain rfl := Option.some_inj.mp h
    exact .refl
  | requestStop =>
    obtain rfl := Option.some_inj.mp h
    exact .refl

theorem later_publish {s t : SourceSpool} (h : SourceSpool.Later s t) {size : ℕ} {stopping : Bool} :
    Later ⟨s,size,stopping⟩ ⟨t,size,stopping⟩ := by
  induction h with
  | refl => exact .refl
  | tail _ hs ih =>
    obtain ⟨p,hp⟩ := hs
    exact ih.tail ⟨.publish p,by simp [step,hp]⟩

theorem Later.spool {c d : Container} (h : Later c d) : SourceSpool.Later c.spool d.spool := by
  induction h with
  | refl => exact .refl
  | tail _ hs ih =>
    obtain ⟨m,hm⟩ := hs
    exact ih.trans (step_spool hm)

end Container

/-- The input of a decompressor: the container's source and how far it was read. -/
structure ArchiveStream where
  input : SpooledLogSource
  offset : ℕ
  deriving DecidableEq

def kInputChunk : ℕ := 256*1024

section Code
open Reads Container

/-- The loop of `ArchiveFetcher::awaitInput`, `before` the size at its start; `none` while it goes on
waiting. -/
def awaitFrom (before : ℕ) : ℕ→SpooledLogSource→Reads Container (Option (Bool×SpooledLogSource))
  | 0,_ => return none
  | fuel+1,spooled => do
    if ← look stopping then return some (false,spooled)
    else
      let spooled ← spooled.refreshSize.through spool
      if before < spooled.size then return some (true,spooled)
      else if ← look exhausted then
        let spooled ← spooled.refreshSize.through spool
        return some (decide (before < spooled.size),spooled)
      else awaitFrom before fuel spooled

/-- `ArchiveFetcher::awaitInput`. -/
def awaitInput (fuel : ℕ) (spooled : SpooledLogSource) : Reads Container (Option (Bool×SpooledLogSource)) :=
  awaitFrom spooled.size fuel spooled

/-- The source is looked at again only where it has nothing beyond what was read. -/
def ArchiveStream.refreshInput (d : ArchiveStream) : Reads Container SpooledLogSource :=
  if d.input.size≤d.offset then d.input.refreshSize.through spool else .pure d.input

/-- `readBlock`: the block handed to the decompressor, empty for the end of the input. -/
def readBlock : ℕ→ArchiveStream→Reads Container (Option (Bytes×ArchiveStream))
  | 0,_ => return none
  | fuel+1,d => do
    let input ← d.refreshInput
    if d.offset < input.size then
      let view ← (input.bytes d.offset ↑(min (input.size-d.offset) kInputChunk)).through spool
      return some (view,⟨input,d.offset+view.length⟩)
    else
      match ← awaitInput fuel input with
      | none => return none
      | some (false,input) => return some ([],⟨input,d.offset⟩)
      | some (true,input) => readBlock fuel ⟨input,d.offset⟩

end Code

namespace ArchiveStream
variable {s t : Container} {d d' : ArchiveStream} {handed : Bytes} {seen past : List Container}

/-- What was handed over is the start of the generation that the source has adopted. -/
structure Reading (s : Container) (d : ArchiveStream) (handed : Bytes) : Prop where
  landed : s.spool.Landed
  serves : SpooledLogSource.Serves s.spool d.input
  opened : d.input.inner=none → d.input.generation=0
  within : d.offset ≤ d.input.size
  handed : handed=(s.spool.files d.input.generation).take d.offset

/-- All that was committed at the moment `m` of the source's generation has been handed over. -/
structure CaughtUp (m s : Container) (d : ArchiveStream) : Prop where
  before : Container.Later m s
  generation : m.spool.generation=d.input.generation
  committed : m.spool.committed d.input.generation=d.offset

/-- Once bytes were handed over, the container is not found replaced. -/
def Undisturbed (d : ArchiveStream) (seen : List Container) : Prop :=
  d.offset=0 ∨ ∀u∈seen,u.spool.generation=d.input.generation

theorem Reading.later (h : Reading s d handed) (hl : Container.Later s t) : Reading t d handed where
  landed := hl.spool.landed h.landed
  serves := h.serves.later hl.spool
  opened := h.opened
  within := h.within
  handed := by
    have hfit : d.offset≤(s.spool.files d.input.generation).length := h.within.trans h.serves.fits
    obtain ⟨rest,hrest⟩ := hl.spool.grown.files _ h.serves.generation
    rw [h.handed,← hrest,List.take_append_of_le_length hfit]

theorem CaughtUp.later {m : Container} (h : CaughtUp m s d) (hl : Container.Later s t) : CaughtUp m t d :=
  ⟨h.before.trans hl,h.generation,h.committed⟩

/-- A refresh keeps what was handed over the start of the generation adopted, and shows how much of it
was committed at that moment. -/
theorem Reading.refresh {src : SpooledLogSource} (h : Reading s d handed) (hd : d.Undisturbed seen)
    (hr : (d.input.refreshSize.through Container.spool).Runs Container.Later s seen src t) :
    Reading t ⟨src,d.offset⟩ handed ∧ (d.offset=0 ∨ src.generation=d.input.generation) ∧
      ∃m∈seen,Container.Later s m ∧ Container.Later m t ∧ m.spool.generation=src.generation ∧
        src.size=m.spool.committed src.generation := by
  have hpath := hr.onward fun _ _ _ h h' => h.trans h'
  obtain ⟨u,rest,hseen,-,hl,-,-,-,hnone⟩ := SpooledLogSource.refreshSize_latched (hr.through fun _ _ h => h.spool)
  obtain ⟨m,rest',rfl,rfl,-⟩ := List.map_eq_cons_iff.mp hseen
  obtain ⟨hsm,hmt⟩ := hr.between (fun _ _ _ h h' => h.trans h') List.mem_cons_self
  have hopen : src.inner=none → src.generation=0 := by
    intro hn
    rw [hl.generation]
    rcases hnone hn with ⟨-,hz⟩ | ⟨hg,hn'⟩
    · exact hz
    · rw [hg,h.opened hn']
  have hsize := hl.size_eq (hsm.spool.landed h.landed) hopen
  have ht := h.later hpath
  have hgen : d.offset=0 ∨ src.generation=d.input.generation := by
    rcases hd with h0 | hall
    · exact Or.inl h0
    · exact Or.inr (hl.generation.trans (hall m List.mem_cons_self))
  refine ⟨⟨ht.landed,hl.serves,hopen,?_,?_⟩,hgen,m,List.mem_cons_self,hsm,hmt,hl.generation.symm,?_⟩
  · rcases hgen with h0 | hg
    · simp [h0]
    · have hc := (h.serves.later hsm.spool).committed
      have hw := h.within
      rw [hsize,← hl.generation,hg]
      exact hw.trans hc
  · rcases hgen with h0 | hg
    · simp [ht.handed,h0]
    · rw [ht.handed,hg]
  · rw [hl.generation,hsize]

/-- What one wait ends with. `past` is what the call had seen before. -/
structure Awaited (past seen : List Container) (t : Container) (d' : ArchiveStream) (handed : Bytes)
    (more : Bool) : Prop where
  reading : Reading t d' handed
  ended : more=false→∃m∈past++seen,CaughtUp m t d' ∧
    ∃u∈seen,u.stopping=true ∨ (u.exhausted=true ∧ Container.Later u m)

open Reads in
/-- What was seen before a bind is seen by the whole. -/
theorem runs_container_bind {α β : Type} {p : Reads Container α} {f : α→Reads Container β} {b : β} :
    (p.bind f).Runs Container.Later s seen b t↔∃a m seen₁ seen₂,p.Runs Container.Later s seen₁ a m ∧
      (f a).Runs Container.Later m seen₂ b t ∧ seen=seen₁++seen₂ :=
  Reads.runs_bind (fun _ _ _ h h' => h.trans h') fun _ => .refl

theorem Undisturbed.mono {seen' : List Container} (h : d.Undisturbed seen') (hs : ∀u∈seen,u∈seen') :
    d.Undisturbed seen :=
  h.imp_right fun hall u hu => hall u (hs u hu)

/-- Still undisturbed after a refresh that found the same generation. -/
theorem Undisturbed.refreshed {src : SpooledLogSource} (h : d.Undisturbed seen)
    (hg : d.offset=0 ∨ src.generation=d.input.generation) : Undisturbed ⟨src,d.offset⟩ seen := by
  rcases hg with h0 | hg
  · exact Or.inl h0
  · rcases h with h0 | hall
    · exact Or.inl h0
    · exact Or.inr fun u hu => (hall u hu).trans hg.symm

/-- What was seen up to the next look, and what is seen from it on. -/
theorem mem_looks {α : Type} {past seen rest : List α} {m w z : α} (h : z∈(past++m::seen)++rest) :
    z∈past++m::(seen++w::rest) := by
  simp only [List.mem_append,List.mem_cons] at h ⊢
  tauto

private theorem awaitFrom_awaited {before fuel : ℕ} {spooled spooled' : SpooledLogSource} {offset : ℕ} {more : Bool}
    (h : Reading s ⟨spooled,offset⟩ handed) (hb : before=offset) (hd : Undisturbed ⟨spooled,offset⟩ seen)
    (hp : ∃m∈past,CaughtUp m s ⟨spooled,offset⟩)
    (hr : (awaitFrom before fuel spooled).Runs Container.Later s seen (some (more,spooled')) t) :
    Awaited past seen t ⟨spooled',offset⟩ handed more ∧ (offset=0 ∨ spooled'.generation=spooled.generation) := by
  induction fuel generalizing s spooled seen past with
  | zero => cases hr.2.1
  | succ fuel ih =>
    obtain ⟨m,rest,hm,rfl,hloop⟩ := Reads.runs_look_bind.mp hr
    clear hr
    have hread := h.later hm
    obtain ⟨p,hpast,hcaught⟩ := hp
    by_cases hstop : m.stopping=true
    · rw [if_pos hstop] at hloop
      obtain ⟨rfl,heq,ht⟩ := hloop
      obtain ⟨rfl,rfl⟩ := Prod.mk.inj (Option.some_inj.mp heq)
      refine ⟨⟨hread.later ht,fun _ => ⟨p,?_,(hcaught.later hm).later ht,m,?_,Or.inl hstop⟩⟩,Or.inr rfl⟩
      · simp [hpast]
      · simp
    · rw [if_neg hstop] at hloop
      obtain ⟨src,u,seen₁,seen₂,hrefresh,hr,rfl⟩ := runs_container_bind.mp hloop
      have hd₁ : Undisturbed ⟨spooled,offset⟩ seen₁ := hd.mono fun u hu => by simp [hu]
      obtain ⟨hread₁,hgen,v,hv,hmv,hvu,hvg,hvc⟩ := hread.refresh hd₁ hrefresh
      by_cases hmore : before < src.size
      · rw [if_pos hmore] at hr
        obtain ⟨rfl,heq,ht⟩ := hr
        obtain ⟨rfl,rfl⟩ := Prod.mk.inj (Option.some_inj.mp heq)
        exact ⟨⟨hread₁.later ht,nofun⟩,hgen⟩
      · rw [if_neg hmore] at hr
        have hcaught₁ : CaughtUp v u ⟨src,offset⟩ := by
          have hle : offset ≤ src.size := hread₁.within
          refine ⟨hvu,hvg,?_⟩
          change v.spool.committed src.generation=offset
          omega
        obtain ⟨w,rest,hw,rfl,hnext⟩ := Reads.runs_look_bind.mp hr
        clear hr
        by_cases hex : w.exhausted=true
        · rw [if_pos hex] at hnext
          obtain ⟨src',x,seen₃,seen₄,hrefresh',⟨rfl,heq,hx⟩,rfl⟩ := runs_container_bind.mp hnext
          obtain ⟨rfl,rfl⟩ := Prod.mk.inj (Option.some_inj.mp heq)
          have hd₂ : Undisturbed ⟨spooled,offset⟩ seen₃ := hd.mono fun u hu => by simp [hu]
          obtain ⟨hread₂,hgen₂,y,hy,hwy,hyx,hyg,hyc⟩ := (hread₁.later hw).refresh (hd₂.refreshed hgen) hrefresh'
          refine ⟨⟨hread₂.later hx,?_⟩,?_⟩
          · intro hno
            have hno' : ¬before < src'.size := by simpa using hno
            have hle : offset ≤ src'.size := hread₂.within
            refine ⟨y,by simp [hy],⟨hyx.trans hx,hyg,?_⟩,w,by simp,Or.inr ⟨hex,hwy⟩⟩
            change y.spool.committed src'.generation=offset
            omega
          · rcases hgen₂ with h0 | hg
            · exact Or.inl h0
            · exact hgen.imp_right fun hg' => hg.trans hg'
        · rw [if_neg hex] at hnext
          have hd₂ : Undisturbed ⟨spooled,offset⟩ rest := hd.mono fun u hu => by simp [hu]
          have hpast' : ∃z∈past++(m::seen₁),CaughtUp z w ⟨src,offset⟩ := ⟨v,by simp [hv],hcaught₁.later hw⟩
          obtain ⟨⟨hread₃,hended⟩,hgen₃⟩ := ih (hread₁.later hw) (hd₂.refreshed hgen) hpast' hnext
          refine ⟨⟨hread₃,?_⟩,?_⟩
          · intro hno
            obtain ⟨y,hy,hcy,x,hx,hor⟩ := hended hno
            refine ⟨y,?_,hcy,x,?_,hor⟩
            · exact mem_looks hy
            · exact List.mem_cons_of_mem _ (List.mem_append_right _ (List.mem_cons_of_mem _ hx))
          · rcases hgen₃ with h0 | hg
            · exact Or.inl h0
            · exact hgen.imp_right fun hg' => hg.trans hg'

/-- What one read of a block ends with. -/
structure BlockRead (d : ArchiveStream) (seen : List Container) (t : Container) (d' : ArchiveStream)
    (handed block : Bytes) :
    Prop where
  reading : Reading t d' (handed++block)
  ended : block=[]→∃m∈seen,CaughtUp m t d' ∧ ∃u∈seen,u.stopping=true ∨ (u.exhausted=true ∧ Container.Later u m)
  generation : d.offset=0 ∨ d'.input.generation=d.input.generation

/-- A read within the size of the source gives the bytes that stand there. -/
theorem Reading.bytes {view : Bytes} {want : ℕ} (h : Reading s d handed) (hw : want≤d.input.size-d.offset)
    (hr : ((d.input.bytes d.offset want).through Container.spool).Runs Container.Later s seen view t) :
    view=((t.spool.files d.input.generation).drop d.offset).take want := by
  have hrun := hr.through fun _ _ h => Container.Later.spool h
  have hsize := h.serves.size
  rw [SpooledLogSource.bytes] at hrun
  split at hrun
  · rename_i hnone
    obtain ⟨-,rfl,-⟩ := hrun
    rw [hnone,Option.getD_none] at hsize
    have hzero : want=0 := by omega
    simp [hzero]
  · rename_i n hsome
    rw [hsome,Option.getD_some] at hsize
    split at hrun
    · rename_i hout
      obtain ⟨-,rfl,-⟩ := hrun
      have hzero : want=0 := by omega
      simp [hzero]
    · obtain ⟨m,hm,-,rfl,ht⟩ := Reads.runs_look hrun
      obtain ⟨rest,hrest⟩ := ht.grown.files _ (h.serves.later hm).generation
      have hfit := (h.serves.later hm).fits
      have hlen : (min (want : ℤ) (d.input.size-d.offset)).toNat=want := by omega
      have hwithin := h.within
      rw [bytesAt,hlen,Int.toNat_natCast,← hrest,List.drop_append_of_le_length (by omega),
        List.take_append_of_le_length (by rw [List.length_drop]; omega),List.drop_take,List.take_take]
      congr 1
      omega

/-- The bytes that stand where the reader is extend what was handed over. -/
theorem Reading.extend {view : Bytes} {want : ℕ} (h : Reading s d handed)
    (hv : view=((s.spool.files d.input.generation).drop d.offset).take want) (hw : want≤d.input.size-d.offset) :
    Reading s ⟨d.input,d.offset+view.length⟩ (handed++view) where
  landed := h.landed
  serves := h.serves
  opened := h.opened
  within := by
    have hlen : view.length≤want := hv ▸ List.length_take_le _ _
    have hwithin := h.within
    change d.offset+view.length ≤ d.input.size
    omega
  handed := by
    have hlen : view=((s.spool.files d.input.generation).drop d.offset).take view.length :=
      List.prefix_iff_eq_take.mp (hv ▸ List.take_prefix _ _)
    rw [List.take_add,← hlen,h.handed]

private theorem Reading.view_ne {view : Bytes} (h : Reading s d handed)
    (hv : view=((s.spool.files d.input.generation).drop d.offset).take (min (d.input.size-d.offset) kInputChunk))
    (hlt : d.offset < d.input.size) : view≠[] := by
  have hfit := h.serves.fits
  have hpos : 0 < kInputChunk := by decide
  intro hnil
  have hlen := congrArg List.length (hv.symm.trans hnil)
  rw [List.length_take,List.length_drop,List.length_nil] at hlen
  omega

/-- What the reader has after its first look, if it took one. -/
theorem Reading.refreshInput {input : SpooledLogSource} (h : Reading s d handed) (hd : d.Undisturbed seen)
    (hr : d.refreshInput.Runs Container.Later s seen input t) :
    Reading t ⟨input,d.offset⟩ handed ∧ (d.offset=0 ∨ input.generation=d.input.generation) ∧
      (input.size≤d.offset→∃m∈seen,CaughtUp m t ⟨input,d.offset⟩) := by
  rw [ArchiveStream.refreshInput] at hr
  split at hr
  · obtain ⟨hread,hgen,m,hm,-,hmt,hmg,hmc⟩ := h.refresh hd hr
    refine ⟨hread,hgen,fun hle => ⟨m,hm,hmt,hmg,?_⟩⟩
    have hw : d.offset ≤ input.size := hread.within
    change m.spool.committed input.generation=d.offset
    omega
  · rename_i hlt
    obtain ⟨rfl,rfl,ht⟩ := hr
    exact ⟨h.later ht,Or.inr rfl,fun hle => absurd hle hlt⟩

theorem readBlock_read {fuel : ℕ} {block : Bytes} (h : Reading s d handed) (hd : d.Undisturbed seen)
    (hr : (readBlock fuel d).Runs Container.Later s seen (some (block,d')) t) :
    BlockRead d seen t d' handed block := by
  induction fuel generalizing s d seen with
  | zero => cases hr.2.1
  | succ fuel ih =>
    obtain ⟨input,m,seen₁,seen₂,hfirst,hrest,rfl⟩ := runs_container_bind.mp hr
    clear hr
    have hd₁ : d.Undisturbed seen₁ := hd.mono fun u hu => by simp [hu]
    -- what the reader has after its first look, if it took one
    obtain ⟨hread,hgen,hcaught⟩ := h.refreshInput hd₁ hfirst
    by_cases hmore : d.offset < input.size
    · rw [if_pos hmore] at hrest
      obtain ⟨view,u,seen₃,seen₄,hview,⟨rfl,heq,hu⟩,rfl⟩ := runs_container_bind.mp hrest
      obtain ⟨rfl,rfl⟩ := Prod.mk.inj (Option.some_inj.mp heq)
      have hwant : min (input.size-d.offset) kInputChunk ≤ input.size-d.offset := Nat.min_le_left _ _
      have hbytes := hread.bytes hwant hview
      have hread' := hread.later (hview.onward fun _ _ _ h h' => h.trans h')
      exact ⟨(hread'.extend hbytes hwant).later hu,fun hnil => absurd hnil (hread'.view_ne hbytes hmore),hgen⟩
    · rw [if_neg hmore] at hrest
      obtain ⟨awaited,u,seen₃,seen₄,hawait,hrest,rfl⟩ := runs_container_bind.mp hrest
      have hsize : input.size=d.offset := by
        have hw : d.offset ≤ input.size := hread.within
        omega
      have hd₃ : Undisturbed ⟨input,d.offset⟩ seen₃ := (hd.mono fun u hu => by simp [hu]).refreshed hgen
      cases awaited with
      | none => cases hrest.2.1
      | some awaited =>
        obtain ⟨more,input'⟩ := awaited
        obtain ⟨⟨hread',hended⟩,hgen'⟩ := awaitFrom_awaited hread hsize hd₃ (hcaught hsize.le) hawait
        have hgen'' : d.offset=0 ∨ input'.generation=d.input.generation := by
          rcases hgen' with h0 | hg
          · exact Or.inl h0
          · exact hgen.imp_right fun hg' => hg.trans hg'
        cases more with
        | false =>
          obtain ⟨rfl,heq,ht⟩ := hrest
          obtain ⟨rfl,rfl⟩ := Prod.mk.inj (Option.some_inj.mp heq)
          refine ⟨?_,?_,hgen''⟩
          · rw [List.append_nil]
            exact hread'.later ht
          · intro hnil
            obtain ⟨z,hz,hcz,x,hx,hor⟩ := hended rfl
            exact ⟨z,by simpa using hz,hcz.later ht,x,by simp [hx],hor⟩
        | true =>
          have hd₄ : d.Undisturbed seen₄ := hd.mono fun u hu => by simp [hu]
          obtain ⟨hread'',hended',hgen₃⟩ := ih hread' (hd₄.refreshed hgen'') hrest
          refine ⟨hread'',?_,?_⟩
          · intro hnil
            obtain ⟨z,hz,hcz,x,hx,hor⟩ := hended' hnil
            exact ⟨z,by simp [hz],hcz,x,by simp [hx],hor⟩
          · rcases hgen₃ with h0 | hg
            · exact Or.inl h0
            · exact hgen''.imp_right fun hg' => hg.trans hg'

/-- One call of `readBlock`: the reader before it, what the call saw, the block handed over. -/
structure Call where
  before : ArchiveStream
  seen : List Container
  block : Bytes

/-- What the decompressor was handed, in order. -/
def handedOver (calls : List Call) : Bytes := calls.flatMap Call.block

/-- An expansion as far as it read its container: the calls of `readBlock`, others at work between them
and in them. -/
inductive Expands (s₀ : Container) (d₀ : ArchiveStream) : List Call → Container→ArchiveStream→Prop
  | start : Expands s₀ d₀ [] s₀ d₀
  | meanwhile {calls : List Call} {s t : Container} {d : ArchiveStream} (h : Expands s₀ d₀ calls s d)
      (hl : Container.Later s t) : Expands s₀ d₀ calls t d
  | read {calls : List Call} {s t : Container} {d d' : ArchiveStream} {fuel : ℕ} {seen : List Container}
    {block : Bytes}
      (h : Expands s₀ d₀ calls s d) (hr : (readBlock fuel d).Runs Container.Later s seen (some (block,d')) t) :
      Expands s₀ d₀ (calls++[⟨d,seen,block⟩]) t d'

/-- The container's source as an expansion begins with it: opened and refreshed while the fetcher was at
work. -/
def Opened (s : Container) (d : ArchiveStream) : Prop :=
  d.offset=0 ∧ ∃(m : SourceSpool) (opened : SpooledLogSource) (seen : List SourceSpool),
    SpooledLogSource.openSource.Runs SourceSpool.Later SourceSpool.initial seen opened m ∧
      SpooledLogSource.Used m opened s.spool d.input

private theorem used_later {m n : SourceSpool} {src src' : SpooledLogSource}
    (h : SpooledLogSource.Used m src n src') :
    SourceSpool.Later m n := by
  induction h with
  | here => exact .refl
  | publish _ hp ih => exact ih.trans hp
  | refresh _ hr ih => exact ih.trans (hr.onward fun _ _ _ h h' => h.trans h')

/-- Only before the first generation is there no file to read. -/
theorem used_inner {m n : SourceSpool} {src src' : SpooledLogSource} (h : SpooledLogSource.Used m src n src')
    (ho : src.inner=none → src.generation=0) : src'.inner=none → src'.generation=0 := by
  induction h with
  | here => exact ho
  | publish _ _ ih => exact ih ho
  | refresh _ hr ih =>
    obtain ⟨u,-,-,-,hl,-,-,-,hnone⟩ := SpooledLogSource.refreshSize_latched hr
    intro hn
    rw [hl.generation]
    rcases hnone hn with ⟨-,hz⟩ | ⟨hg,hn'⟩
    · exact hz
    · exact hg.trans (ih ho hn')

theorem Opened.reading (h : Opened s d) : Reading s d [] := by
  obtain ⟨h0,m,opened,seen,ho,hu⟩ := h
  obtain ⟨u,rest,-,hu₀,hl,hnone⟩ := SpooledLogSource.openSource_latched ho
  have hlanded : m.Landed := SourceSpool.Later.landed (hu₀.trans hl.before) SourceSpool.landed_initial
  refine ⟨(used_later hu).landed hlanded,hu.serves hl.serves,used_inner hu ?_,?_,?_⟩
  · exact fun hn => hl.generation.trans (hnone hn)
  · simp [h0]
  · simp [h0]

private theorem handedOver_snoc (calls : List Call) (c : Call) : handedOver
    (calls++[c])=handedOver calls++c.block := by
  simp [handedOver]

/-- What was handed over is all that the generation had committed at that moment. -/
theorem CaughtUp.all {m : Container} (h : CaughtUp m t d) (hr : Reading t d handed) (hm : m.spool.Landed) :
    handed=(m.spool.files m.spool.generation).take (m.spool.committed m.spool.generation) := by
  have hfit := hm.committed m.spool.generation le_rfl
  obtain ⟨rest,hrest⟩ := h.before.spool.grown.files m.spool.generation le_rfl
  rw [hr.handed,← h.committed,← h.generation,← hrest,List.take_append_of_le_length hfit]

theorem Expands.reading {s₀ : Container} {d₀ : ArchiveStream} {calls : List Call} (h : Expands s₀ d₀ calls s d)
    (ho : Opened s₀ d₀) (hc : ∀c∈calls,c.before.Undisturbed c.seen) : Reading s d (handedOver calls) := by
  induction h with
  | start => exact ho.reading
  | meanwhile _ hl ih => exact (ih hc).later hl
  | read _ hr ih =>
    have hread := ih fun c hm => hc c (List.mem_append_left _ hm)
    rw [handedOver_snoc]
    exact (readBlock_read hread (hc _ (List.mem_append_right _ List.mem_cons_self)) hr).reading

/-- The state that a call of a run was made in, and what it led to. -/
theorem Expands.call {s₀ : Container} {d₀ : ArchiveStream} {calls past rest : List Call} {c : Call}
    (h : Expands s₀ d₀ calls s d) (hcalls : calls=past++c::rest) :
    ∃(m n : Container) (d' : ArchiveStream) (fuel : ℕ),Expands s₀ d₀ past m c.before ∧
      (readBlock fuel c.before).Runs Container.Later m c.seen (some (c.block,d')) n ∧ Container.Later n s := by
  induction h generalizing rest with
  | start => simp at hcalls
  | meanwhile _ hl ih =>
    obtain ⟨m,n,d',fuel,hm,hr,hn⟩ := ih hcalls
    exact ⟨m,n,d',fuel,hm,hr,hn.trans hl⟩
  | read hrun hr ih =>
    rcases List.eq_nil_or_concat rest with rfl | ⟨rest',last,rfl⟩
    · obtain ⟨rfl,hlast⟩ := List.append_inj' hcalls rfl
      obtain rfl := (List.cons.inj hlast).1
      exact ⟨_,_,_,_,hrun,hr,.refl⟩
    · rw [List.concat_eq_append,← List.cons_append,← List.append_assoc] at hcalls
      obtain ⟨m,n,d',fuel,hm,hr',hn⟩ := ih (List.append_inj' hcalls rfl).1
      exact ⟨m,n,d',fuel,hm,hr',hn.trans (hr.onward fun _ _ _ h h' => h.trans h')⟩

/-- A call that is told the end had been handed all that was committed at a moment of it. -/
theorem Expands.ended {s₀ : Container} {d₀ : ArchiveStream} {calls past rest : List Call} {c : Call}
    (h : Expands s₀ d₀ calls s d) (ho : Opened s₀ d₀) (hc : ∀c∈calls,c.before.Undisturbed c.seen)
    (hcalls : calls=past++c::rest) (hnil : c.block=[]) :
    ∃m∈c.seen,handedOver past=(m.spool.files m.spool.generation).take (m.spool.committed m.spool.generation) ∧
      Container.Later m s ∧ m.spool.committed m.spool.generation≤(handedOver past).length ∧
        ∃u∈c.seen,u.stopping=true ∨ (u.exhausted=true ∧ Container.Later u m) := by
  obtain ⟨n₀,n,d',fuel,hpast,hr,hn⟩ := h.call hcalls
  subst hcalls
  have hread := hpast.reading ho fun x hx => hc x (by simp [hx])
  have hblock := readBlock_read hread (hc c (by simp)) hr
  obtain ⟨m,hm,hcm,hu⟩ := hblock.ended hnil
  have hlanded := (hr.between (fun _ _ _ h h' => h.trans h') hm).1.spool.landed hread.landed
  have hall := hcm.all hblock.reading hlanded
  have hfit := hlanded.committed m.spool.generation le_rfl
  rw [hnil,List.append_nil] at hall
  refine ⟨m,hm,hall,hcm.before.trans hn,?_,hu⟩
  rw [hall,List.length_take]
  omega

/-- Where the container is not found replaced once bytes were handed over, the decompressor reads the
start of one generation, and is told the end only when it had all that was committed of it: at a moment
of that call after which the fetcher was found to have no more, unless the expansion was stopped. -/
theorem one_generation {s₀ : Container} {d₀ : ArchiveStream} {calls : List Call} (ho : Opened s₀ d₀)
    (h : Expands s₀ d₀ calls s d) (hc : ∀c∈calls,c.before.Undisturbed c.seen) :
    handedOver calls<+:(s.spool.files d.input.generation).take (s.spool.committed d.input.generation) ∧
      ∀(past : List Call) (c : Call) (rest : List Call),calls=past++c::rest → c.block=[] →
        ∃m∈c.seen,handedOver past=(m.spool.files m.spool.generation).take (m.spool.committed m.spool.generation) ∧
          ∃u∈c.seen,u.stopping=true ∨ (u.exhausted=true ∧ Container.Later u m) := by
  constructor
  · have hread := h.reading ho hc
    have hle : d.offset ≤ s.spool.committed d.input.generation := hread.within.trans hread.serves.committed
    rw [hread.handed]
    exact List.take_prefix_take_left hle
  · intro past c rest hcalls hnil
    obtain ⟨m,hm,hall,-,-,hu⟩ := h.ended ho hc hcalls hnil
    exact ⟨m,hm,hall,hu⟩

/-- Two bytes are read; then the transport is disconnected, and the end is told. -/
theorem one_generation_disconnected :
    ∃(calls : List Call) (s : Container) (g : ℕ),handedOver calls=[1,2] ∧ handedOver calls<+:(s.spool.files g).take
      (s.spool.committed g) ∧ ∃m : Container,m.exhausted=true ∧
        handedOver calls=(m.spool.files m.spool.generation).take (m.spool.committed m.spool.generation) := by
  let a : SourceSpool := SourceSpool.initial.publish [.setState .live,.beginGeneration,.write [1,2],.commit 2]
  let b : SourceSpool := a.publish [.setState .disconnected]
  have ha : SourceSpool.Later SourceSpool.initial a := SourceSpool.later_publish _ _
  have hab : SourceSpool.Later a b := SourceSpool.later_publish _ _
  have hrefl : ∀s : SourceSpool,SourceSpool.Later s s := fun _ => .refl
  have hopen : SpooledLogSource.openSource.answer [a,a]=some ⟨1,some 2,2,false⟩ := by decide +kernel
  have hopened := Reads.runs_of_answer hrefl hopen (s:=SourceSpool.initial) (by simp [ha,hrefl])
  let u : Container := ⟨a,2,false⟩
  let v : Container := ⟨b,2,false⟩
  have huv : Container.Later u v := Container.later_publish hab
  have hfirst : (readBlock 1 ⟨⟨1,some 2,2,false⟩,0⟩).answer [u]=some (some ([1,2],⟨⟨1,some 2,2,false⟩,2⟩)) := by
    decide +kernel
  have hsecond : (readBlock 2 ⟨⟨1,some 2,2,false⟩,2⟩).answer [v,v,v,v,v,v,v,v]=
      some (some ([],⟨⟨1,some 2,2,false⟩,2⟩)) := by decide +kernel
  have hrefl' : ∀s : Container,Container.Later s s := fun _ => .refl
  have hread₁ := Reads.runs_of_answer hrefl' hfirst (s:=u) (by simp [hrefl'])
  have hread₂ := Reads.runs_of_answer hrefl' hsecond (s:=u) (by simp [huv,hrefl'])
  have ho : Opened u ⟨⟨1,some 2,2,false⟩,0⟩ := ⟨rfl,a,_,_,hopened,.here⟩
  have hread := one_generation ho ((Expands.start.read hread₁).read hread₂) (by
      intro c hc
      simp only [List.nil_append,List.mem_append,List.mem_singleton] at hc
      rcases hc with rfl | rfl
      · exact Or.inl rfl
      · refine Or.inr fun w hw => ?_
        simp only [List.mem_cons,or_self,List.not_mem_nil,or_false] at hw
        rw [hw]
        rfl)
  obtain ⟨m,hm,hall,-⟩ := hread.2 [_] _ [] rfl rfl
  have hmv : m=v := by simpa using hm
  exact ⟨_,_,_,rfl,hread.1,m,hmv ▸ rfl,hall⟩

/-- A container of two bytes read to their end, then replaced by one of three: of these the reader takes
the last one. -/
theorem head_and_tail_mixed :
    ¬∀(s₀ : Container) (d₀ : ArchiveStream) (calls : List Call) (s : Container) (d : ArchiveStream),Opened s₀ d₀ →
      Expands s₀ d₀ calls s d→∃g,handedOver calls<+:s.spool.files g := by
  intro h
  let a : SourceSpool := SourceSpool.initial.publish [.setState .live,.beginGeneration,.write [1,2],.commit 2]
  let b : SourceSpool := a.publish [.beginGeneration,.write [7,8,9],.commit 3]
  have ha : SourceSpool.Later SourceSpool.initial a := SourceSpool.later_publish _ _
  have hab : SourceSpool.Later a b := SourceSpool.later_publish _ _
  have hrefl : ∀s : SourceSpool,SourceSpool.Later s s := fun _ => .refl
  have hopen : SpooledLogSource.openSource.answer [a,a]=some ⟨1,some 2,2,false⟩ := by decide +kernel
  have hopened := Reads.runs_of_answer hrefl hopen (s:=SourceSpool.initial) (by simp [ha,hrefl])
  let u : Container := ⟨a,3,false⟩
  let v : Container := ⟨b,3,false⟩
  have huv : Container.Later u v := Container.later_publish hab
  have hfirst : (readBlock 1 ⟨⟨1,some 2,2,false⟩,0⟩).answer [u]=some (some ([1,2],⟨⟨1,some 2,2,false⟩,2⟩)) := by
    decide +kernel
  have hsecond : (readBlock 1 ⟨⟨1,some 2,2,false⟩,2⟩).answer [v,v,v,v]=some (some ([9],⟨⟨2,some 3,3,true⟩,3⟩)) := by
    decide +kernel
  have hrefl' : ∀s : Container,Container.Later s s := fun _ => .refl
  have hread₁ := Reads.runs_of_answer hrefl' hfirst (s:=u) (by simp [hrefl'])
  have hread₂ := Reads.runs_of_answer hrefl' hsecond (s:=u) (by simp [huv,hrefl'])
  obtain ⟨g,hg⟩ := h u ⟨⟨1,some 2,2,false⟩,0⟩ _ _ _ ⟨rfl,a,_,_,hopened,.here⟩
    ((Expands.start.read hread₁).read hread₂)
  change ([1,2,9] : Bytes)<+:b.files g at hg
  match g with
  | 0 => exact absurd hg (by decide)
  | 1 => exact absurd hg (by decide)
  | 2 => exact absurd hg (by decide)
  | n+3 => exact absurd hg (by simp [b,a,SourceSpool.publish,SourceSpool.step,SourceSpool.initial])

end ArchiveStream

end Loftail
