import Loftail.ArchiveExpansion

/-! # When a finished expansion holds the whole member

The worker runs while the container's fetcher goes on and the expansion may be asked to stop. -/
namespace Loftail
open ArchiveStream

/-- An expansion under way. `calls` is what `readBlock` was asked and answered; no code reads it. -/
structure Expansion (S : Type) where
  container : Container
  stream : ArchiveStream
  member : Option S
  calls : List ArchiveStream.Call
  status : ArchiveFetcher.Status
  files : ℕ→Bytes

namespace Expansion
variable {S : Type}

/-- `ArchiveFetcher::requestStop`. -/
def requestStop (s : Expansion S) : Expansion S :=
  if s.container.stopping then s
  else {s with container := {s.container with stopping := true}
               status := if s.status.state=.complete then s.status else {s.status with state := .disconnected}}

/-- What others do: the container's fetcher moves, the expansion is asked to stop. -/
inductive Meanwhile : Expansion S→Expansion S→Prop
  | publish {s : Expansion S} {p : SourceSpool.Publish} {c : Container} (h : s.container.step (.publish p)=some c) :
      Meanwhile s {s with container := c}
  | setTotalSize {s : Expansion S} {size : ℕ} {c : Container} (h : s.container.step (.setTotalSize size)=some c) :
      Meanwhile s {s with container := c}
  | requestStop {s : Expansion S} : Meanwhile s s.requestStop

def Later : Expansion S→Expansion S→Prop := Relation.ReflTransGen Meanwhile

/-- One `readBlock` of the decompressor. -/
def Asks (s : Expansion S) (_ : Unit) (block : Bytes) (t : Expansion S) : Prop :=
  ∃(fuel : ℕ) (seen : List (Expansion S)) (d : ArchiveStream) (m : Expansion S),
    ((readBlock fuel s.stream).through container).Runs Later s seen (some (block,d)) m ∧
      t={m with stream := d,calls := m.calls++[⟨s.stream,seen.map container,block⟩]}

/-- What an operation of the worker does and is answered. -/
def Performs (codec : Codec S) (s : Expansion S) : (o : ArchiveFetcher.ExpandOp)→ArchiveFetcher.Answer o →
    Expansion S→Prop
  | .stopping,stop,t => stop=s.container.stopping ∧ t=s
  | .openStream allowRaw,refused,t => ∃r m,(codec.openStream allowRaw).Runs Asks s r m ∧
      match r with
      | .ok member => refused=none ∧ t={m with member := some member}
      | .error e => refused=some e ∧ t={m with member := none}
  | .seekToMember name,refused,t => ∃member∈s.member,∃r m,(codec.seekToMember member name).Runs Asks s r m ∧
      refused=r.1 ∧ t={m with member := some r.2}
  | .openNested,refused,t => ∃member∈s.member,∃r m,(codec.openNested member).Runs Asks s r m ∧
      match r with
      | .ok member => refused=none ∧ t={m with member := some member}
      | .error e => refused=some e ∧ t={m with member := none}
  | .currentSize,size,t => ∃member∈s.member,size=codec.currentSize member ∧ t=s
  | .inputSize,size,t => size=s.stream.input.size ∧ t=s
  | .bytesAvailable,_,t => t=s
  | .createSpool g,true,t => t={s with files := Function.update s.files g []}
  | .createSpool _,false,t => t=s
  | .openSpool _,_,t => t=s
  | .append g bytes,.landed,t => t={s with files := Function.update s.files g (s.files g++bytes)}
  | .append g bytes,_,t => ∃part,part<+:bytes ∧ t={s with files := Function.update s.files g (s.files g++part)}
  | .read want,got,t => ∃member∈s.member,∃r m,(codec.read member want).Runs Asks s r m ∧ got=r.1 ∧
    t={m with member := some r.2}
  | .resetStream,_,t => t={s with member := none}
  | .publish f,found,t => found=s.status ∧ t={s with status := f s.status}

/-- An operation of the worker, others at work before it. -/
def Step (codec : Codec S) (s : Expansion S) (o : ArchiveFetcher.ExpandOp) (x : ArchiveFetcher.Answer o)
    (t : Expansion S) :
    Prop :=
  ∃m,Later s m ∧ Performs codec m o x t

/-- An expansion that begins: its container opened, nothing asked of it. -/
structure Begins (s : Expansion S) : Prop where
  opened : Opened s.container s.stream
  calls : s.calls=[]
  state : s.status.state≠.complete

/-- A call that found its container neither replaced nor its fetcher ended with less than it had said
there was. -/
def WholeInput (c : ArchiveStream.Call) : Prop :=
  ∀u∈c.seen,u.spool.generation=c.before.input.generation ∧
    (u.spool.state∈[FetchState.idle,.error,.disconnected,.complete]→u.totalSize≤u.spool.status.committedSize)

variable {codec : Codec S} {s t : Expansion S}

theorem Meanwhile.container (h : Meanwhile s t) : Container.Later s.container t.container := by
  cases h with
  | publish h => exact .single ⟨_,h⟩
  | setTotalSize h => exact .single ⟨_,h⟩
  | requestStop =>
    rw [Expansion.requestStop]
    split
    · exact .refl
    · exact .single ⟨.requestStop,rfl⟩

theorem Later.container (h : Later s t) : Container.Later s.container t.container := by
  induction h with
  | refl => exact .refl
  | tail _ hs ih => exact ih.trans hs.container

/-- What was written and published stands, but for a disconnection. -/
structure Quiet (s t : Expansion S) : Prop where
  files : t.files=s.files
  status : t.status=s.status ∨ (s.status.state≠.complete ∧ t.status={s.status with state := .disconnected})

theorem Quiet.refl (s : Expansion S) : Quiet s s := ⟨rfl,Or.inl rfl⟩

theorem Quiet.trans {u : Expansion S} (h : Quiet s t) (h' : Quiet t u) : Quiet s u where
  files := h'.files.trans h.files
  status := by
    rcases h.status with hst | ⟨hne,hst⟩
    · rcases h'.status with hst' | ⟨hne',hst'⟩
      · exact Or.inl (hst'.trans hst)
      · rw [hst] at hne' hst'
        exact Or.inr ⟨hne',hst'⟩
    · rcases h'.status with hst' | ⟨-,hst'⟩
      · exact Or.inr ⟨hne,hst'.trans hst⟩
      · refine Or.inr ⟨hne,?_⟩
        rw [hst',hst]

theorem Quiet.complete (h : Quiet s t) : t.status.state=.complete↔s.status.state=.complete := by
  rcases h.status with hst | ⟨hne,hst⟩
  · rw [hst]
  · simp [hst,hne]

theorem Quiet.sizes (h : Quiet s t) : t.status.generation=s.status.generation ∧
    t.status.committedSize=s.status.committedSize := by
  rcases h.status with hst | ⟨-,hst⟩
  · rw [hst]
    exact ⟨rfl,rfl⟩
  · rw [hst]
    exact ⟨rfl,rfl⟩

/-- Others leave the worker's reader alone too. -/
structure Left (s t : Expansion S) : Prop extends Quiet s t where
  stream : t.stream=s.stream
  calls : t.calls=s.calls

theorem Meanwhile.left (h : Meanwhile s t) : Left s t := by
  cases h with
  | publish h => exact ⟨⟨rfl,Or.inl rfl⟩,rfl,rfl⟩
  | setTotalSize h => exact ⟨⟨rfl,Or.inl rfl⟩,rfl,rfl⟩
  | requestStop =>
    rw [Expansion.requestStop]
    split
    · exact ⟨⟨rfl,Or.inl rfl⟩,rfl,rfl⟩
    · refine ⟨⟨rfl,?_⟩,rfl,rfl⟩
      by_cases hc : s.status.state=.complete
      · simp [hc]
      · simp [hc]

theorem Later.left (h : Later s t) : Left s t := by
  induction h with
  | refl => exact ⟨.refl s,rfl,rfl⟩
  | tail _ hs ih =>
    have hl := hs.left
    exact ⟨ih.toQuiet.trans hl.toQuiet,hl.stream.trans ih.stream,hl.calls.trans ih.calls⟩

/-- What every operation keeps: the calls are those of one expansion of an opened container, and a stop
that one of them saw is still asked for. -/
structure Underway (s₀ s : Expansion S) : Prop where
  expands : Expands s₀.container s₀.stream s.calls s.container s.stream
  stops : ∀c∈s.calls,∀u∈c.seen,u.stopping=true→s.container.stopping=true

theorem stopping_later {c d : Container} (h : Container.Later c d) (hs : c.stopping=true) : d.stopping=true := by
  induction h with
  | refl => exact hs
  | tail _ hm ih =>
    obtain ⟨m,hm⟩ := hm
    cases m with
    | publish p =>
      obtain ⟨_,-,rfl⟩ := Option.map_eq_some_iff.mp hm
      exact ih
    | setTotalSize size =>
      obtain rfl := Option.some_inj.mp hm
      exact ih
    | requestStop =>
      obtain rfl := Option.some_inj.mp hm
      rfl

variable {s₀ : Expansion S}

theorem Underway.later (h : Underway s₀ s) (hl : Later s t) : Underway s₀ t where
  expands := by
    rw [hl.left.calls,hl.left.stream]
    exact h.expands.meanwhile hl.container
  stops := by
    rw [hl.left.calls]
    exact fun c hc u hu hs => stopping_later hl.container (h.stops c hc u hu hs)

theorem Asks.underway {block : Bytes} (h : Underway s₀ s) (ha : Asks s () block t) : Underway s₀ t := by
  obtain ⟨fuel,seen,d,m,hr,rfl⟩ := ha
  have hpath : Later s m := hr.onward fun _ _ _ h h' => h.trans h'
  have hrun : (readBlock fuel s.stream).Runs Container.Later s.container (seen.map container)
    (some (block,d)) m.container :=
    hr.through fun _ _ hl => Later.container hl
  refine ⟨?_,?_⟩
  · change Expands _ _ (m.calls++_) m.container d
    rw [hpath.left.calls]
    exact h.expands.read hrun
  · intro c hc u hu hs
    have hc' : c∈m.calls++[⟨s.stream,seen.map container,block⟩] := hc
    rcases List.mem_append.mp hc' with hc | hc
    · exact (h.later hpath).stops c hc u hu hs
    · obtain rfl := List.mem_singleton.mp hc
      obtain ⟨v,hv,rfl⟩ := List.mem_map.mp hu
      exact stopping_later (hr.between (fun _ _ _ h h' => h.trans h') hv).2.container hs

theorem Asks.quiet {block : Bytes} (ha : Asks s () block t) : Quiet s t := by
  obtain ⟨fuel,seen,d,m,hr,rfl⟩ := ha
  have hpath : Later s m := hr.onward fun _ _ _ h h' => h.trans h'
  exact ⟨hpath.left.files,hpath.left.status⟩

/-- So with a whole program of the decompressor. -/
theorem Underway.decompressing {α : Type} {p : Decompressing α} {a : α} (h : Underway s₀ s)
    (hr : p.Runs Asks s a t) :
    Underway s₀ t ∧ Quiet s t := by
  refine hr.keeps (I:=fun m => Underway s₀ m ∧ Quiet s m) ?_ ⟨h,.refl s⟩
  intro m o x n hm hs
  exact ⟨hs.underway hm.1,hm.2.trans hs.quiet⟩

/-- The operations that neither write nor publish. -/
def isQuiet : ArchiveFetcher.ExpandOp→Bool
  | .createSpool _ | .append _ _ | .publish _ => false
  | _ => true

theorem Performs.underway {o : ArchiveFetcher.ExpandOp} {x : ArchiveFetcher.Answer o} (h : Underway s₀ s)
    (hp : Performs codec s o x t) : Underway s₀ t ∧ (isQuiet o→Quiet s t) := by
  cases o with
  | stopping =>
    obtain ⟨-,rfl⟩ := hp
    exact ⟨h,fun _ => .refl _⟩
  | openStream allowRaw =>
    obtain ⟨r,m,hr,hres⟩ := hp
    obtain ⟨hm,hq⟩ := h.decompressing hr
    cases r <;> obtain ⟨-,rfl⟩ := hres <;> exact ⟨⟨hm.expands,hm.stops⟩,fun _ => ⟨hq.files,hq.status⟩⟩
  | seekToMember name =>
    obtain ⟨member,-,r,m,hr,-,rfl⟩ := hp
    obtain ⟨hm,hq⟩ := h.decompressing hr
    exact ⟨⟨hm.expands,hm.stops⟩,fun _ => ⟨hq.files,hq.status⟩⟩
  | openNested =>
    obtain ⟨member,-,r,m,hr,hres⟩ := hp
    obtain ⟨hm,hq⟩ := h.decompressing hr
    cases r <;> obtain ⟨-,rfl⟩ := hres <;> exact ⟨⟨hm.expands,hm.stops⟩,fun _ => ⟨hq.files,hq.status⟩⟩
  | currentSize =>
    obtain ⟨member,-,-,rfl⟩ := hp
    exact ⟨h,fun _ => .refl _⟩
  | inputSize =>
    obtain ⟨-,rfl⟩ := hp
    exact ⟨h,fun _ => .refl _⟩
  | bytesAvailable =>
    obtain rfl := hp
    exact ⟨h,fun _ => .refl _⟩
  | createSpool g =>
    cases x <;> obtain rfl := hp <;> exact ⟨⟨h.expands,h.stops⟩,nofun⟩
  | openSpool g =>
    obtain rfl := hp
    exact ⟨h,fun _ => .refl _⟩
  | append g bytes =>
    cases x with
    | landed =>
      obtain rfl := hp
      exact ⟨⟨h.expands,h.stops⟩,nofun⟩
    | full =>
      obtain ⟨part,-,rfl⟩ := hp
      exact ⟨⟨h.expands,h.stops⟩,nofun⟩
    | failed =>
      obtain ⟨part,-,rfl⟩ := hp
      exact ⟨⟨h.expands,h.stops⟩,nofun⟩
  | read want =>
    obtain ⟨member,-,r,m,hr,-,rfl⟩ := hp
    obtain ⟨hm,hq⟩ := h.decompressing hr
    exact ⟨⟨hm.expands,hm.stops⟩,fun _ => ⟨hq.files,hq.status⟩⟩
  | resetStream =>
    obtain rfl := hp
    exact ⟨⟨h.expands,h.stops⟩,fun _ => ⟨rfl,Or.inl rfl⟩⟩
  | publish f =>
    obtain ⟨-,rfl⟩ := hp
    exact ⟨⟨h.expands,h.stops⟩,nofun⟩

/-- No call so far saw that a stop was asked for. -/
def NoStop (s : Expansion S) : Prop := ∀c∈s.calls,∀u∈c.seen,u.stopping=false

/-- In every state: an expansion shown as complete published all it wrote, and no stop cut it short. -/
structure Holds (s₀ s : Expansion S) : Prop where
  underway : Underway s₀ s
  complete : s.status.state=.complete→NoStop s ∧ s.status.committedSize=(s.files s.status.generation).length

/-- Before the end is published. -/
structure Pending (s₀ s : Expansion S) : Prop where
  underway : Underway s₀ s
  state : s.status.state≠.complete

theorem Pending.holds (h : Pending s₀ s) : Holds s₀ s := ⟨h.underway,fun hc => absurd hc h.state⟩

theorem Pending.quiet (h : Pending s₀ s) (hu : Underway s₀ t) (hq : Quiet s t) : Pending s₀ t :=
  ⟨hu,fun hc => h.state (hq.complete.mp hc)⟩

theorem Underway.noStop (h : Underway s₀ s) (hs : s.container.stopping=false) : NoStop s := by
  intro c hc u hu
  by_contra hne
  have hstop := h.stops c hc u hu (by simpa using hne)
  simp [hs] at hstop

section Rules
variable {α : Type} {ends : α→Expansion S→Prop}
open ArchiveFetcher

theorem safe_quiet {o : ExpandOp} {k : Answer o→Worker α} (hq : isQuiet o) (h : Pending s₀ s)
    (hk : ∀x t,Pending s₀ t → Quiet s t → (k x).Safe (Step codec) (Holds s₀) ends t) :
    ((Program.ask o).bind k).Safe (Step codec) (Holds s₀) ends s := by
  refine Program.safe_ask.mpr ⟨h.holds,?_⟩
  rintro x t ⟨m,hl,hp⟩
  have hm := h.underway.later hl
  obtain ⟨ht,hquiet⟩ := hp.underway hm
  have hst := hl.left.toQuiet.trans (hquiet hq)
  exact hk x t (h.quiet ht hst) hst

theorem safe_stopping {k : Bool→Worker α} (h : Pending s₀ s)
    (hk : ∀x t,Pending s₀ t → Quiet s t → (x=false → NoStop t) → (k x).Safe (Step codec) (Holds s₀) ends t) :
    (stopping.bind k).Safe (Step codec) (Holds s₀) ends s := by
  refine Program.safe_ask.mpr ⟨h.holds,?_⟩
  rintro x t ⟨m,hl,rfl,rfl⟩
  have hm := h.underway.later hl
  exact hk _ t (h.quiet hm hl.left.toQuiet) hl.left.toQuiet hm.noStop

theorem safe_reset {k : Unit→Worker α} (h : Pending s₀ s)
    (hk : ∀t,Pending s₀ t → Quiet s t → t.calls=s.calls → (k ()).Safe (Step codec) (Holds s₀) ends t) :
    (resetStream.bind k).Safe (Step codec) (Holds s₀) ends s := by
  refine Program.safe_ask.mpr ⟨h.holds,?_⟩
  rintro x t ⟨m,hl,rfl⟩
  have hm := h.underway.later hl
  have hq : Quiet s {m with member := none} := ⟨hl.left.files,hl.left.status⟩
  exact hk _ (h.quiet ⟨hm.expands,hm.stops⟩ hq) hq hl.left.calls

theorem safe_publish {f : Status→Status} {k : Status→Worker α} (h : Pending s₀ s)
    (hk : ∀t,Pending s₀ t → Left s t → (k t.status).Safe (Step codec) (Holds s₀) ends
      {t with status := f t.status}) :
    ((publish f).bind k).Safe (Step codec) (Holds s₀) ends s := by
  refine Program.safe_ask.mpr ⟨h.holds,?_⟩
  rintro x t ⟨m,hl,rfl,rfl⟩
  exact hk m (h.quiet (h.underway.later hl) hl.left.toQuiet) hl.left

theorem safe_setError {e : String} {k : Unit→Worker α} (h : Pending s₀ s)
    (hk : ∀t,Pending s₀ t → (k ()).Safe (Step codec) (Holds s₀) ends t) :
    ((setError e).bind k).Safe (Step codec) (Holds s₀) ends s := by
  refine safe_publish h ?_
  intro t ht _
  exact hk _ ⟨⟨ht.underway.expands,ht.underway.stops⟩,nofun⟩

/-- A generation's file as it was before the write, with part of what was to be written. -/
theorem safe_append {g : ℕ} {bytes : Bytes} {k : SpoolWrite→Worker α} (h : Pending s₀ s)
    (hk : ∀x t m,Pending s₀ t → Quiet s m → t.status=m.status →
      (x=.landed → t.files=Function.update m.files g (m.files g++bytes)) →
        (k x).Safe (Step codec) (Holds s₀) ends t) :
    ((append g bytes).bind k).Safe (Step codec) (Holds s₀) ends s := by
  refine Program.safe_ask.mpr ⟨h.holds,?_⟩
  rintro x t ⟨m,hl,hp⟩
  have hm : Pending s₀ m := h.quiet (h.underway.later hl) hl.left.toQuiet
  have ht := (hp.underway hm.underway).1
  cases x with
  | landed =>
    obtain rfl := hp
    exact hk _ _ m ⟨ht,hm.state⟩ hl.left.toQuiet rfl fun _ => rfl
  | full =>
    obtain ⟨part,-,rfl⟩ := hp
    exact hk _ _ m ⟨ht,hm.state⟩ hl.left.toQuiet rfl nofun
  | failed =>
    obtain ⟨part,-,rfl⟩ := hp
    exact hk _ _ m ⟨ht,hm.state⟩ hl.left.toQuiet rfl nofun

end Rules

/-- The tally is what the generation's file holds; it is what was published, but in the prime. -/
structure Tallied (holdBackCommits : Bool) (g held : ℕ) (s : Expansion S) : Prop where
  generation : s.status.generation=g
  written : (s.files g).length=held
  committed : s.status.committedSize ≤ held
  published : holdBackCommits=false→s.status.committedSize=held

theorem Tallied.quiet {hb : Bool} {g held : ℕ} (h : Tallied hb g held s) (hq : Quiet s t) :
    Tallied hb g held t where
  generation := hq.sizes.1.trans h.generation
  written := by rw [hq.files,h.written]
  committed := by
    rw [hq.sizes.2]
    exact h.committed
  published := fun hb => hq.sizes.2.trans (h.published hb)

/-- What `expand` ends in. -/
structure Expanded (s₀ : Expansion S) (hb : Bool) (g : ℕ) (e : Option ArchiveFetcher.Expanded)
    (s : Expansion S) : Prop where
  pending : Pending s₀ s
  tallied : ∀r∈e,r.ok=true→Tallied hb g r.heldCommit s
  noStop : ∀r∈e,r.finished=true→NoStop s

open ArchiveFetcher in
private theorem safe_expandFrom {names : Names} {limit g : ℕ} {hb : Bool} {fuel written held : ℕ} (h : Pending s₀ s)
    (ht : Tallied hb g held s) :
    (expandFrom names limit g hb fuel written held).Safe (Step codec) (Holds s₀) (Expanded s₀ hb g) s := by
  induction fuel generalizing s written held with
  | zero => exact ⟨h.holds,h,nofun,nofun⟩
  | succ fuel ih =>
    have hstopped : ∀{t : Expansion S},Pending s₀ t → Tallied hb g held t →
        (Program.pure (some ⟨true,false,held⟩) : Worker (Option ArchiveFetcher.Expanded)).Safe
          (Step codec) (Holds s₀)
          (Expanded s₀ hb g) t := by
      intro t hp htt
      refine ⟨hp.holds,hp,?_,?_⟩
      · rintro r ⟨⟩ -
        exact htt
      · rintro r ⟨⟩ ⟨⟩
    have hfailed : ∀{t : Expansion S},Pending s₀ t →
        (Program.pure (some ⟨false,false,held⟩) : Worker (Option ArchiveFetcher.Expanded)).Safe
          (Step codec) (Holds s₀)
          (Expanded s₀ hb g) t := by
      intro t hp
      refine ⟨hp.holds,hp,?_,?_⟩
      · rintro r ⟨⟩ ⟨⟩
      · rintro r ⟨⟩ ⟨⟩
    rw [expandFrom]
    split
    · exact hstopped h ht
    · refine safe_stopping h ?_
      intro stop t₁ hp₁ hq₁ _
      have ht₁ := ht.quiet hq₁
      cases stop with
      | true => exact hstopped hp₁ ht₁
      | false =>
        refine safe_quiet rfl hp₁ ?_
        intro got t₂ hp₂ hq₂
        have ht₂ := ht₁.quiet hq₂
        refine safe_stopping hp₂ ?_
        intro stop t₃ hp₃ hq₃ hns
        have ht₃ := ht₂.quiet hq₃
        cases stop with
        | true => exact hstopped hp₃ ht₃
        | false =>
          cases got with
          | error e =>
            refine safe_setError hp₃ ?_
            intro t₄ hp₄
            exact hfailed hp₄
          | ok bytes =>
            cases bytes with
            | nil =>
              refine ⟨hp₃.holds,hp₃,?_,?_⟩
              · rintro r ⟨⟩ -
                exact ht₃
              · rintro r ⟨⟩ -
                exact hns rfl
            | cons b bytes =>
              refine safe_append hp₃ ?_
              intro x t₄ m hp₄ hm hstatus hfiles
              cases x with
              | landed =>
                have hm₃ := ht₃.quiet hm
                refine safe_publish hp₄ ?_
                intro t₅ hp₅ hl₅
                refine ih ⟨⟨hp₅.underway.expands,hp₅.underway.stops⟩,hp₅.state⟩ ?_
                have ht₄ : t₄.status.generation=g ∧ (t₄.files g).length=held+(b::bytes).length ∧
                  t₄.status.committedSize ≤ held := by
                  rw [hstatus,hfiles rfl,Function.update_self,List.length_append,hm₃.written]
                  exact ⟨hm₃.generation,rfl,hm₃.committed⟩
                obtain ⟨hg₅,hc₅⟩ := hl₅.toQuiet.sizes
                refine ⟨hg₅.trans ht₄.1,?_,?_,?_⟩
                · rw [← ht₄.2.1,← hl₅.files]
                · have hle := ht₄.2.2
                  change (if hb then t₅.status.committedSize else _)≤_
                  split
                  · omega
                  · exact le_rfl
                · rintro rfl
                  rfl
              | full =>
                refine safe_setError hp₄ ?_
                intro t₅ hp₅
                exact hfailed hp₅
              | failed =>
                refine safe_setError hp₄ ?_
                intro t₅ hp₅
                exact hfailed hp₅

/-- What was written is published, and no stop cut the member short. -/
structure Done (s₀ s : Expansion S) : Prop where
  pending : Pending s₀ s
  noStop : NoStop s
  published : s.status.committedSize=(s.files s.status.generation).length

/-- Where a stream is still to be read, what was written of it is published. -/
def Primed (s₀ : Expansion S) (b : Option ArchiveFetcher.Begun) (s : Expansion S) : Prop :=
  ∀held,b=some (.underway held) → Pending s₀ s ∧ ∃g,Tallied false g held s

open ArchiveFetcher

theorem safe_expand {names : Names} {fuel limit g held : ℕ} {hb : Bool} (h : Pending s₀ s)
    (ht : Tallied hb g held s) :
    (expand names fuel limit hb held).Safe (Step codec) (Holds s₀) (Expanded s₀ hb g) s := by
  refine safe_publish h ?_
  intro t₁ hp₁ hl₁
  have ht₁ := ht.quiet hl₁.toQuiet
  refine safe_quiet rfl (s:=t₁) hp₁ ?_
  intro opened t₂ hp₂ hq₂
  have ht₂ := ht₁.quiet hq₂
  rw [ht₁.generation]
  cases opened with
  | true => exact safe_expandFrom hp₂ ht₂
  | false =>
    refine safe_setError hp₂ ?_
    intro t₃ hp₃
    refine ⟨hp₃.holds,hp₃,?_,?_⟩
    · rintro r ⟨⟩ ⟨⟩
    · rintro r ⟨⟩ ⟨⟩

theorem safe_publishComplete {α : Type} {ends : α→Expansion S→Prop} {k : Unit→Worker α} (h : Done s₀ s)
    (hk : ∀t,Holds s₀ t → (k ()).Safe (Step codec) (Holds s₀) ends t) :
    (publishComplete.bind k).Safe (Step codec) (Holds s₀) ends s := by
  refine safe_publish h.pending ?_
  intro t hp hl
  refine hk _ ⟨⟨hp.underway.expands,hp.underway.stops⟩,fun _ => ⟨?_,?_⟩⟩
  · intro c hc
    exact h.noStop c (hl.calls ▸ hc)
  · change t.status.committedSize=(t.files t.status.generation).length
    rw [hl.toQuiet.sizes.1,hl.toQuiet.sizes.2,hl.files,h.published]

private theorem safe_expandRest {names : Names} {fuel g held : ℕ} (h : Pending s₀ s) (ht : Tallied false g held s) :
    (expandRest names fuel held).Safe (Step codec) (Holds s₀) (fun _ _ => True) s := by
  refine Program.safe_bind.mpr ((safe_expand h ht).mono ?_)
  intro e t hI he
  have hdone : ∀r∈e,r.ok=true → r.finished=true→Done s₀ t := by
    intro r hr hok hfin
    have htt := he.tallied r hr hok
    refine ⟨he.pending,he.noStop r hr hfin,?_⟩
    rw [htt.published rfl,htt.generation,htt.written]
  rcases e with - | ⟨ok,finished,held'⟩
  · exact ⟨hI,trivial⟩
  · cases ok with
    | false => exact ⟨hI,trivial⟩
    | true =>
      cases finished with
      | false => exact ⟨hI,trivial⟩
      | true => exact safe_publishComplete (hdone _ rfl rfl rfl) fun t ht => ⟨ht,trivial⟩

theorem safe_abandon {e : String} (h : Pending s₀ s) :
    (abandon e).Safe (Step codec) (Holds s₀) (Primed s₀) s := by
  refine safe_setError h ?_
  intro t₁ hp₁
  refine safe_reset hp₁ ?_
  intro t₂ hp₂ _ _
  exact ⟨hp₂.holds,nofun⟩

theorem safe_abandonPublished (h : Pending s₀ s) :
    abandonPublished.Safe (Step codec) (Holds s₀) (Primed s₀) s := by
  refine safe_publish h ?_
  intro t₁ hp₁ _
  refine safe_reset (s:=t₁) hp₁ ?_
  intro t₂ hp₂ _ _
  exact ⟨hp₂.holds,nofun⟩

private theorem safe_prime {names : Names} {fuel g : ℕ} (h : Pending s₀ s) (ht : Tallied true g 0 s) :
    (prime names fuel).Safe (Step codec) (Holds s₀) (Primed s₀) s := by
  refine Program.safe_bind.mpr ((safe_expand h ht).mono ?_)
  intro e t hI he
  rcases e with - | ⟨ok,finished,held⟩
  · exact ⟨hI,nofun⟩
  · cases ok with
    | false => exact safe_abandonPublished he.pending
    | true =>
      have htt := he.tallied _ rfl rfl
      refine safe_publish he.pending ?_
      intro t₁ hp₁ hl₁
      have ht₁ := htt.quiet hl₁.toQuiet
      let u : Expansion S := {t₁ with status := {t₁.status with committedSize := max held t₁.status.committedSize}}
      have hu : Pending s₀ u := ⟨⟨hp₁.underway.expands,hp₁.underway.stops⟩,hp₁.state⟩
      have hmax : max held t₁.status.committedSize=held := Nat.max_eq_left ht₁.committed
      have htu : Tallied false g held u := ⟨ht₁.generation,ht₁.written,hmax.le,fun _ => hmax⟩
      cases finished with
      | false =>
        refine ⟨hu.holds,?_⟩
        rintro held' ⟨⟩
        exact ⟨hu,g,htu⟩
      | true =>
        have hns := he.noStop _ rfl rfl
        refine safe_reset hu ?_
        intro t₂ hp₂ hq₂ hc₂
        have ht₂ := htu.quiet hq₂
        have hdone : Done s₀ t₂ := by
          refine ⟨hp₂,?_,?_⟩
          · intro c hc
            rw [hc₂] at hc
            exact hns c (hl₁.calls ▸ hc)
          · rw [ht₂.published rfl,ht₂.generation,ht₂.written]
        exact safe_publishComplete hdone fun t ht => ⟨ht,nofun⟩

private theorem safe_createSpool {α : Type} {ends : α→Expansion S→Prop} {g : ℕ} {k : Bool→Worker α}
    (h : Pending s₀ s)
    (hk : ∀x t,Pending s₀ t → (x=true → t.files g=[]) → (k x).Safe (Step codec) (Holds s₀) ends t) :
    ((createSpool g).bind k).Safe (Step codec) (Holds s₀) ends s := by
  refine Program.safe_ask.mpr ⟨h.holds,?_⟩
  rintro x t ⟨m,hl,hp⟩
  have hm : Pending s₀ m := h.quiet (h.underway.later hl) hl.left.toQuiet
  have ht := (hp.underway hm.underway).1
  cases x with
  | true =>
    obtain rfl := hp
    exact hk true _ ⟨ht,hm.state⟩ fun _ => Function.update_self _ _ _
  | false =>
    obtain rfl := hp
    exact hk false _ ⟨ht,hm.state⟩ nofun

private theorem safe_beginGeneration {α : Type} {ends : α→Expansion S→Prop} {names : Names} {size : ℤ}
    {k : Bool→Worker α}
    (h : Pending s₀ s) (hbegun : ∀g t,Pending s₀ t → Tallied true g 0 t → (k true).Safe (Step codec)
      (Holds s₀) ends t) (hrefused : ∀t,Pending s₀ t → (k false).Safe (Step codec) (Holds s₀) ends t) :
    ((beginGeneration names size).bind k).Safe (Step codec) (Holds s₀) ends s := by
  refine safe_publish h ?_
  intro t₁ hp₁ _
  refine safe_createSpool (s:=t₁) hp₁ ?_
  intro created t₂ hp₂ hfile
  cases created with
  | true =>
    refine safe_publish hp₂ ?_
    intro t₃ hp₃ hl₃
    refine hbegun (t₁.status.generation+1) _ ⟨⟨hp₃.underway.expands,hp₃.underway.stops⟩,hp₃.state⟩
      ⟨rfl,?_,le_rfl,nofun⟩
    change (t₃.files _).length=0
    rw [hl₃.files,hfile rfl]
    rfl
  | false =>
    refine safe_publish hp₂ ?_
    intro t₃ hp₃ _
    exact hrefused _ ⟨⟨hp₃.underway.expands,hp₃.underway.stops⟩,nofun⟩

theorem safe_establish {names : Names} {fuel : ℕ} (h : Pending s₀ s) :
    (establish names fuel).Safe (Step codec) (Holds s₀) (Primed s₀) s := by
  refine safe_quiet rfl h ?_
  intro size t₁ hp₁ _
  refine safe_quiet rfl hp₁ ?_
  intro available t₂ hp₂ _
  refine safe_quiet rfl hp₂ ?_
  intro inputSize t₃ hp₃ _
  dsimp only
  split
  · exact safe_abandon hp₃
  · refine safe_publish hp₃ ?_
    intro t₄ hp₄ _
    refine safe_quiet rfl ⟨⟨hp₄.underway.expands,hp₄.underway.stops⟩,nofun⟩ ?_
    intro size' t₅ hp₅ _
    exact safe_beginGeneration hp₅ (fun g t ht htt => safe_prime ht htt) fun t ht => safe_abandonPublished ht

private theorem safe_beginExpansion {names : Names} {fuel : ℕ} (h : Pending s₀ s) :
    (beginExpansion names fuel).Safe (Step codec) (Holds s₀) (Primed s₀) s := by
  refine safe_quiet rfl h ?_
  intro refused t₁ hp₁ _
  cases refused with
  | some e => exact safe_abandon hp₁
  | none =>
    refine safe_quiet rfl hp₁ ?_
    intro refused t₂ hp₂ _
    cases refused with
    | some e => exact safe_abandon hp₂
    | none =>
      dsimp only
      split
      · refine safe_quiet rfl hp₂ ?_
        intro refused t₃ hp₃ _
        cases refused with
        | some e => exact safe_abandon hp₃
        | none => exact safe_establish hp₃
      · split
        · exact safe_abandon hp₂
        · exact safe_establish hp₂

private theorem safe_work {names : Names} {fuel : ℕ} (h : Pending s₀ s) :
    (work names fuel).Safe (Step codec) (Holds s₀) (fun _ _ => True) s := by
  refine Program.safe_bind.mpr ((safe_beginExpansion h).mono ?_)
  intro b t hI hb
  rcases b with - | ⟨e⟩ | - | held
  · exact ⟨hI,trivial⟩
  · exact ⟨hI,trivial⟩
  · exact ⟨hI,trivial⟩
  · obtain ⟨hp,g,ht⟩ := hb held rfl
    exact safe_expandRest hp ht

theorem Begins.pending (h : Begins s) : Pending s s := by
  refine ⟨⟨?_,?_⟩,h.state⟩
  · rw [h.calls]
    exact .start
  · rw [h.calls]
    nofun

/-- A state of an expansion: one its worker passes through, others at work after it. -/
def Reached (codec : Codec S) (names : Names) (s₀ t : Expansion S) : Prop :=
  ∃fuel m,(work names fuel).Reaches (Step codec) s₀ m ∧ Later m t

theorem Reached.holds {names : Names} (hb : Begins s₀) (h : Reached codec names s₀ t) : Holds s₀ t := by
  obtain ⟨fuel,m,hr,hl⟩ := h
  have hsafe : (work names fuel).Safe (Step codec) (Holds s₀) (fun _ _ => True) s₀ := safe_work hb.pending
  have hm : Holds s₀ m := hsafe.reaches hr
  refine ⟨hm.underway.later hl,?_⟩
  intro hc
  obtain ⟨hns,hpub⟩ := hm.complete (hl.left.toQuiet.complete.mp hc)
  refine ⟨fun c hmem => hns c (hl.left.calls ▸ hmem),?_⟩
  rw [hl.left.toQuiet.sizes.1,hl.left.toQuiet.sizes.2,hl.left.files,hpub]

/-- A decompressor that hands on what it is given, and takes any end of the input for its own. -/
def copying : Codec Unit where
  openStream _ := .pure (.ok ())
  seekToMember _ _ := .pure (none,())
  openNested _ := .pure (.ok ())
  currentSize _ := -1
  read _ _ := (Program.ask ()).bind fun block => .pure (.ok block,())

def unnamed : Names where
  location := ⟨[],[]⟩
  container := ""
  member := ""
  containerFile := ""
  displayName := ""
  spoolPath _ := ""
  formattedDataSize _ := ""

theorem Performs.next {α : Type} {o : ExpandOp} {x : Answer o} {k : Answer o→Worker α} {m : Expansion S}
    (hp : Performs codec s o x m) (h : (k x).Reaches (Step codec) m t) :
    (Program.perform o k).Reaches (Step codec) s t := .next ⟨s,.refl,hp⟩ h

theorem endsWithAny_nil (suffixes : List Text) : ArchiveLocation.endsWithAny
    (ArchiveLocation.lastComponent []) suffixes=false := by
  have hlast : ArchiveLocation.lastComponent []=[] := rfl
  simp [ArchiveLocation.endsWithAny,hlast]

/-- A `readBlock` while nothing else moves. -/
theorem asks_of_answer {fuel n : ℕ} {block : Bytes} {d : ArchiveStream}
    (h : (readBlock fuel s.stream).answer (List.replicate n s.container)=some (some (block,d))) :
    Asks s () block {s with stream := d,calls := s.calls++[⟨s.stream,List.replicate n s.container,block⟩]} := by
  have hlast : ∀n,((s::List.replicate n s).getLast (by simp))=s := by
    intro n
    have hmem := List.getLast_mem (show s::List.replicate n s≠[] by simp)
    rcases List.mem_cons.mp hmem with hs | hs
    · exact hs
    · exact List.eq_of_mem_replicate hs
  have hanswer : ((readBlock fuel s.stream).through container).answer (List.replicate n s)=some
    (some (block,d)) := by
    rw [Reads.answer_through,List.map_replicate,h]
  have hchain : List.IsChain Later (s::List.replicate n s) := by
    rw [← List.replicate_succ]
    exact List.isChain_replicate_of_rel (n+1) .refl
  have hrun := Reads.runs_of_answer (fun _ => .refl) hanswer hchain
  rw [hlast n] at hrun
  refine ⟨fuel,List.replicate n s,d,s,hrun,?_⟩
  rw [List.map_replicate]

/-- A source that has two bytes of the first generation. -/
def twoBytes : SpooledLogSource := ⟨1,some 2,2,false⟩

/-- An expansion about to read them. -/
def startedOn (c : Container) : Expansion Unit :=
  ⟨c,⟨twoBytes,0⟩,none,[],⟨.connecting,0,0,0,0,""⟩,fun _ => []⟩

/-- An expansion of a container whose fetcher does nothing more: one block is copied, then the end is told. -/
theorem copying_run {c : Container} (hstop : c.stopping=false)
    (hfirst : (readBlock 1 ⟨twoBytes,0⟩).answer (List.replicate 1 c)=some (some ([1,2],⟨twoBytes,2⟩)))
    (hsecond : (readBlock 2 ⟨twoBytes,2⟩).answer (List.replicate 8 c)=some (some ([],⟨twoBytes,2⟩))) :
    ∃t,(work unnamed 4).Reaches (Step copying) (startedOn c) t ∧
      t.status.state=.complete ∧
        t.calls=[⟨⟨twoBytes,0⟩,List.replicate 1 c,[1,2]⟩]++⟨⟨twoBytes,2⟩,List.replicate 8 c,[]⟩::[] := by
  have hs : ArchiveLocation.isSingleStreamName unnamed.location.member=false := by
    simp [unnamed,ArchiveLocation.isSingleStreamName,endsWithAny_nil]
  have hn : ArchiveLocation.isContainerName unnamed.location.member=false := by
    simp [unnamed,ArchiveLocation.isContainerName,endsWithAny_nil]
  refine ⟨?final,?run,?state,?calls⟩
  case run =>
    refine Performs.next (o:=.openStream _) (x:=none) ⟨.ok (),_,⟨rfl,rfl⟩,rfl,rfl⟩ ?_
    refine Performs.next (o:=.seekToMember _) (x:=none) ⟨(),rfl,_,_,⟨rfl,rfl⟩,rfl,rfl⟩ ?_
    simp only [hs,hn]
    refine Performs.next (o:=.currentSize) (x:=(-1 : ℤ)) ⟨(),rfl,rfl,rfl⟩ ?_
    refine Performs.next (o:=.bytesAvailable) (x:=none) rfl ?_
    refine Performs.next (o:=.inputSize) ⟨rfl,rfl⟩ ?_
    refine Performs.next (o:=.publish _) ⟨rfl,rfl⟩ ?_
    refine Performs.next (o:=.currentSize) (x:=(-1 : ℤ)) ⟨(),rfl,rfl,rfl⟩ ?_
    refine Performs.next (o:=.publish _) ⟨rfl,rfl⟩ ?_
    refine Performs.next (o:=.createSpool _) (x:=true) rfl ?_
    refine Performs.next (o:=.publish _) ⟨rfl,rfl⟩ ?_
    refine Performs.next (o:=.publish _) ⟨rfl,rfl⟩ ?_
    refine Performs.next (o:=.openSpool _) (x:=true) rfl ?_
    refine Performs.next (o:=.stopping) (x:=false) ⟨hstop.symm,rfl⟩ ?_
    refine Performs.next (o:=.read _) (x:=.ok [1,2]) ⟨(),rfl,_,_,⟨[1,2],_,asks_of_answer hfirst,rfl,rfl⟩,rfl,rfl⟩ ?_
    refine Performs.next (o:=.stopping) (x:=false) ⟨hstop.symm,rfl⟩ ?_
    refine Performs.next (o:=.append _ _) (x:=.landed) rfl ?_
    refine Performs.next (o:=.publish _) ⟨rfl,rfl⟩ ?_
    refine Performs.next (o:=.stopping) (x:=false) ⟨hstop.symm,rfl⟩ ?_
    refine Performs.next (o:=.read _) (x:=.ok []) ⟨(),rfl,_,_,⟨[],_,asks_of_answer hsecond,rfl,rfl⟩,rfl,rfl⟩ ?_
    refine Performs.next (o:=.stopping) (x:=false) ⟨hstop.symm,rfl⟩ ?_
    refine Performs.next (o:=.publish _) ⟨rfl,rfl⟩ ?_
    refine Performs.next (o:=.resetStream) (x:=()) rfl ?_
    refine Performs.next (o:=.publish _) ⟨rfl,rfl⟩ ?_
    exact .here
  case state => rfl
  case calls => rfl

/-- A container of one file, opened as it stands. -/
theorem opened_of_answer {a : SourceSpool} {size : ℕ} {src : SpooledLogSource}
    (ha : SourceSpool.Later SourceSpool.initial a) (h : SpooledLogSource.openSource.answer [a,a]=some src) :
    Opened ⟨a,size,false⟩ ⟨src,0⟩ := by
  have hrefl : ∀s : SourceSpool,SourceSpool.Later s s := fun _ => .refl
  have hopened := Reads.runs_of_answer hrefl h (s:=SourceSpool.initial) (by simp [ha,hrefl])
  exact ⟨rfl,a,_,_,hopened,.here⟩

/-- Where no call found the container replaced, or its fetcher idle, failed, disconnected or complete
with less committed than it had said there was, an expansion shown as complete was handed, each time it
was told the end of its input, the start of the container up to its total size; and it has published all
that it wrote. -/
theorem complete_whole {names : Names} (hb : Begins s₀) (h : Reached codec names s₀ t)
    (hw : ∀c∈t.calls,WholeInput c) (hc : t.status.state=.complete) :
    (∀(past : List ArchiveStream.Call) (c : ArchiveStream.Call) (rest : List ArchiveStream.Call),
      t.calls=past++c::rest → c.block=[] → ∃u∈c.seen,u.totalSize≤(handedOver past).length ∧
        handedOver past<+:t.container.spool.files u.spool.generation) ∧
      t.status.committedSize=(t.files t.status.generation).length := by
  have hholds := h.holds hb
  obtain ⟨hns,hpub⟩ := hholds.complete hc
  refine ⟨?_,hpub⟩
  intro past c rest hcalls hnil
  have hmem : c∈t.calls := by simp [hcalls]
  have hund : ∀c∈t.calls,c.before.Undisturbed c.seen := fun c hm => Or.inr fun u hu => (hw c hm u hu).1
  obtain ⟨m,hm,hall,hmt,hle,u,hu,hor⟩ := hholds.underway.expands.ended hb.opened hund hcalls hnil
  have hgen : u.spool.generation=m.spool.generation := (hw c hmem u hu).1.trans (hw c hmem m hm).1.symm
  refine ⟨u,hu,?_,?_⟩
  · rcases hor with hstop | ⟨hex,hum⟩
    · simp [hns c hmem u hu] at hstop
    · have hcom : u.spool.status.committedSize ≤ m.spool.committed m.spool.generation := by
        rw [← hgen]
        exact hum.spool.grown.committed _ le_rfl
      have htot : u.totalSize ≤ u.spool.status.committedSize := by
        have hterm := (hw c hmem u hu).2
        rw [Container.exhausted] at hex
        split at hex
        · exact hterm (by simp [*])
        · exact hterm (by simp [*])
        · exact hterm (by simp [*])
        · exact hterm (by simp [*])
        · cases hex
        · exact (of_decide_eq_true hex).2
        · exact (of_decide_eq_true hex).2
        · exact (of_decide_eq_true hex).2
      omega
  · rw [hall,hgen]
    exact (List.take_prefix _ _).trans (hmt.spool.grown.files _ le_rfl)

/-- Two bytes of two are copied while the fetcher is live. -/
theorem complete_whole_live :
    ∃t : Expansion Unit,t.status.state=.complete ∧ t.status.committedSize=(t.files t.status.generation).length ∧
      ∃c∈t.calls,c.block=[] ∧ ∃u∈c.seen,u.totalSize=2 ∧ u.totalSize≤(handedOver t.calls.dropLast).length := by
  let a : SourceSpool := SourceSpool.initial.publish [.beginGeneration,.write [1,2],.commit 2,.setState .live]
  let c : Container := ⟨a,2,false⟩
  have hopen : SpooledLogSource.openSource.answer [a,a]=some twoBytes := by decide +kernel
  have hopened : Opened c ⟨twoBytes,0⟩ := opened_of_answer (SourceSpool.later_publish _ _) hopen
  have hbegins : Begins (startedOn c) := ⟨hopened,rfl,nofun⟩
  obtain ⟨t,hr,hc,hcalls⟩ := copying_run (c:=c) rfl (by decide +kernel) (by decide +kernel)
  have hreached : Reached copying unnamed (startedOn c) t := ⟨4,t,hr,.refl⟩
  have hwhole := complete_whole hbegins hreached (by
    intro d hd
    rw [hcalls] at hd
    simp only [List.mem_append,List.mem_singleton] at hd
    rcases hd with rfl | rfl
    · intro u hu
      obtain rfl := List.eq_of_mem_replicate hu
      exact ⟨rfl,by decide⟩
    · intro u hu
      obtain rfl := List.eq_of_mem_replicate hu
      exact ⟨rfl,by decide⟩) hc
  obtain ⟨u,hu,hle,-⟩ := hwhole.1 _ _ _ hcalls rfl
  have huc : u=c := List.eq_of_mem_replicate hu
  refine ⟨t,hc,hwhole.2,⟨⟨twoBytes,2⟩,List.replicate 8 c,[]⟩,?_,rfl,u,hu,?_,?_⟩
  · simp [hcalls]
  · rw [huc]
  · rw [hcalls]
    exact hle

/-- The fetcher failed with two bytes of four. The expansion copies these, is told that nothing more will
come, and is shown as complete. -/
theorem cut_short_complete :
    ¬∀(codec : Codec Unit) (names : Names) (s₀ t : Expansion Unit),Begins s₀ → Reached codec names s₀ t →
      t.status.state=.complete → ∀(past : List ArchiveStream.Call) (c : ArchiveStream.Call)
      (rest : List ArchiveStream.Call),
        t.calls=past++c::rest → c.block=[] → ∃u∈c.seen,u.totalSize≤(handedOver past).length := by
  intro h
  let a : SourceSpool := SourceSpool.initial.publish [.beginGeneration,.write [1,2],.commit 2,.setState .error]
  let c : Container := ⟨a,4,false⟩
  have hopen : SpooledLogSource.openSource.answer [a,a]=some twoBytes := by decide +kernel
  have hopened : Opened c ⟨twoBytes,0⟩ := opened_of_answer (SourceSpool.later_publish _ _) hopen
  have hbegins : Begins (startedOn c) := ⟨hopened,rfl,nofun⟩
  obtain ⟨t,hr,hc,hcalls⟩ := copying_run (c:=c) rfl (by decide +kernel) (by decide +kernel)
  obtain ⟨u,hu,hle⟩ := h copying unnamed _ t hbegins ⟨4,t,hr,.refl⟩ hc _ _ _ hcalls rfl
  have huc : u=c := List.eq_of_mem_replicate hu
  subst huc
  exact absurd hle (by decide)

end Expansion

end Loftail
