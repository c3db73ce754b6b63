import Loftail.SpoolWatchTicks

/-! # A watch that reports completion has indexed all that was committed -/
namespace Loftail
open SourceSpool SpooledLogSource

namespace SpoolWatch

/-- The invariant of a watch over the spool as it is. -/
structure Sound (s : SourceSpool) (w : SpoolWatch) : Prop where
  landed : s.Landed
  serves : Serves s w.source
  opened : w.source.inner=none→w.source.generation=0
  tracked : w.waiting=false→w.source.truncated=false→Tracked s w
  stale : w.stale=true→w.waiting=false ∧ w.source.truncated=false

/-- Runs of a watch: the document is opened, the watch starts, the fetcher publishes, the watch ticks. -/
inductive Watched (later : SourceSpool→SourceSpool→Prop) (p : Opening) (d : Document) : SourceSpool→SpoolWatch→Prop
  | start {s t : SourceSpool} {w w' : SpoolWatch} {seen seen' : List SourceSpool} {answers : Bool}
      (ho : (openDocument p d).Runs later SourceSpool.initial seen w s)
      (hs : (w.start p answers).Runs later s seen' w' t) :
      Watched later p d t w'
  | publish {s t : SourceSpool} {w : SpoolWatch} (h : Watched later p d s w) (hp : later s t) :
    Watched later p d t w
  | tick {s t : SourceSpool} {w w' : SpoolWatch} {seen : List SourceSpool} {tick : Tick} (h : Watched later p d s w)
      (ht : (w.checkNow p tick).Runs later s seen w' t) : Watched later p d t w'

variable {later : SourceSpool→SourceSpool→Prop} (hf : SourceSpool.Fetching later) {p : Opening}
  {tick : Tick} {d : Document}
  {fin replaced : Bool} {s t : SourceSpool} {seen : List SourceSpool} {src : SpooledLogSource} {w w' : SpoolWatch}

theorem Sound.onward (h : Sound s w) (hl : SourceSpool.Later s t) : Sound t w where
  landed := hl.landed h.landed
  serves := h.serves.later hl
  opened := h.opened
  tracked := fun hw ht => (h.tracked hw ht).onward h.serves hl
  stale := h.stale

theorem Reopened.sound {m : SourceSpool} (h : Reopened m t w) (hl : t.Landed) (hs : w.stale=true→w.waiting=false)
    (hb : w.lastSize≤w.document.source.length ∨ (w.formatSettled=false ∧ w.document.source=[])) : Sound t w where
  landed := hl
  serves := h.latched.serves
  opened := h.opened
  tracked := fun _ _ => h.tracked hb
  stale := fun hst => ⟨hs hst,h.truncated⟩

theorem Sound.finish (h : Sound t w) : Sound t (w.finish fin) where
  landed := h.landed
  serves := h.serves
  opened := h.opened
  tracked := fun hw ht => ⟨(h.tracked hw ht).content,(h.tracked hw ht).size,(h.tracked hw ht).base,
    (h.tracked hw ht).covers⟩
  stale := h.stale

include hf

/-- A refreshed source with no truncation to tell goes on with what the index covers. -/
theorem Sound.refreshed (h : Sound s w) (hr : w.source.refreshSize.Runs later s seen src t) :
    t.Landed ∧ (∃m rest,seen=m::rest ∧ later s m ∧ Latched m t src) ∧ (src.inner=none→src.generation=0) ∧
      (src.truncated=false→Sound t {w with source := src}) := by
  have hst := hf.publishes _ _ (runs_onward hf hr)
  obtain ⟨m,rest,rfl,-,hl,hnew,hkeep,-,hnone⟩ := refreshSize_latched (hr.mono hf.publishes)
  have hsm := (hr.between hf.trans (List.mem_cons_self (a:=m))).1
  have hopened : src.inner=none→src.generation=0 := by
    intro hi
    rw [hl.generation]
    rcases hnone hi with ⟨-,hz⟩ | ⟨hg,hi'⟩
    · exact hz
    · exact hg.trans (h.opened hi')
  refine ⟨hst.landed h.landed,⟨m,rest,rfl,hsm,hl⟩,hopened,?_⟩
  intro htr
  have hgen : m.generation=w.source.generation := by
    by_contra hne
    simp [hnew hne] at htr
  have hold : w.source.truncated=false := by
    rw [← Bool.not_eq_true]
    intro ht
    simp [hkeep ht] at htr
  have hgrows := (refreshSize_grows h.serves (hr.mono hf.publishes) hgen).1
  refine ⟨hst.landed h.landed,hl.serves,hopened,?_,fun hs => ⟨(h.stale hs).1,htr⟩⟩
  intro hw _
  have ht := (h.tracked hw hold).onward h.serves hst
  refine ⟨?_,ht.size.trans hgrows,ht.base,ht.covers⟩
  show w.document.source=(t.files src.generation).take w.document.source.length
  rw [hl.generation,hgen]
  exact ht.content

/-- Appended bytes are taken in from where the index ends. -/
theorem ingestAppended_sound (h : w.ingestAppended.Runs later s seen w' t) (hs : Sound s w) (hw : w.waiting=false)
    (hle : w.lastSize ≤ w.source.size) : Sound t w' ∧ w'.waiting=false ∧ w'.source=w.source ∧
    w'.completed=w.completed ∧
      (w.source.truncated=false→w'.document.source.length=w'.source.size) := by
  obtain ⟨hst,hsrc,hwait,hstale,hcompleted,hformat,hlast,hind⟩ := ingestAppended_spec hf h hs.serves
  have hcovered : w.source.truncated=false → Covers w'.document ∧
      w'.document.source=(t.files w.source.generation).take w.source.size ∧
        w'.document.source.length=w.source.size := by
    intro ht
    have htracked := hs.tracked hw ht
    obtain ⟨hcov,hcontent,hlen,-⟩ := hind htracked.covers htracked.prefix_files htracked.size
    exact ⟨hcov,hcontent,hlen⟩
  refine ⟨⟨(hf.publishes _ _ hst).landed hs.landed,?_,?_,?_,?_⟩,hwait.trans hw,hsrc,hcompleted,?_⟩
  · rw [hsrc]
    exact hs.serves.later (hf.publishes _ _ hst)
  · rw [hsrc]
    exact hs.opened
  · intro _ ht
    rw [hsrc] at ht
    obtain ⟨hcov,hcontent,hlen⟩ := hcovered ht
    refine ⟨?_,?_,Or.inl ?_,hcov⟩
    · rw [hlen,hsrc]
      exact hcontent
    · rw [hlen,hsrc]
    · rw [hlen]
      rcases hlast with hlast | hlast <;> omega
  · intro hst'
    rw [hstale] at hst'
    rw [hsrc]
    exact ⟨hwait.trans hw,(hs.stale hst').2⟩
  · intro ht
    rw [hsrc]
    exact (hcovered ht).2.2

/-- What taking the arrived bytes leaves: the index covers all of them, those of the source `w`
had or of one opened since. -/
theorem takeArrived_sound (h : (w.takeArrived p tick fin).Runs later s seen w' t) (hs : Sound s w)
    (hw : w.waiting=false) (ht : w.source.truncated=false) (hle : w.lastSize ≤ w.source.size) :
    Sound t w' ∧ w'.waiting=false ∧ w'.source.truncated=false ∧ w'.document.source.length=w'.source.size ∧
      w'.completed=fin ∧ (w'.source=w.source ∨ ∃m,later s m ∧ Latched m t w'.source) := by
  have htracked := hs.tracked hw ht
  rcases takeArrived_cases hf h with ⟨hset,-,v,hv,rfl⟩ | ⟨-,-,v,hv,rfl⟩ | ⟨hset,hge,hst,rfl⟩
  · rcases settleFirstBytes_spec hf hv hw hset with ⟨m,rest,-,hsm,hmt,hre,hvw,hstale,-,hbase⟩ | hv
    · rw [if_neg (by simp [hvw])]
      refine ⟨?_,hvw,hre.truncated,hre.size,rfl,Or.inr ⟨m,hsm,hre.latched⟩⟩
      exact (hre.sound ((hf.publishes _ _ (hf.trans _ _ _ hsm hmt)).landed hs.landed) (fun _ => hvw) hbase).finish
    · obtain ⟨hsound,hvw,hsrc,-,hlen⟩ := ingestAppended_sound hf hv hs hw hle
      rw [if_neg (by simp [hvw])]
      refine ⟨hsound.finish,hvw,?_,hlen ht,rfl,Or.inl hsrc⟩
      show v.source.truncated=false
      rw [hsrc]
      exact ht
  · obtain ⟨hsound,hvw,hsrc,-,hlen⟩ := ingestAppended_sound hf hv hs hw hle
    refine ⟨hsound.finish,hvw,?_,hlen ht,rfl,Or.inl hsrc⟩
    show v.source.truncated=false
    rw [hsrc]
    exact ht
  · have hsize : w.document.source.length=w.source.size := by
      have hbase := htracked.base
      have hfit := htracked.size
      rcases hbase with hbase | ⟨hfs,hnil⟩
      · omega
      · rcases hset with hset | hset
        · simp [hfs] at hset
        · rw [hnil,List.length_nil]
          exact hset.symm
    have hon := hs.onward (hf.publishes _ _ hst)
    have hon' := hon.tracked hw ht
    have hsync : Sound t w.syncBaseline :=
      ⟨hon.landed,hon.serves,hon.opened,fun _ _ => ⟨hon'.content,hon'.size,Or.inl hsize.ge,hon'.covers⟩,hon.stale⟩
    exact ⟨hsync.finish,hw,ht,hsize,rfl,Or.inl rfl⟩

/-- The invariant is kept where the records are emptied, `m` any later spool. -/
theorem Sound.beginWaiting (h : Sound s w) (hl : later s t) : Sound t w.beginWaiting where
  landed := (hf.publishes _ _ hl).landed h.landed
  serves := h.serves.later (hf.publishes _ _ hl)
  opened := h.opened
  tracked := fun hw => by cases hw
  stale := fun hst => by cases hst

omit hf in
theorem Sound.endStale (h : Sound s w) : Sound s w.endStale where
  landed := h.landed
  serves := h.serves
  opened := h.opened
  tracked := fun hw ht => ⟨(h.tracked hw ht).content,(h.tracked hw ht).size,(h.tracked hw ht).base,
    (h.tracked hw ht).covers⟩
  stale := fun hst => by cases hst

omit hf in
theorem Sound.beginStale (h : Sound s w) (hw : w.waiting=false) (ht : w.source.truncated=false) :
    Sound s w.beginStale where
  landed := h.landed
  serves := h.serves
  opened := h.opened
  tracked := fun hw ht => ⟨(h.tracked hw ht).content,(h.tracked hw ht).size,(h.tracked hw ht).base,
    (h.tracked hw ht).covers⟩
  stale := fun _ => ⟨hw,ht⟩

/-- What is left once the source was refreshed. Only a tick that neither read the log again nor
found it gone may report completion. -/
theorem checkRefreshed_sound (h : (w.checkRefreshed p tick fin replaced).Runs later s seen w' t) (hl : s.Landed)
    (hs : w.source.truncated=false→Sound s w) (hw : w.waiting=false) (hc : w.completed=false) :
    Sound t w' ∧ (w'.completed=true→fin=true ∧ w'.waiting=false ∧ w'.source.truncated=false ∧
      w'.document.source.length=w'.source.size ∧ (w'.source=w.source ∨ ∃m,later s m ∧ Latched m t w'.source)) := by
  rcases checkRefreshed_cases hf h with ⟨-,h⟩ | ⟨-,ht,hle,⟨hst,hcase⟩ | ⟨v,m,seen₁,seen₂,hsm,-,hv,h⟩⟩
  · obtain ⟨m,rest,-,hsm,hmt,hre,hlast,-,hstale,hcomp,-⟩ := doRescan_spec hf h
    refine ⟨hre.sound ((hf.publishes _ _ (hf.trans _ _ _ hsm hmt)).landed hl) ?_ (Or.inl ?_),?_⟩
    · intro hst
      rw [hstale] at hst
      cases hst
    · rw [hlast]
      exact hre.size.ge
    · intro hdone
      rw [hcomp] at hdone
      exact absurd hdone (by simp [SpoolWatch.endStale,hc])
  · have hs' := hs ht
    have hst' := hf.publishes _ _ hst
    rcases hcase with rfl | rfl | ⟨-,rfl⟩
    · exact ⟨hs'.onward hst',fun hdone => absurd hdone (by simp [hc])⟩
    · exact ⟨(hs'.onward hst').beginStale hw ht,fun hdone => absurd hdone (by simp [SpoolWatch.beginStale,hc])⟩
    · exact ⟨hs'.beginWaiting hf hst,fun hdone => absurd hdone (by simp [SpoolWatch.beginWaiting,setDocument,hc])⟩
  · have hon := (hs ht).onward (hf.publishes _ _ hsm)
    have hsound : Sound m v ∧ v.waiting=false ∧ v.source=w.source ∧ v.lastSize=w.lastSize := by
      rcases hv with rfl | ⟨-,rfl⟩
      · exact ⟨hon.endStale,hw,rfl,rfl⟩
      · exact ⟨hon.beginStale hw ht,hw,rfl,rfl⟩
    obtain ⟨hv',hvw,hvs,hvl⟩ := hsound
    obtain ⟨hsound',hww,htt,hlen,hcomp,hsrc⟩ := takeArrived_sound hf h hv' hvw (by rw [hvs]; exact ht)
      (by rw [hvl,hvs]; exact hle)
    refine ⟨hsound',?_⟩
    intro hdone
    refine ⟨hcomp.symm.trans hdone,hww,htt,hlen,?_⟩
    rcases hsrc with hsrc | ⟨n,hmn,hn⟩
    · exact Or.inl (hsrc.trans hvs)
    · exact Or.inr ⟨n,hf.trans _ _ _ hsm hmn,hn⟩

/-- A tick keeps the invariant. One that completes has found the fetch complete before it found
the size its index covers. -/
theorem checkNow_sound (h : (w.checkNow p tick).Runs later s seen w' t) (hs : Sound s w) :
    Sound t w' ∧ (w'.completed=true→w.completed=false→∃m n,m.state=.complete ∧ later s m ∧ later m n ∧ later m t ∧
      Latched n t w'.source ∧ w'.waiting=false ∧ w'.source.truncated=false ∧
      w'.document.source.length=w'.source.size) := by
  rcases checkNow_cases hf h with ⟨hst,rfl⟩ | ⟨hc,-,u,seen',v,hsu,hv,rfl⟩ | ⟨hc,hw,m₁,m₂,rest,-,h₁,h₂,hcase⟩
  · refine ⟨hs.onward (hf.publishes _ _ hst),?_⟩
    intro hdone hc
    simp [hdone] at hc
  · obtain ⟨m,rest,-,hum,hmt,hre,hvw,-,hcomp,-⟩ := resume_spec hf hv
    have hland := (hf.publishes _ _ (hf.trans _ _ _ hsu (hf.trans _ _ _ hum hmt))).landed hs.landed
    have hre' : Reopened m t v.syncBaseline :=
      ⟨hre.latched,hre.truncated,hre.opened,hre.content,hre.size,hre.covers⟩
    refine ⟨hre'.sound hland (fun _ => hvw) (Or.inl hre.size.ge),?_⟩
    intro hdone
    exact absurd (hcomp.symm.trans hdone) (by simp [hc])
  · rcases hcase with ⟨hstale,hmt,rfl⟩ | ⟨asked,seen₁,seen₂,u,v,src,-,hmu,-,hr,hcheck⟩
    · have hst := hf.publishes _ _ (hf.trans _ _ _ h₁ (hf.trans _ _ _ h₂ hmt))
      obtain ⟨hw,ht⟩ := hs.stale hstale
      refine ⟨(hs.onward hst).beginStale hw ht,?_⟩
      intro hdone
      exact absurd hdone (by simp [SpoolWatch.beginStale,hc])
    · have hsu := hf.trans _ _ _ h₁ (hf.trans _ _ _ h₂ hmu)
      obtain ⟨hland,⟨n,_,-,hun,hn⟩,-,hkeep⟩ := (hs.onward (hf.publishes _ _ hsu)).refreshed hf hr
      obtain ⟨hsound,hdone⟩ := checkRefreshed_sound hf hcheck hland hkeep hw hc
      refine ⟨hsound,?_⟩
      intro hcomp _
      obtain ⟨hfin,hww,htt,hlen,hsrc⟩ := hdone hcomp
      have hvt := runs_onward hf hcheck
      have hmv := hf.trans _ _ _ h₂ (hf.trans _ _ _ hmu (runs_onward hf hr))
      have hsize : ∃n,later m₁ n ∧ Latched n t w'.source := by
        rcases hsrc with hsrc | ⟨k,hvk,hk⟩
        · refine ⟨n,hf.trans _ _ _ h₂ (hf.trans _ _ _ hmu hun),?_⟩
          rw [hsrc]
          exact hn.later (hf.publishes _ _ hvt)
        · exact ⟨k,hf.trans _ _ _ hmv hvk,hk⟩
      obtain ⟨k,hmk,hk⟩ := hsize
      exact ⟨m₁,k,by simpa using hfin,h₁,hmk,hf.trans _ _ _ hmv hvt,hk,hww,htt,hlen⟩

omit hf in
theorem Sound.syncBaseline (h : Sound s w) (hread : w.waiting=false→w.source.truncated=false→
    w.document.source.length=w.source.size) : Sound s w.syncBaseline where
  landed := h.landed
  serves := h.serves
  opened := h.opened
  tracked := fun hw ht => ⟨(h.tracked hw ht).content,(h.tracked hw ht).size,Or.inl (hread hw ht).ge,
    (h.tracked hw ht).covers⟩
  stale := h.stale

/-- The start of the watch keeps the invariant, and completes nothing. -/
theorem start_sound {answers : Bool} (h : (w.start p answers).Runs later s seen w' t) (hs : Sound s w)
    (hstale : w.stale=false) (hc : w.completed=false)
    (hlast : w.lastSize=0) (hread : w.waiting=false→w.document.source.length=w.source.size) :
    Sound t w' ∧ w'.completed=false := by
  unfold start at h
  by_cases hset : (w.waiting || w.formatSettled)=true
  · rw [if_pos hset] at h
    obtain ⟨-,rfl,hst⟩ := h
    exact ⟨(hs.onward (hf.publishes _ _ hst)).syncBaseline fun hw _ => hread hw,hc⟩
  · rw [if_neg hset] at h
    obtain ⟨hwait,hformat⟩ : w.waiting=false ∧ w.formatSettled=false := by simpa using hset
    obtain ⟨src,u,seen₁,seen₂,hr,hk,-⟩ := (runs_bind hf (q:=w.source.refreshSize)).mp h
    obtain ⟨hland,⟨m,_,-,-,hl⟩,hopened,hkeep⟩ := hs.refreshed hf hr
    have hnotStale : ∀{P : Prop},w.stale=true→P := fun hst => absurd hst (by simp [hstale])
    -- a source that has truncation to tell is read again by the first tick
    have hrefreshed : Sound u {w with source := src} := by
      by_cases htr : src.truncated=true
      · exact ⟨hland,hl.serves,hopened,fun _ ht => absurd (show src.truncated=false from ht)
          (by simp [htr]),hnotStale⟩
      · exact hkeep (Bool.eq_false_iff.mpr htr)
    dsimp only at hk
    split at hk
    · rename_i hzero
      obtain ⟨-,rfl,hut⟩ := hk
      refine ⟨(hrefreshed.onward (hf.publishes _ _ hut)).syncBaseline ?_,hc⟩
      intro hw ht
      have hsize := (hrefreshed.tracked hw ht).size
      change w.document.source.length=src.size
      change w.document.source.length ≤ src.size at hsize
      omega
    · obtain ⟨v,hv,rfl⟩ := Reads.runs_map hf.trans hf.refl
        (p:=({w with source := src} : SpoolWatch).settleFirstBytes p answers) hk
      rcases settleFirstBytes_spec hf hv hwait hformat with ⟨m,rest,-,hum,hmt,hre,hvw,-,hcomp,hbase⟩ | hv
      · have hlanded := (hf.publishes _ _ (hf.trans _ _ _ hum hmt)).landed hland
        exact ⟨(hre.sound hlanded (fun _ => hvw) hbase).syncBaseline fun _ _ => hre.size,hcomp.trans hc⟩
      · have hle : ({w with source := src} : SpoolWatch).lastSize ≤ src.size := by
          show w.lastSize ≤ src.size
          omega
        obtain ⟨hsound,-,hsrc,hcomp,hlen⟩ := ingestAppended_sound hf hv hrefreshed hwait hle
        refine ⟨hsound.syncBaseline fun _ ht => hlen ?_,hcomp.trans hc⟩
        rw [← hsrc]
        exact ht

/-- What is opened. -/
theorem openDocument_sound (h : (openDocument p d).Runs later s seen w t) (hl : s.Landed) :
    Sound t w ∧ w.stale=false ∧ w.completed=false ∧ w.lastSize=0 ∧
      (w.waiting=false→w.document.source.length=w.source.size) := by
  obtain ⟨src,u,seen₁,seen₂,ho,hk,-⟩ := (runs_bind hf (q:=openSource)).mp h
  obtain ⟨content,v,seen₃,seen₄,hc,hk₂,-⟩ := (runs_bind hf (q:=src.content)).mp hk
  have hvt := runs_onward hf hk₂
  obtain ⟨m,rest,-,hsm,hmt,hl',ht,hn,hlen,hcontent⟩ := runs_opened hf ho hc hvt
  have hlanded := (hf.publishes _ _ (hf.trans _ _ _ hsm hmt)).landed hl
  have hcases : w=⟨⟨(d.settle p content).clearIndex,.none⟩,src,decide (0 < content.length),true,false,0,false⟩ ∨
      w=⟨⟨(d.settle p content).reload content,.none⟩,src,decide (0 < content.length),false,false,0,false⟩ := by
    obtain ⟨gone,x,seen₅,seen₆,-,hk₃,-⟩ := (runs_bind hf (q:=originVanished)).mp hk₂
    cases gone with
    | true => exact Or.inl hk₃.2.1.symm
    | false =>
      obtain ⟨early,y,seen₇,seen₈,-,hk₄,-⟩ := (runs_bind hf (q:=notReadyYet)).mp hk₃
      cases early with
      | true => exact Or.inl hk₄.2.1.symm
      | false => exact Or.inr hk₄.2.1.symm
  rcases hcases with rfl | rfl
  · exact ⟨⟨hlanded,hl'.serves,hn,(nofun),(nofun)⟩,rfl,rfl,rfl,(nofun)⟩
  · have hre : Reopened m t ⟨⟨(d.settle p content).reload content,.none⟩,src,decide (0 < content.length),false,
      false,0,false⟩ :=
      reopened_reload hl' ht hn hlen hcontent rfl rfl
    exact ⟨hre.sound hlanded (nofun) (Or.inl (Nat.zero_le _)),rfl,rfl,rfl,fun _ => hre.size⟩

theorem watched_sound (h : Watched later p d s w) : Sound s w := by
  induction h with
  | start ho hs =>
    obtain ⟨hsound,hstale,hcomp,hlast,hread⟩ := openDocument_sound hf ho SourceSpool.landed_initial
    exact (start_sound hf hs hsound hstale hcomp hlast hread).1
  | publish _ hp ih => exact ih.onward (hf.publishes _ _ hp)
  | tick _ ht ih => exact (checkNow_sound hf ht ih).1

/-- Nothing follows a fetch that was complete: its size was published before it. -/
theorem watched_completed (hfinal : ∀s t,s.state=.complete→later s t→t.generation=s.generation ∧
    t.committed s.generation=s.committed s.generation) (h : Watched later p d s w) (hdone : w.completed=true) :
    ∃m,m.state=.complete ∧ later m s ∧ w.source.generation=m.generation ∧ w.waiting=false ∧
    w.source.truncated=false ∧
      w.document.source.length=m.committed m.generation := by
  induction h with
  | start ho hs =>
    obtain ⟨hsound,hstale,hcomp,hlast,hread⟩ := openDocument_sound hf ho SourceSpool.landed_initial
    have hnot := (start_sound hf hs hsound hstale hcomp hlast hread).2
    simp [hnot] at hdone
  | publish _ hp ih =>
    obtain ⟨m,hm,hms,hrest⟩ := ih hdone
    exact ⟨m,hm,hf.trans _ _ _ hms hp,hrest⟩
  | tick h ht ih =>
    rename_i w w' seen tick
    have hs := watched_sound hf h
    by_cases hc : w.completed=true
    · have hp : w.checkNow p tick=.pure w := by
        unfold checkNow
        rw [if_pos hc]
        rfl
      rw [hp] at ht
      obtain ⟨-,rfl,hst⟩ := ht
      obtain ⟨m,hm,hms,hrest⟩ := ih hc
      exact ⟨m,hm,hf.trans _ _ _ hms hst,hrest⟩
    · obtain ⟨hsound,hnew⟩ := checkNow_sound hf ht hs
      obtain ⟨m,n,hm,hsm,hmn,hmt,hl,hww,htr,hlen⟩ := hnew hdone (Bool.eq_false_iff.mpr hc)
      obtain ⟨hgen,hcomm⟩ := hfinal m n hm hmn
      have hland := (hf.publishes _ _ (hf.trans _ _ _ hsm hmn)).landed hs.landed
      refine ⟨m,hm,hmt,hl.generation.trans hgen,hww,htr,?_⟩
      rw [hlen,hl.size_eq hland hsound.opened,hgen,hcomm]

/-- A watch that reports the fetch as completed has every committed byte in its index: what it
indexed is all the spool has committed, and its records cover it. -/
theorem completed_covers (hfinal : ∀s t,s.state=.complete→later s t→t.generation=s.generation ∧
    t.committed s.generation=s.committed s.generation) (h : Watched later p d s w) (hdone : w.completed=true) :
    w.document.source=(s.files s.generation).take (s.committed s.generation) ∧
      w.document.source.length=s.committed s.generation ∧
      Covered w.document.decoder.bomLength (max w.document.decoder.bomLength (s.committed s.generation))
        w.document.index.records := by
  obtain ⟨m,hm,hms,hgen,hww,htr,hlen⟩ := watched_completed hf hfinal h hdone
  obtain ⟨hgen',hcomm⟩ := hfinal m s hm hms
  have ht := (watched_sound hf h).tracked hww htr
  have hsize : w.document.source.length=s.committed s.generation := by
    rw [hlen,hgen',hcomm]
  refine ⟨?_,hsize,?_⟩
  · have hc := ht.content
    rw [hsize,hgen,← hgen'] at hc
    exact hc
  · rw [← hsize]
    exact ht.covers.covered

/-- A fetcher that does nothing once it has published completion. -/
def Finishing (s t : SourceSpool) : Prop := SourceSpool.Later s t ∧ (s.state=.complete→t=s)

omit hf in
theorem fetching_finishing : SourceSpool.Fetching Finishing where
  refl := fun _ => ⟨.refl,fun _ => rfl⟩
  trans := by
    rintro s t u ⟨hst,hs⟩ ⟨htu,ht⟩
    refine ⟨hst.trans htu,?_⟩
    intro hc
    obtain rfl := hs hc
    exact ht hc
  publishes := fun _ _ h => h.1

omit hf in
/-- Opened on one line, completed with the next. -/
theorem completed_covers_two_lines : ∃s w,
    Watched Finishing .plain Document.bracketed s w ∧
      w.completed=true ∧ s.committed s.generation=5 ∧ w.document.source.length=s.committed s.generation := by
  let s := SourceSpool.initial.publish [.beginGeneration,.write [0x5B,0x61,0x0A],.commit 3,.setState .live]
  let t := s.publish [.write [0x62,0x0A],.commit 5,.setState .complete]
  have hs : Finishing SourceSpool.initial s := ⟨SourceSpool.later_publish _ _,fun h => by cases h⟩
  have hss : Finishing s s := fetching_finishing.refl s
  have hst : Finishing s t := ⟨SourceSpool.later_publish _ _,fun h => by cases h⟩
  have htt : Finishing t t := fetching_finishing.refl t
  have hrun : (((openDocument .plain Document.bracketed).answer (List.replicate 5 s)).bind fun w =>
      ((w.start .plain true).answer []).bind fun w =>
        (w.checkNow .plain ⟨true,true⟩).answer (List.replicate 6 t)).map
      SpoolWatch.completed=some true := by decide +kernel
  obtain ⟨w,hw,hdone⟩ := Option.map_eq_some_iff.mp hrun
  obtain ⟨w₀,h₀,hw⟩ := Option.bind_eq_some_iff.mp hw
  obtain ⟨w₁,h₁,hw⟩ := Option.bind_eq_some_iff.mp hw
  have hopened := Reads.runs_of_answer fetching_finishing.refl h₀ (s:=SourceSpool.initial)
    (by simp [List.replicate,hs,hss])
  have hstarted := Reads.runs_of_answer fetching_finishing.refl h₁ (s:=s) (by simp)
  have hticked := Reads.runs_of_answer fetching_finishing.refl hw (s:=s) (by simp [List.replicate,hst,htt])
  have hwatched : Watched Finishing .plain Document.bracketed t w := (Watched.start hopened hstarted).tick hticked
  exact ⟨t,w,hwatched,hdone,rfl,(completed_covers fetching_finishing
    (fun s t hc h => by rw [h.2 hc]; exact ⟨rfl,rfl⟩)
    hwatched hdone).2.1⟩

end SpoolWatch

end Loftail
