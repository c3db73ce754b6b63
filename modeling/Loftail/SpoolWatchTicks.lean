import Loftail.IndexCoverage

/-! # What the steps of a watch tick leave -/
namespace Loftail
open Reads

/-- What is seen of a fetcher: it goes on from where it is, and does nothing but publish. -/
structure SourceSpool.Fetching (later : SourceSpool→SourceSpool→Prop) : Prop where
  refl : ∀s,later s s
  trans : ∀s t u,later s t→later t u→later s u
  publishes : ∀s t,later s t→SourceSpool.Later s t

theorem SourceSpool.fetching_later : SourceSpool.Fetching SourceSpool.Later :=
  ⟨fun _ => .refl,fun _ _ _ h h' => h.trans h',fun _ _ h => h⟩

open SourceSpool SpooledLogSource

namespace SpoolWatch
variable {later : SourceSpool→SourceSpool→Prop} (hf : SourceSpool.Fetching later) {p : Opening} {tick : Tick}
  {fin replaced : Bool} {s t : SourceSpool} {seen : List SourceSpool} {src : SpooledLogSource} {w w' : SpoolWatch}
include hf

theorem runs_bind {α β : Type} {q : Reads SourceSpool α} {f : α→Reads SourceSpool β} {b : β} :
    (q.bind f).Runs later s seen b t↔∃a m seen₁ seen₂,q.Runs later s seen₁ a m ∧ (f a).Runs later m seen₂ b t ∧
      seen=seen₁++seen₂ := Reads.runs_bind hf.trans hf.refl

theorem runs_onward {α : Type} {q : Reads SourceSpool α} {a : α} (h : q.Runs later s seen a t) : later s t :=
  h.onward hf.trans

/-- The content is the file's, as far as the source reports it. -/
theorem runs_content {content : Bytes} (hs : Serves s src) (h : src.content.Runs later s seen content t) :
    content.length=src.size ∧ content=(t.files src.generation).take src.size := by
  obtain ⟨m,hm,-,rfl,ht⟩ := runs_look h
  have hm' := hs.later (hf.publishes _ _ hm)
  have hle := hm'.fits
  refine ⟨by simpa using hle,?_⟩
  obtain ⟨rest,hrest⟩ := (hf.publishes _ _ ht).grown.files _ hm'.generation
  rw [← hrest,List.take_append_of_le_length hle]

/-- A document over a source opened anew, `m` the spool the source was opened on. -/
structure Reopened (m t : SourceSpool) (w : SpoolWatch) : Prop where
  latched : Latched m t w.source
  truncated : w.source.truncated=false
  opened : w.source.inner=none→w.source.generation=0
  content : w.document.source=(t.files w.source.generation).take w.source.size
  size : w.document.source.length=w.source.size
  covers : Covers w.document

omit hf in
/-- A document that is read again over a source just opened. -/
theorem reopened_reload {m : SourceSpool} {d : Document} (hl : Latched m t src) (ht : src.truncated=false)
    (ho : src.inner=none→src.generation=0) {content : Bytes} (hlen : content.length=src.size)
    (hc : content=(t.files src.generation).take src.size) (hs : w.source=src) (hd : w.document=d.reload content) :
    Reopened m t w := by
  obtain ⟨-,hsrc,hcovers⟩ := d.reload_spec content
  subst hs
  refine ⟨hl,ht,ho,?_,?_,?_⟩
  · rw [hd,hsrc]
    exact hc
  · rw [hd,hsrc]
    exact hlen
  · rw [hd]
    exact hcovers

/-- A source opened anew and its content. -/
theorem runs_opened {u v : SourceSpool} {seen₁ seen₂ : List SourceSpool} {content : Bytes}
    (ho : openSource.Runs later s seen₁ src u) (hc : src.content.Runs later u seen₂ content v) (hvt : later v t) :
    ∃m rest,seen₁=m::rest ∧ later s m ∧ later m t ∧ Latched m t src ∧ src.truncated=false ∧
      (src.inner=none→src.generation=0) ∧ content.length=src.size ∧
      content=(t.files src.generation).take src.size := by
  obtain ⟨-,ht⟩ := openSource_serves (ho.mono hf.publishes)
  obtain ⟨m,rest,rfl,-,hl,hnone⟩ := openSource_latched (ho.mono hf.publishes)
  obtain ⟨hsm,hmu⟩ := ho.between hf.trans (List.mem_cons_self (a:=m))
  have huv := runs_onward hf hc
  obtain ⟨hlen,hcontent⟩ := runs_content hf hl.serves hc
  have hv := hl.later (hf.publishes _ _ huv)
  refine ⟨m,rest,rfl,hsm,hf.trans _ _ _ hmu (hf.trans _ _ _ huv hvt),hv.later (hf.publishes _ _ hvt),ht,?_,hlen,?_⟩
  · intro hn
    rw [hl.generation]
    exact hnone hn
  · obtain ⟨more,hmore⟩ := (hf.publishes _ _ hvt).grown.files _ hv.serves.generation
    rw [← hmore,List.take_append_of_le_length hv.serves.fits]
    exact hcontent

/-- A document that is read again with the source. -/
theorem runs_reopen {f : SpooledLogSource→Bytes→SpoolWatch}
    (h : (openSource.bind fun src => src.content.bind fun content => .pure
      (f src content)).Runs later s seen w' t) :
    ∃m rest src content,seen=m::rest ∧ later s m ∧ later m t ∧ Latched m t src ∧ src.truncated=false ∧
      (src.inner=none→src.generation=0) ∧ content.length=src.size ∧
      content=(t.files src.generation).take src.size ∧ w'=f src content := by
  obtain ⟨src,u,seen₁,seen₂,ho,hk,rfl⟩ := (runs_bind hf).mp h
  obtain ⟨content,v,seen₃,seen₄,hc,hr,rfl⟩ := (runs_bind hf).mp hk
  obtain ⟨-,rfl,hvt⟩ := hr
  obtain ⟨m,rest,rfl,hsm,hmt,hl,ht,hn,hlen,hcontent⟩ := runs_opened hf ho hc hvt
  exact ⟨m,rest++(seen₃++seen₄),src,content,by simp,hsm,hmt,hl,ht,hn,hlen,hcontent,rfl⟩

theorem doRescan_spec (h : w.doRescan.Runs later s seen w' t) :
    ∃m rest,seen=m::rest ∧ later s m ∧ later m t ∧ Reopened m t w' ∧ w'.lastSize=w'.source.size ∧
      w'.waiting=w.waiting ∧ w'.stale=w.stale ∧ w'.completed=w.completed ∧ w'.formatSettled=w.formatSettled := by
  obtain ⟨m,rest,src,content,hseen,hsm,hmt,hl,ht,ho,hlen,hc,rfl⟩ := runs_reopen hf h
  exact ⟨m,rest,hseen,hsm,hmt,reopened_reload hl ht ho hlen hc rfl rfl,rfl,rfl,rfl,rfl,rfl⟩

theorem resume_spec (h : (w.resume p).Runs later s seen w' t) :
    ∃m rest,seen=m::rest ∧ later s m ∧ later m t ∧ Reopened m t w' ∧ w'.waiting=false ∧ w'.stale=w.stale ∧
      w'.completed=w.completed ∧ w'.formatSettled=(w.formatSettled || decide (0 < w'.source.size)) ∧
      w'.lastSize=w.lastSize := by
  obtain ⟨m,rest,src,content,hseen,hsm,hmt,hl,ht,ho,hlen,hc,rfl⟩ := runs_reopen hf h
  refine ⟨m,rest,hseen,hsm,hmt,reopened_reload hl ht ho hlen hc rfl rfl,rfl,rfl,rfl,?_,rfl⟩
  show (w.formatSettled || decide (0 < content.length))=(w.formatSettled || decide (0 < src.size))
  rw [hlen]

/-- What the appended bytes leave where the index covered those before them. -/
theorem ingestAppended_spec (h : w.ingestAppended.Runs later s seen w' t) (hs : Serves s w.source) :
    later s t ∧ w'.source=w.source ∧ w'.waiting=w.waiting ∧ w'.stale=w.stale ∧ w'.completed=w.completed ∧
      w'.formatSettled=w.formatSettled ∧ (w'.lastSize=w.lastSize ∨ w'.lastSize=w.source.size) ∧
      (Covers w.document→w.document.source<+:s.files w.source.generation→w.document.source.length ≤ w.source.size→
        Covers w'.document ∧ w'.document.source=(t.files w.source.generation).take w.source.size ∧
          w'.document.source.length=w.source.size ∧
          w.document.index.records.dropLast<+:w'.document.index.records ∧
          w.document.index.records.length≤w'.document.index.records.length) := by
  obtain ⟨content,u,seen₁,seen₂,hc,hr,-⟩ := (runs_bind hf (q:=w.source.content)).mp h
  obtain ⟨-,hw,hut⟩ := hr
  have hsu := runs_onward hf hc
  obtain ⟨hlen,hcontent⟩ := runs_content hf hs hc
  have hcases : (w'.source=w.source ∧ w'.waiting=w.waiting ∧ w'.stale=w.stale ∧ w'.completed=w.completed ∧
      w'.formatSettled=w.formatSettled ∧ (w'.lastSize=w.lastSize ∨ w'.lastSize=w.source.size)) ∧
      w'.controller=({w.controller with document := {w.document with source := content}} :
        LiveController).ingestAppended := by
    rw [← hw]
    split
    · exact ⟨⟨rfl,rfl,rfl,rfl,rfl,Or.inl rfl⟩,rfl⟩
    · exact ⟨⟨rfl,rfl,rfl,rfl,rfl,Or.inr rfl⟩,rfl⟩
  obtain ⟨⟨h₁,h₂,h₃,h₄,h₅,h₆⟩,hcontroller⟩ := hcases
  refine ⟨hf.trans _ _ _ hsu hut,h₁,h₂,h₃,h₄,h₅,h₆,?_⟩
  intro hcov hpre hle
  have hpre' : w.document.source<+:content := by
    rw [hcontent,List.prefix_take_iff]
    exact ⟨hpre.trans ((hf.publishes _ _ hsu).grown.files _ hs.generation),hle⟩
  obtain ⟨more,hmore⟩ := hpre'
  have htick : w'.controller=w.controller.tick more := by
    rw [hcontroller,LiveController.tick,Document.appendBytes]
    rw [← hmore]
    rfl
  obtain ⟨hcov',hdrop,hmany⟩ := w.controller.tick_covers more hcov
  have hsource : w'.document.source=content := by
    rw [document,htick,LiveController.tick_source]
    exact hmore
  refine ⟨?_,?_,?_,?_,?_⟩
  · rw [document,htick]
    exact hcov'
  · have hu := hs.later (hf.publishes _ _ hsu)
    obtain ⟨rest,hrest⟩ := (hf.publishes _ _ hut).grown.files _ hu.generation
    have hle' : w.source.size≤(u.files w.source.generation).length := by
      rw [hcontent,List.length_take] at hlen
      omega
    rw [hsource,hcontent,← hrest,List.take_append_of_le_length hle']
  · rw [hsource]
    exact hlen
  · rw [document,document,htick]
    exact hdrop
  · rw [document,document,htick]
    exact hmany

omit hf in
/-- The index covers bytes of the adopted generation, no further than the source reports, and the
last size seen is not past them. -/
structure Tracked (t : SourceSpool) (w : SpoolWatch) : Prop where
  content : w.document.source=(t.files w.source.generation).take w.document.source.length
  size : w.document.source.length ≤ w.source.size
  base : w.lastSize≤w.document.source.length ∨ (w.formatSettled=false ∧ w.document.source=[])
  covers : Covers w.document

omit hf in
theorem Tracked.prefix_files (h : Tracked t w) : w.document.source<+:t.files w.source.generation := by
  rw [h.content]
  exact List.take_prefix _ _

omit hf in
theorem Reopened.tracked {m : SourceSpool} (h : Reopened m t w)
    (hb : w.lastSize≤w.document.source.length ∨ (w.formatSettled=false ∧ w.document.source=[])) : Tracked t w where
  content := by
    rw [h.size]
    exact h.content
  size := h.size.le
  base := hb
  covers := h.covers

omit hf in
theorem Tracked.onward (h : Tracked s w) (hs : Serves s w.source) (hl : SourceSpool.Later s t) : Tracked t w where
  content := by
    obtain ⟨more,hmore⟩ := hl.grown.files _ hs.generation
    rw [← hmore,List.take_append_of_le_length (h.size.trans hs.fits)]
    exact h.content
  size := h.size
  base := h.base
  covers := h.covers

omit hf in
theorem Reopened.onward {m : SourceSpool} (h : Reopened m s w) (hl : SourceSpool.Later s t) : Reopened m t w :=
  {h with
    latched := h.latched.later hl
    content := by
      obtain ⟨more,hmore⟩ := hl.grown.files _ h.latched.serves.generation
      rw [← hmore,List.take_append_of_le_length h.latched.serves.fits]
      exact h.content}

/-- The first bytes are read by the owner's resume, or as appended ones. -/
theorem settleFirstBytes_spec {answers : Bool} (h : (w.settleFirstBytes p answers).Runs later s seen w' t)
    (hw : w.waiting=false) (hset : w.formatSettled=false) :
    (∃m rest,seen=m::rest ∧ later s m ∧ later m t ∧ Reopened m t w' ∧ w'.waiting=false ∧ w'.stale=w.stale ∧
      w'.completed=w.completed ∧
      (w'.lastSize≤w'.document.source.length ∨ (w'.formatSettled=false ∧ w'.document.source=[]))) ∨
    w.ingestAppended.Runs later s seen w' t := by
  cases answers with
  | false =>
    have hp : w.settleFirstBytes p false=w.ingestAppended := by simp [settleFirstBytes,hw,hset]
    rw [hp] at h
    exact Or.inr h
  | true =>
    obtain ⟨v,u,seen₁,seen₂,hv,hk,rfl⟩ := (runs_bind hf (q:=w.resume p)).mp h
    obtain ⟨m,rest,rfl,hsm,hmu,hre,hvw,hst,hcomp,hfs,hlast⟩ := resume_spec hf hv
    left
    dsimp only at hk
    rw [if_neg (by simp [hvw])] at hk
    by_cases hsettled : v.formatSettled=true
    · rw [if_pos hsettled] at hk
      obtain ⟨rfl,rfl,hut⟩ := hk
      have hre' := hre.onward (hf.publishes _ _ hut)
      exact ⟨m,rest++[],rfl,hsm,hf.trans _ _ _ hmu hut,
        ⟨hre'.latched,hre'.truncated,hre'.opened,hre'.content,hre'.size,
        hre'.covers⟩,hvw,hst,hcomp,Or.inl hre.size.ge⟩
    · rw [if_neg hsettled] at hk
      have hzero : v.source.size=0 := by
        rw [hfs,hset,Bool.false_or,decide_eq_true_eq] at hsettled
        omega
      obtain ⟨hut,hsrc,hwait,hstale,hcompleted,hformat,-,hind⟩ := ingestAppended_spec hf hk hre.latched.serves
      have hpre : v.document.source<+:u.files v.source.generation := by
        rw [hre.content]
        exact List.take_prefix _ _
      obtain ⟨hcov,hcontent,hlen,-⟩ := hind hre.covers hpre hre.size.le
      have hre' : Reopened m t w' := by
        refine ⟨?_,?_,?_,?_,?_,hcov⟩
        · rw [hsrc]
          exact hre.latched.later (hf.publishes _ _ hut)
        · rw [hsrc]
          exact hre.truncated
        · rw [hsrc]
          exact hre.opened
        · rw [hsrc]
          exact hcontent
        · rw [hsrc]
          exact hlen
      refine ⟨m,rest++seen₂,rfl,hsm,hf.trans _ _ _ hmu hut,hre',hwait.trans hvw,hstale.trans hst,
        hcompleted.trans hcomp,Or.inr ⟨?_,?_⟩⟩
      · rw [hformat]
        exact Bool.eq_false_iff.mpr hsettled
      · exact List.eq_nil_of_length_eq_zero (hlen.trans hzero)

theorem takeArrived_cases (h : (w.takeArrived p tick fin).Runs later s seen w' t) :
    (w.formatSettled=false ∧ 0 < w.source.size ∧ ∃v,(w.settleFirstBytes p tick.answers).Runs later s seen v t ∧
      w'=if v.waiting then v else v.finish fin) ∨
    ((w.formatSettled=true ∨ w.source.size=0) ∧ w.lastSize < w.source.size ∧
      ∃v,w.ingestAppended.Runs later s seen v t ∧ w'=v.finish fin) ∨
    ((w.formatSettled=true ∨ w.source.size=0) ∧ w.source.size≤w.lastSize ∧ later s t ∧
      w'=w.syncBaseline.finish fin) := by
  unfold takeArrived at h
  by_cases hset : w.formatSettled=false ∧ 0 < w.source.size
  · rw [if_pos (by simp [hset])] at h
    obtain ⟨v,hv,rfl⟩ := Reads.runs_map hf.trans hf.refl (p:=w.settleFirstBytes p tick.answers) h
    exact Or.inl ⟨hset.1,hset.2,v,hv,rfl⟩
  · have hset' : w.formatSettled=true ∨ w.source.size=0 := by
      rw [not_and_or,Bool.not_eq_false] at hset
      exact hset.imp id Nat.eq_zero_of_not_pos
    rw [if_neg (by simpa using hset)] at h
    right
    by_cases hgrown : w.lastSize < w.source.size
    · rw [if_pos hgrown] at h
      obtain ⟨v,hv,rfl⟩ := Reads.runs_map hf.trans hf.refl (p:=w.ingestAppended) h
      exact Or.inl ⟨hset',hgrown,v,hv,rfl⟩
    · rw [if_neg hgrown] at h
      obtain ⟨-,rfl,hst⟩ := h
      exact Or.inr ⟨hset',Nat.le_of_not_lt hgrown,hst,rfl⟩

private theorem checkDelivery_cases (h : w.checkDelivery.Runs later s seen w' t) :
    (w'=w.endStale ∨ (w.stale=true ∧ w'=w.beginStale)) ∧ later s t := by
  unfold checkDelivery at h
  by_cases hstale : w.stale=true
  · rw [if_pos hstale] at h
    obtain ⟨delivering,hd,rfl⟩ := Reads.runs_map hf.trans hf.refl (p:=isDelivering) h
    refine ⟨?_,runs_onward hf hd⟩
    cases delivering with
    | false => exact Or.inr ⟨hstale,rfl⟩
    | true => exact Or.inl rfl
  · rw [if_neg hstale] at h
    exact ⟨Or.inl h.2.1.symm,h.2.2⟩

/-- After the refresh a log is read again, is gone, or its arrived bytes are taken. -/
theorem checkRefreshed_cases (h : (w.checkRefreshed p tick fin replaced).Runs later s seen w' t) :
    ((replaced=true ∨ w.source.truncated=true ∨ w.source.size < w.lastSize) ∧
      w.endStale.doRescan.Runs later s seen w' t) ∨
    (replaced=false ∧ w.source.truncated=false ∧ w.lastSize ≤ w.source.size ∧
      ((later s t ∧ (w'=w ∨ w'=w.beginStale ∨ (w.document.index.records=[] ∧ w'=w.beginWaiting))) ∨
        ∃v m seen₁ seen₂,later s m ∧ seen=seen₁++seen₂ ∧ (v=w.endStale ∨ (w.stale=true ∧ v=w.beginStale)) ∧
          (v.takeArrived p tick fin).Runs later m seen₂ w' t)) := by
  unfold checkRefreshed at h
  by_cases hnew : replaced=true ∨ w.source.truncated=true ∨ w.source.size < w.lastSize
  · rw [if_pos (by simpa [or_assoc] using hnew)] at h
    exact Or.inl ⟨hnew,h⟩
  · rw [if_neg (by simpa [or_assoc] using hnew)] at h
    push Not at hnew
    refine Or.inr ⟨Bool.eq_false_iff.mpr hnew.1,Bool.eq_false_iff.mpr hnew.2.1,hnew.2.2,?_⟩
    obtain ⟨gone,m,seen₁,seen₂,hg,hk,rfl⟩ := (runs_bind hf (q:=originVanished)).mp h
    have hsm := runs_onward hf hg
    cases gone with
    | true =>
      obtain ⟨rfl,hw',hmt⟩ := hk
      refine Or.inl ⟨hf.trans _ _ _ hsm hmt,?_⟩
      rw [← hw']
      split
      · exact Or.inl rfl
      · split
        · exact Or.inr (Or.inl rfl)
        · rename_i hcached
          exact Or.inr (Or.inr ⟨by simpa [canShowCachedWhileGone] using hcached,rfl⟩)
    | false =>
      obtain ⟨v,u,seen₃,seen₄,hv,hr,rfl⟩ := (runs_bind hf (q:=w.checkDelivery)).mp hk
      obtain ⟨hcase,hmu⟩ := checkDelivery_cases hf hv
      exact Or.inr ⟨v,u,seen₁++seen₃,seen₄,hf.trans _ _ _ hsm hmu,by simp,hcase,hr⟩

private theorem checkWhileWaiting_cases (h : (w.checkWhileWaiting p tick).Runs later s seen w' t) :
    (later s t ∧ w'=w) ∨ ∃u seen' v,later s u ∧ (w.resume p).Runs later u seen' v t ∧ w'=v.syncBaseline := by
  obtain ⟨gone,m,seen₁,seen₂,hg,hk,-⟩ := (runs_bind hf (q:=originVanished)).mp h
  have hsm := runs_onward hf hg
  cases gone with
  | true =>
    obtain ⟨-,rfl,hmt⟩ := hk
    exact Or.inl ⟨hf.trans _ _ _ hsm hmt,rfl⟩
  | false =>
    obtain ⟨early,u,seen₃,seen₄,he,hr,-⟩ := (runs_bind hf (q:=notReadyYet)).mp hk
    have hsu := hf.trans _ _ _ hsm (runs_onward hf he)
    dsimp only at hr
    split at hr
    · obtain ⟨-,rfl,hut⟩ := hr
      exact Or.inl ⟨hf.trans _ _ _ hsu hut,rfl⟩
    · obtain ⟨v,hv,rfl⟩ := Reads.runs_map hf.trans hf.refl (p:=w.resume p) hr
      exact Or.inr ⟨u,seen₄,v,hsu,hv,rfl⟩

omit hf in
/-- What lets a tick go on from a stale document's source that was replaced: bytes, or a state in
which none are on their way. -/
def GoesOn (m : SourceSpool) : Prop :=
  0 < m.committed m.generation ∨ m.state=.live ∨ m.state=.complete ∨ m.state=.disconnected ∨ m.state=.waiting

omit hf in
private theorem runs_notReadyYet {early : Bool} (h : notReadyYet.Runs later s seen early t) :
    ∃m,seen=[m] ∧ later s m ∧ later m t ∧ (early=false→GoesOn m) := by
  obtain ⟨m,hsm,hseen,rfl,hmt⟩ := runs_look h
  refine ⟨m,hseen,hsm,hmt,?_⟩
  intro hearly
  by_cases hc : 0 < m.committed m.generation
  · exact Or.inl hc
  · right
    rw [if_neg (show ¬0 < m.status.committedSize from hc)] at hearly
    cases hstate : m.state <;> simp_all [SourceSpool.status]

/-- A tick that is not over at once has looked at the state, then at the generation, and where a
stale document's source was replaced at what is on its way; only then it refreshes the source. -/
theorem checkNow_cases (h : (w.checkNow p tick).Runs later s seen w' t) :
    (later s t ∧ w'=w) ∨
    (w.completed=false ∧ w.waiting=true ∧ ∃u seen' v,later s u ∧ (w.resume p).Runs later u seen' v t ∧
      w'=v.syncBaseline) ∨
    (w.completed=false ∧ w.waiting=false ∧ ∃m₁ m₂ rest,seen=m₁::m₂::rest ∧ later s m₁ ∧ later m₁ m₂ ∧
      ((w.stale=true ∧ later m₂ t ∧ w'=w.beginStale) ∨
        ∃asked seen₁ seen₂ u v src,rest=asked++(seen₁++seen₂) ∧ later m₂ u ∧
          ((asked=[] ∧ (m₂.generation=w.source.generation ∨ w.stale=false)) ∨ ∃m₃,asked=[m₃] ∧ later m₂ m₃ ∧
            later m₃ u ∧ GoesOn m₃) ∧
          w.source.refreshSize.Runs later u seen₁ src v ∧
          (({w with source := src} : SpoolWatch).checkRefreshed p tick (decide (m₁.state=.complete))
            (decide (m₂.generation≠w.source.generation))).Runs later v seen₂ w' t)) := by
  unfold checkNow at h
  by_cases hdone : w.completed=true
  · rw [if_pos hdone] at h
    exact Or.inl ⟨h.2.2,h.2.1.symm⟩
  · rw [if_neg hdone] at h
    have hdone' := Bool.eq_false_iff.mpr hdone
    by_cases hwait : w.waiting=true
    · rw [if_pos hwait] at h
      rcases checkWhileWaiting_cases hf h with hsame | hresumed
      · exact Or.inl hsame
      · exact Or.inr (Or.inl ⟨hdone',hwait,hresumed⟩)
    · rw [if_neg hwait] at h
      right
      right
      refine ⟨hdone',Bool.eq_false_iff.mpr hwait,?_⟩
      obtain ⟨m₁,rest₁,h₁,rfl,hk⟩ := h
      obtain ⟨m₂,rest₂,h₂,rfl,hk₂⟩ := hk
      refine ⟨m₁,m₂,rest₂,rfl,h₁,h₂,?_⟩
      replace hk₂ : (w.checkReplaced p tick (decide (m₁.state=.complete))
        (decide (m₂.generation≠w.source.generation))).Runs later m₂ rest₂ w' t := hk₂
      unfold checkReplaced at hk₂
      by_cases hask : (decide (m₂.generation≠w.source.generation) && w.stale)=true
      · rw [if_pos hask] at hk₂
        obtain ⟨early,u,seen₁,seen₂,he,hr,rfl⟩ := (runs_bind hf (q:=notReadyYet)).mp hk₂
        obtain ⟨m₃,rfl,h₃,hu,hgo⟩ := runs_notReadyYet he
        have hstale := ((Bool.and_eq_true _ _).mp hask).2
        cases early with
        | true => exact Or.inl ⟨hstale,hf.trans _ _ _ (hf.trans _ _ _ h₃ hu) hr.2.2,hr.2.1.symm⟩
        | false =>
          obtain ⟨src,v,seen₃,seen₄,hsrc,hcheck,rfl⟩ := (runs_bind hf (q:=w.source.refreshSize)).mp hr
          exact Or.inr ⟨[m₃],seen₃,seen₄,u,v,src,rfl,hf.trans _ _ _ h₃ hu,Or.inr ⟨m₃,rfl,h₃,hu,hgo rfl⟩,hsrc,hcheck⟩
      · rw [if_neg hask] at hk₂
        obtain ⟨src,v,seen₁,seen₂,hsrc,hcheck,rfl⟩ := (runs_bind hf (q:=w.source.refreshSize)).mp hk₂
        refine Or.inr ⟨[],seen₁,seen₂,m₂,v,src,rfl,hf.refl _,Or.inl ⟨rfl,?_⟩,hsrc,hcheck⟩
        simpa [or_iff_not_imp_left] using hask

end SpoolWatch

end Loftail
