import Loftail.LocalWatch
import Loftail.StaleRecords

/-! # What a watch over a spool has indexed

However the fetcher's publishes fall between the reads of the ticks, the index of a document that does not wait is
the one pass over bytes the spool has committed. -/
namespace Loftail
open SourceSpool SpooledLogSource

namespace SpoolWatch
open LocalWatch (Comes settle_comes)

/-- The index is what one pass over the document's bytes finds; a document that waits has no records. -/
structure Indexes (p : Opening) (own : LogFormat) (w : SpoolWatch) : Prop where
  comes : Comes p own w.document
  indexed : w.waiting=false→Indexed w.document.indexer w.document.source w.document.index
  emptied : w.waiting=true→w.document.index.records=[]

/-- What has come since takes no line back that was taken for the beginning of a record. -/
def Steady (w w' : SpoolWatch) : Prop :=
  ∀more,w'.document.source=w.document.source++more→w.document.indexer.StaysWith w.document.source more

/-- A watch each of whose ticks is steady. -/
inductive SteadyWatch (later : SourceSpool→SourceSpool→Prop) (p : Opening) (d : Document) :
    SourceSpool→SpoolWatch→Prop
  | start {s t : SourceSpool} {w w' : SpoolWatch} {seen seen' : List SourceSpool} {answers : Bool}
      (ho : (openDocument p d).Runs later SourceSpool.initial seen w s)
      (hs : (w.start p answers).Runs later s seen' w' t) :
      SteadyWatch later p d t w'
  | publish {s t : SourceSpool} {w : SpoolWatch} (h : SteadyWatch later p d s w) (hp : later s t) :
    SteadyWatch later p d t w
  | tick {s t : SourceSpool} {w w' : SpoolWatch} {seen : List SourceSpool} {tick : Tick}
    (h : SteadyWatch later p d s w)
      (ht : (w.checkNow p tick).Runs later s seen w' t) (hsteady : Steady w w') : SteadyWatch later p d t w'

theorem SteadyWatch.watched {later : SourceSpool→SourceSpool→Prop} {p : Opening} {d : Document} {s : SourceSpool}
    {w : SpoolWatch} (h : SteadyWatch later p d s w) : Watched later p d s w := by
  induction h with
  | start ho hs => exact .start ho hs
  | publish _ hp ih => exact ih.publish hp
  | tick _ ht _ ih => exact ih.tick ht

section
variable {p : Opening} {own : LogFormat} {w w' : SpoolWatch} {d : Document} {content : Bytes}

theorem steady_of_empty (h : w.document.source=[]) : Steady w w' := by
  intro more _
  rw [h]
  exact Indexer.staysWith_nil _ more

theorem Indexes.same (h : Indexes p own w) (hd : w'.document=w.document) (hw : w'.waiting=w.waiting) :
    Indexes p own w' := by
  refine ⟨hd ▸ h.comes,fun hw' => ?_,fun hw' => ?_⟩
  · rw [hd]
    exact h.indexed (hw ▸ hw')
  · rw [hd]
    exact h.emptied (hw ▸ hw')

theorem reload_indexes (hd : Comes p own d) (hw : w.waiting=false) (hdoc : w.document=d.reload content) :
    Indexes p own w := by
  obtain ⟨hset,hbytes,hindexed⟩ := d.reload_indexed content
  refine ⟨?_,fun _ => ?_,fun hwaits => (nomatch hw.symm.trans hwaits)⟩
  · rw [hdoc]
    exact hd.of_setup hset
  · rw [hdoc,hset,hbytes]
    exact hindexed

theorem clearIndex_indexes (hd : Comes p own d) (hw : w.waiting=true) (hdoc : w.document=d.clearIndex) :
    Indexes p own w := by
  refine ⟨?_,fun hruns => (nomatch hw.symm.trans hruns),fun _ => ?_⟩
  · rw [hdoc]
    exact hd.of_setup d.clearIndex_toSetup
  · rw [hdoc,Document.clearIndex_records]

end

variable {later : SourceSpool→SourceSpool→Prop} (hf : SourceSpool.Fetching later) {p : Opening} {own : LogFormat}
  {t : Tick} {fin replaced : Bool} {s u : SourceSpool} {seen : List SourceSpool} {w w' : SpoolWatch}
include hf

private theorem doRescan_indexes (h : w.doRescan.Runs later s seen w' u) (hi : Indexes p own w)
    (hw : w.waiting=false) :
    Indexes p own w' := by
  obtain ⟨-,-,src,content,-,-,-,-,-,-,-,-,rfl⟩ := runs_reopen hf h
  exact reload_indexes hi.comes hw rfl

theorem resume_indexes (h : (w.resume p).Runs later s seen w' u) (hi : Indexes p own w) : Indexes p own w' := by
  obtain ⟨-,-,src,content,-,-,-,-,-,-,-,-,rfl⟩ := runs_reopen hf h
  have hcomes : Comes p own (if w.formatSettled then w.document else w.document.settle p content) := by
    split
    · exact hi.comes
    · exact settle_comes hi.comes.format content
  exact reload_indexes hcomes rfl rfl

private theorem resume_empty (h : (w.resume p).Runs later s seen w' u) (hset : w'.formatSettled=false) :
    w'.document.source=[] := by
  obtain ⟨-,-,src,content,-,-,-,-,-,-,-,-,rfl⟩ := runs_reopen hf h
  obtain ⟨-,hempty⟩ := Bool.or_eq_false_iff.mp hset
  rw [decide_eq_false_iff_not] at hempty
  exact ((Document.reload_indexed _ _).2.1).trans (List.length_eq_zero_iff.mp (by omega))

/-- What arrived is read on from the last record. -/
theorem ingestAppended_indexes (hsteady : Steady w w') (h : w.ingestAppended.Runs later s seen w' u)
    (hi : Indexes p own w) (hs : Serves s w.source) (hw : w.waiting=false)
    (hpre : w.document.source<+:s.files w.source.generation)
    (hle : w.document.source.length ≤ w.source.size) : Indexes p own w' := by
  obtain ⟨content,v,seen₁,seen₂,hc,hr,-⟩ := (runs_bind hf (q:=w.source.content)).mp h
  obtain ⟨-,hw',-⟩ := hr
  obtain ⟨-,hcontent⟩ := runs_content hf hs hc
  have hsv := hf.publishes _ _ (runs_onward hf hc)
  obtain ⟨more,hmore⟩ : w.document.source<+:content := by
    rw [hcontent,List.prefix_take_iff]
    exact ⟨hpre.trans (hsv.grown.files _ hs.generation),hle⟩
  have htick : w'.controller=w.controller.tick more ∧ w'.waiting=w.waiting := by
    rw [← hw',LiveController.tick,Document.appendBytes]
    rw [← hmore]
    split
    · exact ⟨rfl,rfl⟩
    · exact ⟨rfl,rfl⟩
  have hdoc : w'.document=(w.controller.tick more).document := congrArg LiveController.document htick.1
  have hgrown : w'.document.source=w.document.source++more := by
    rw [hdoc]
    exact w.controller.tick_source more
  have hwhole := Indexed.tick (c:=w.controller) (hsteady more hgrown) (hi.indexed hw)
  refine ⟨?_,fun _ => hdoc ▸ hwhole,fun hwaits => ?_⟩
  · rw [hdoc]
    exact hi.comes.of_setup (w.controller.tick_toSetup more)
  · rw [htick.2,hw] at hwaits
    cases hwaits

theorem settleFirstBytes_indexes (hsteady : Steady w w') {answers : Bool}
    (h : (w.settleFirstBytes p answers).Runs later s seen w' u) (hi : Indexes p own w) (hs : Serves s w.source)
    (hw : w.waiting=false) (hset : w.formatSettled=false) (hpre : w.document.source<+:s.files w.source.generation)
    (hle : w.document.source.length ≤ w.source.size) : Indexes p own w' := by
  cases answers with
  | false =>
    have hingest : w.settleFirstBytes p false=w.ingestAppended := by simp [settleFirstBytes,hw,hset]
    rw [hingest] at h
    exact ingestAppended_indexes hf hsteady h hi hs hw hpre hle
  | true =>
    obtain ⟨v,m,seen₁,seen₂,hv,hk,-⟩ := (runs_bind hf (q:=w.resume p)).mp h
    have hv' := resume_indexes hf hv hi
    obtain ⟨_,_,-,-,-,hre,hrunning,-⟩ := resume_spec hf hv
    dsimp only at hk
    rw [if_neg (by simp [hrunning])] at hk
    split at hk
    · obtain ⟨-,rfl,-⟩ := hk
      exact hv'.same rfl rfl
    · rename_i hset'
      have hempty := resume_empty hf hv (Bool.eq_false_iff.mpr hset')
      refine ingestAppended_indexes hf (steady_of_empty hempty) hk hv' hre.latched.serves hrunning ?_ hre.size.le
      rw [hre.content]
      exact List.take_prefix _ _

private theorem takeArrived_indexes (hsteady : Steady w w') (h : (w.takeArrived p t fin).Runs later s seen w' u)
    (hi : Indexes p own w) (hs : Sound s w) (hw : w.waiting=false) (ht : w.source.truncated=false) :
    Indexes p own w' := by
  have htracked := hs.tracked hw ht
  rcases takeArrived_cases hf h with ⟨hset,-,v,hv,rfl⟩ | ⟨-,-,v,hv,rfl⟩ | ⟨-,-,-,rfl⟩
  · have hread : Steady w v := by
      intro more hmore
      apply hsteady more
      split
      · exact hmore
      · exact hmore
    have hv' := settleFirstBytes_indexes hf hread hv hi hs.serves hw hset htracked.prefix_files htracked.size
    split
    · exact hv'
    · exact hv'.same rfl rfl
  · have hread : Steady w v := hsteady
    exact (ingestAppended_indexes hf hread hv hi hs.serves hw htracked.prefix_files htracked.size).same rfl rfl
  · exact hi.same rfl rfl

private theorem checkRefreshed_indexes (hsteady : Steady w w')
    (h : (w.checkRefreshed p t fin replaced).Runs later s seen w' u) (hi : Indexes p own w)
    (hs : w.source.truncated=false→Sound s w) (hw : w.waiting=false) : Indexes p own w' := by
  rcases checkRefreshed_cases hf h with ⟨-,h⟩ | ⟨-,ht,-,⟨-,hcase⟩ | ⟨v,m,seen₁,seen₂,hsm,-,hv,h⟩⟩
  · exact doRescan_indexes hf h (hi.same rfl rfl) hw
  · rcases hcase with rfl | rfl | ⟨-,rfl⟩
    · exact hi
    · exact hi.same rfl rfl
    · exact clearIndex_indexes hi.comes rfl rfl
  · have hon := (hs ht).onward (hf.publishes _ _ hsm)
    have hv' : Sound m v ∧ Indexes p own v ∧ v.waiting=false ∧ v.source.truncated=false ∧ Steady v w' := by
      rcases hv with rfl | ⟨-,rfl⟩
      · exact ⟨hon.endStale,hi.same rfl rfl,hw,ht,hsteady⟩
      · exact ⟨hon.beginStale hw ht,hi.same rfl rfl,hw,ht,hsteady⟩
    obtain ⟨hsound,hindexes,hvw,hvt,hvsteady⟩ := hv'
    exact takeArrived_indexes hf hvsteady h hindexes hsound hvw hvt

private theorem checkNow_indexes (hsteady : Steady w w') (h : (w.checkNow p t).Runs later s seen w' u)
    (hi : Indexes p own w) (hs : Sound s w) : Indexes p own w' := by
  rcases checkNow_cases hf h with ⟨-,rfl⟩ | ⟨-,-,m,seen',v,-,hv,rfl⟩ | ⟨-,hw,m₁,m₂,rest,-,h₁,h₂,hcase⟩
  · exact hi
  · exact (resume_indexes hf hv hi).same rfl rfl
  · rcases hcase with ⟨-,-,rfl⟩ | ⟨asked,seen₁,seen₂,m,v,src,-,hm,-,hr,hcheck⟩
    · exact hi.same rfl rfl
    · have hsm := hf.trans _ _ _ h₁ (hf.trans _ _ _ h₂ hm)
      obtain ⟨-,-,-,hkeep⟩ := (hs.onward (hf.publishes _ _ hsm)).refreshed hf hr
      have hfresh : Steady {w with source := src} w' := hsteady
      exact checkRefreshed_indexes hf hfresh hcheck (hi.same rfl rfl) hkeep hw

/-- What is opened: it waits, or is read; where nothing was there to settle a format by, nothing was read. -/
theorem openDocument_indexes {d : Document} (h : (openDocument p d).Runs later s seen w u) :
    Indexes p d.format w ∧ (w.waiting=false→w.formatSettled=false→w.document.source=[]) := by
  obtain ⟨src,v,seen₁,seen₂,-,hk,-⟩ := (runs_bind hf (q:=openSource)).mp h
  obtain ⟨content,m,seen₃,seen₄,-,hk₂,-⟩ := (runs_bind hf (q:=src.content)).mp hk
  have hcomes : Comes p d.format (d.settle p content) := settle_comes (Or.inl rfl) content
  have hread : w=⟨⟨(d.settle p content).reload content,.none⟩,src,decide (0 < content.length),false,false,0,false⟩→
      Indexes p d.format w ∧ (w.waiting=false→w.formatSettled=false→w.document.source=[]) := by
    rintro rfl
    refine ⟨reload_indexes hcomes rfl rfl,fun _ hset => ?_⟩
    rw [decide_eq_false_iff_not] at hset
    exact ((Document.reload_indexed _ _).2.1).trans (List.length_eq_zero_iff.mp (by omega))
  have hgone : w=⟨⟨(d.settle p content).clearIndex,.none⟩,src,decide (0 < content.length),true,false,0,false⟩→
      Indexes p d.format w ∧ (w.waiting=false→w.formatSettled=false→w.document.source=[]) := by
    rintro rfl
    exact ⟨clearIndex_indexes hcomes rfl rfl,fun hwaits => nomatch hwaits⟩
  obtain ⟨gone,x,seen₅,seen₆,-,hk₃,-⟩ := (runs_bind hf (q:=originVanished)).mp hk₂
  cases gone with
  | true => exact hgone hk₃.2.1.symm
  | false =>
    obtain ⟨early,y,seen₇,seen₈,-,hk₄,-⟩ := (runs_bind hf (q:=notReadyYet)).mp hk₃
    cases early with
    | true => exact hgone hk₄.2.1.symm
    | false => exact hread hk₄.2.1.symm

private theorem start_indexes {answers : Bool} (h : (w.start p answers).Runs later s seen w' u)
    (hi : Indexes p own w) (hs : Sound s w) (hempty : w.waiting=false→w.formatSettled=false→w.document.source=[]) :
    Indexes p own w' := by
  unfold start at h
  by_cases hset : (w.waiting || w.formatSettled)=true
  · rw [if_pos hset] at h
    obtain ⟨-,rfl,-⟩ := h
    exact hi.same rfl rfl
  · rw [if_neg hset] at h
    obtain ⟨hwaiting,hformat⟩ : w.waiting=false ∧ w.formatSettled=false := by simpa using hset
    have hnil := hempty hwaiting hformat
    obtain ⟨src,m,seen₁,seen₂,hr,hk,-⟩ := (runs_bind hf (q:=w.source.refreshSize)).mp h
    obtain ⟨-,⟨n,_,-,-,hl⟩,-⟩ := hs.refreshed hf hr
    dsimp only at hk
    split at hk
    · obtain ⟨-,rfl,-⟩ := hk
      exact hi.same rfl rfl
    · obtain ⟨v,hv,rfl⟩ := Reads.runs_map hf.trans hf.refl
        (p:=({w with source := src} : SpoolWatch).settleFirstBytes p answers) hk
      have hpre : w.document.source<+:m.files src.generation := by
        rw [hnil]
        exact List.nil_prefix
      have hle : w.document.source.length ≤ src.size := by
        rw [hnil]
        exact Nat.zero_le _
      have hfirst : Indexes p own {w with source := src} := hi.same rfl rfl
      have hread : Steady {w with source := src} v := steady_of_empty hnil
      exact (settleFirstBytes_indexes hf hread hv hfirst hl.serves hwaiting hformat hpre hle).same rfl rfl

theorem watched_indexes {d : Document} (h : SteadyWatch later p d s w) : Indexes p d.format w := by
  induction h with
  | start ho hs =>
    obtain ⟨hi,hempty⟩ := openDocument_indexes hf ho
    obtain ⟨hsound,-⟩ := openDocument_sound hf ho SourceSpool.landed_initial
    exact start_indexes hf hs hi hsound hempty
  | publish _ _ ih => exact ih
  | tick h ht hsteady ih => exact checkNow_indexes hf hsteady ht ih (watched_sound hf h.watched)

/-- Where every line that begins a record begins one however it grows, every watch is steady. -/
theorem Watched.steady {d : Document} (hstay : ∀d',Comes p d.format d'→d'.indexer.StartsStay)
    (h : Watched later p d s w) :
    SteadyWatch later p d s w := by
  induction h with
  | start ho hs => exact .start ho hs
  | publish _ hp ih => exact ih.publish hp
  | @tick _ _ w _ _ _ _ ht ih =>
    exact ih.tick ht fun more _ => (hstay w.document (watched_indexes hf ih).comes).staysWith _ more

/-- However a fetcher goes on between the reads of a watch, a document that does not wait has the index of one pass
over its bytes; and where its source has no truncation to tell, these are the first bytes of the generation it
reads, all of them committed. -/
theorem watched_one_pass {d : Document} (h : SteadyWatch later p d s w) :
    (w.waiting=true→w.document.index.records=[]) ∧
    (w.waiting=false→Indexed w.document.indexer w.document.source w.document.index ∧
      (w.source.truncated=false→w.document.source=(s.files w.source.generation).take w.document.source.length ∧
        w.document.source.length ≤ s.committed w.source.generation)) := by
  have hi := watched_indexes hf h
  have hs := watched_sound hf h.watched
  refine ⟨hi.emptied,fun hw => ⟨hi.indexed hw,fun ht => ?_⟩⟩
  have htracked := hs.tracked hw ht
  exact ⟨htracked.content,htracked.size.trans hs.serves.committed⟩

omit hf in
/-- A line that was fetched before the link was lost. -/
theorem watched_one_pass_stale : ∃w,Watched SourceSpool.Later .plain Document.bracketed lostLink w ∧
    w.document.index.records.length=1 ∧ Indexed w.document.indexer [0x5B,0x61,0x0A] w.document.index := by
  obtain ⟨w,hw,hshown⟩ := watched_lostLink (f:=fun w => if w.waiting then none else
    some (w.document.source,w.document.index.records.length)) (a:=([0x5B,0x61,0x0A],1)) (by decide +kernel)
  split at hshown
  · cases hshown
  · rename_i hwaiting
    obtain ⟨hbytes,hrecords⟩ := Prod.mk.inj (Option.some_inj.mp hshown)
    have hsteady := Watched.steady SourceSpool.fetching_later (fun _ => LocalWatch.bracketed_startsStay) hw
    have hone := (watched_one_pass SourceSpool.fetching_later hsteady).2
      (Bool.eq_false_iff.mpr hwaiting)
    exact ⟨w,hw,hrecords,hbytes ▸ hone.1⟩

end SpoolWatch

end Loftail
