import Loftail.SpoolCompletion

/-! # What a stale document shows, and when it is replaced -/
namespace Loftail
open SourceSpool SpooledLogSource

namespace SpoolWatch
variable {p : Opening} {tick : Tick} {d : Document} {s t : SourceSpool} {seen : List SourceSpool}
  {w w' v : SpoolWatch}

/-- Something of the generation is committed, or the fetcher says that there is nothing. -/
def Shows (m : SourceSpool) : Prop := 0 < m.committed m.generation ∨ m.state=.live ∨ m.state=.complete

/-- The index goes on: the same generation, every record kept, but that the last may be read again. -/
structure Kept (w w' : SpoolWatch) : Prop where
  generation : w'.source.generation=w.source.generation
  records : w.document.index.records.dropLast<+:w'.document.index.records
  length : w.document.index.records.length≤w'.document.index.records.length

/-- No generation that shows nothing begins once the tick has tested for a replacement, and where
the test finds one, what shows nothing neither waits nor is disconnected. -/
def Undisturbed (w : SpoolWatch) (seen : List SourceSpool) : Prop :=
  ∀tested : SourceSpool,tested∈seen[1]?→(∀m∈seen.drop 2,m.generation=tested.generation ∨ Shows m) ∧
    (tested.generation≠w.source.generation→∀asked : SourceSpool,asked∈seen[2]?→asked.committed asked.generation=0→
      asked.state≠.waiting ∧ asked.state≠.disconnected)

theorem Kept.same (hs : w'.source.generation=w.source.generation)
    (hd : w'.document.index.records=w.document.index.records) :
    Kept w w' where
  generation := hs
  records := by
    rw [hd]
    exact List.dropLast_prefix _
  length := hd.symm ▸ le_rfl

theorem Kept.empty (hs : w'.source.generation=w.source.generation) (hd : w.document.index.records=[]) :
    Kept w w' where
  generation := hs
  records := by simp [hd]
  length := by simp [hd]

/-- Appended bytes keep what is there. -/
theorem kept_ingestAppended (h : w.ingestAppended.Runs SourceSpool.Later s seen w' t) (hs : Serves s w.source)
    (ht : Tracked s w) : Kept w w' := by
  obtain ⟨-,hsrc,-,-,-,-,-,hind⟩ := ingestAppended_spec fetching_later h hs
  obtain ⟨-,-,-,hdrop,hmany⟩ := hind ht.covers ht.prefix_files ht.size
  exact ⟨by rw [hsrc],hdrop,hmany⟩

/-- Where bytes that arrived are the first, the log may be opened anew for them. -/
theorem kept_takeArrived {fin : Bool} (h : (w.takeArrived p tick fin).Runs SourceSpool.Later s seen w' t)
    (hs : Sound s w) (hw : w.waiting=false) (ht : w.source.truncated=false) :
    Kept w w' ∨ (0 < w.source.size ∧ ∃m∈seen,m.generation=w'.source.generation) := by
  have hingest : ∀v,w.ingestAppended.Runs SourceSpool.Later s seen v t→Kept w v :=
    fun v hv => kept_ingestAppended hv hs.serves (hs.tracked hw ht)
  rcases takeArrived_cases fetching_later h with ⟨hset,hpos,v,hv,rfl⟩ | ⟨-,-,v,hv,rfl⟩ | ⟨-,-,-,rfl⟩
  · rcases settleFirstBytes_spec fetching_later hv hw hset with ⟨m,rest,rfl,-,-,hre,hvw,-⟩ | hv
    · right
      rw [if_neg (by simp [hvw])]
      exact ⟨hpos,m,by simp,hre.latched.generation.symm⟩
    · left
      have hk := hingest v hv
      split
      · exact hk
      · exact ⟨hk.generation,hk.records,hk.length⟩
  · left
    have hk := hingest v hv
    exact ⟨hk.generation,hk.records,hk.length⟩
  · exact Or.inl (Kept.same rfl rfl)

/-- A tick that does not keep a stale document's records has seen something of the generation it
then reads, or that there is nothing. -/
theorem stale_records (h : Watched SourceSpool.Later p d s w) (hst : w.stale=true)
    (ht : (w.checkNow p tick).Runs SourceSpool.Later s seen w' t) (hu : Undisturbed w seen) :
    Kept w w' ∨ ∃m∈seen,m.generation=w'.source.generation ∧ Shows m := by
  have hs := watched_sound fetching_later h
  obtain ⟨hw,htr⟩ := hs.stale hst
  have htracked := hs.tracked hw htr
  rcases checkNow_cases fetching_later ht with ⟨-,rfl⟩ | ⟨-,hwait,-⟩ | ⟨-,-,m₁,m₂,rest,rfl,h₁,h₂,hcase⟩
  · exact Or.inl (Kept.same rfl rfl)
  · simp [hw] at hwait
  obtain ⟨hstay,hready⟩ := hu m₂ rfl
  simp only [List.drop_succ_cons,List.drop_zero] at hstay
  rcases hcase with ⟨-,-,rfl⟩ | ⟨asked,seen₁,seen₂,u,v,src,rfl,h₃,hasked,hr,hcheck⟩
  · exact Or.inl (Kept.same rfl rfl)
  have hsu : SourceSpool.Later s u := h₁.trans (h₂.trans h₃)
  obtain ⟨-,⟨m,rest,rfl,hum,hl⟩,-,hkeep⟩ := (hs.onward hsu).refreshed fetching_later hr
  have hsm₂ : SourceSpool.Later s m₂ := h₁.trans h₂
  have hgen₂ : w.source.generation ≤ m₂.generation := hs.serves.generation.trans hsm₂.grown.generation
  have hm₂m : m₂.generation ≤ m.generation := (Later.grown (h₃.trans hum)).generation
  obtain ⟨m',_,hm',-,-,hnew,-⟩ := refreshSize_latched hr
  obtain rfl : m=m' := (List.cons.inj hm').1
  rcases checkRefreshed_cases fetching_later hcheck with ⟨hcond,hrescan⟩ | ⟨hrep,hsame,hle,hcase⟩
  · -- the log is read again, from the generation that `n` shows
    obtain ⟨n,rest',rfl,hvn,-,hre,-⟩ := doRescan_spec fetching_later hrescan
    have hmn : m.generation≤n.generation := (Later.grown (hl.before.trans hvn)).generation
    rcases hstay n (by simp) with hn | hn
    · by_cases hne : m₂.generation=w.source.generation
      · left
        have hm : m.generation=w.source.generation := by omega
        have hgrows := refreshSize_grows (hs.onward hsu).serves hr hm
        refine Kept.empty (hre.latched.generation.trans (hn.trans hne)) ?_
        rcases htracked.base with hbase | ⟨-,hnil⟩
        · exfalso
          have hfit := htracked.size
          rcases hcond with hcond | hcond | hcond
          · simp [hne] at hcond
          · change src.truncated=true at hcond
            simp [hgrows.2,htr] at hcond
          · change src.size < w.lastSize at hcond
            omega
        · exact htracked.covers.records_nil hnil
      · right
        rcases hasked with ⟨-,hasked | hasked⟩ | ⟨m₃,rfl,hm₃,hm₃u,hgo⟩
        · exact absurd hasked hne
        · simp [hst] at hasked
        · have hle₃ := (Later.grown (hm₃u.trans hum)).generation
          have hge₃ := hm₃.grown.generation
          have heq : m₃.generation=w'.source.generation := by
            have hn' := hre.latched.generation
            omega
          have hshows : Shows m₃ := by
            rcases hgo with hgo | hgo | hgo | hgo | hgo
            · exact Or.inl hgo
            · exact Or.inr (Or.inl hgo)
            · exact Or.inr (Or.inr hgo)
            all_goals
              left
              by_contra hzero
              obtain ⟨hwaiting,hdisconnected⟩ := hready hne m₃ rfl (Nat.eq_zero_of_not_pos hzero)
              contradiction
          exact ⟨m₃,by simp,heq,hshows⟩
    · exact Or.inr ⟨n,by simp,hre.latched.generation.symm,hn⟩
  · -- the refresh has found the generation the source had
    have hm : m.generation=w.source.generation := by
      by_contra hne
      have htrue : src.truncated=true := hnew hne
      exact absurd hsame (by simp [htrue])
    have hsrc : src.generation=w.source.generation := hl.generation.trans hm
    rcases hcase with ⟨-,rfl | rfl | ⟨hnil,rfl⟩⟩ | ⟨x,y,seen₃,seen₄,hvy,rfl,hx,htake⟩
    · exact Or.inl (Kept.same hsrc rfl)
    · exact Or.inl (Kept.same hsrc rfl)
    · exact Or.inl (Kept.empty hsrc hnil)
    · have hx' : Sound y x ∧ x.source=src ∧ x.document=w.document ∧ x.waiting=false := by
        have hon := (hkeep hsame).onward hvy
        rcases hx with rfl | ⟨-,rfl⟩
        · exact ⟨hon.endStale,rfl,rfl,hw⟩
        · exact ⟨hon.beginStale hw hsame,rfl,rfl,hw⟩
      obtain ⟨hsound,hxs,hxd,hxw⟩ := hx'
      rcases kept_takeArrived htake hsound hxw (by rw [hxs]; exact hsame) with hk | ⟨hpos,n,hn,hgen⟩
      · refine Or.inl ⟨hk.generation.trans (by rw [hxs]; exact hsrc),?_,?_⟩
        · rw [← hxd]
          exact hk.records
        · rw [← hxd]
          exact hk.length
      · right
        rcases hstay n (by simp [hn]) with hn' | hn'
        · refine ⟨m,by simp,?_,Or.inl ?_⟩
          · have hm₂ : m₂.generation=w.source.generation := by simpa using hrep
            omega
          · have hsize := hl.size
            rw [hxs] at hpos
            omega
        · exact ⟨n,by simp [hn],hgen,hn'⟩

/-- The spool of one fetched line, its fetcher following it, and then waiting for the lost link. -/
def oneLine : SourceSpool := SourceSpool.initial.publish
    [.beginGeneration,.write [0x5B,0x61,0x0A],.commit 3,.setState .live]

def lostLink : SourceSpool := oneLine.publish [.setState .waiting]

/-- A reconnect that has begun another generation, one whose transfer then died, and one that
has fetched it. -/
def reconnecting : SourceSpool := lostLink.publish [.setState .priming,.beginGeneration]

def diedPriming : SourceSpool := reconnecting.publish [.setState .error,.setState .waiting]

def reconnected : SourceSpool := reconnecting.publish [.write [0x5B,0x62,0x0A],.commit 3,.setState .live]

/-- A watch that has seen the link go, its one record still shown. -/
theorem watched_lostLink {α : Type} {f : SpoolWatch→Option α} {a : α}
    (h : ((((openDocument .plain Document.bracketed).answer (List.replicate 5 oneLine)).bind fun w =>
      ((w.start .plain true).answer []).bind fun w =>
        (w.checkNow .plain ⟨true,false⟩).answer (List.replicate 5 lostLink)).bind f)=some a) :
    ∃w,Watched SourceSpool.Later .plain Document.bracketed lostLink w ∧ f w=some a := by
  obtain ⟨w,hw,hf⟩ := Option.bind_eq_some_iff.mp h
  obtain ⟨w₀,h₀,hw⟩ := Option.bind_eq_some_iff.mp hw
  obtain ⟨w₁,h₁,hw⟩ := Option.bind_eq_some_iff.mp hw
  have hone : SourceSpool.Later SourceSpool.initial oneLine := SourceSpool.later_publish _ _
  have hlost : SourceSpool.Later oneLine lostLink := SourceSpool.later_publish _ _
  have hopened := Reads.runs_of_answer fetching_later.refl h₀ (s:=SourceSpool.initial)
    (by simp [List.replicate,hone,fetching_later.refl])
  have hstarted := Reads.runs_of_answer fetching_later.refl h₁ (s:=oneLine) (by simp)
  have hticked := Reads.runs_of_answer fetching_later.refl hw (s:=oneLine)
    (by simp [List.replicate,hlost,fetching_later.refl])
  exact ⟨w,(Watched.start hopened hstarted).tick hticked,hf⟩

/-- Replaced by what the reconnect has fetched. -/
theorem stale_records_reconnected : ∃w w',Watched SourceSpool.Later .plain Document.bracketed lostLink w ∧
    (w.checkNow .plain ⟨true,false⟩).Runs SourceSpool.Later lostLink (List.replicate 9 reconnected) w' reconnected ∧
    (Kept w w' ∨ ∃m∈List.replicate 9 reconnected,m.generation=w'.source.generation ∧ Shows m) := by
  obtain ⟨w,hwatched,hw⟩ := watched_lostLink (f:=fun w => if w.stale then
    ((w.checkNow .plain ⟨true,false⟩).answer (List.replicate 9 reconnected)).map fun w' =>
      w'.stale else none) (a:=false)
    (by decide +kernel)
  split at hw
  · rename_i hstale
    obtain ⟨w',hanswer,-⟩ := Option.map_eq_some_iff.mp hw
    have hlater : SourceSpool.Later lostLink reconnected :=
      (SourceSpool.later_publish lostLink _).trans (SourceSpool.later_publish reconnecting _)
    have hrun := Reads.runs_of_answer fetching_later.refl hanswer (s:=lostLink)
      (by simp [List.replicate,hlater,fetching_later.refl])
    refine ⟨w,w',hwatched,hrun,stale_records hwatched hstale hrun ?_⟩
    intro tested htested
    obtain rfl : reconnected=tested := Option.some_inj.mp htested
    refine ⟨?_,?_⟩
    · intro m hm
      exact Or.inl (by rw [List.eq_of_mem_replicate (List.mem_of_mem_drop hm)])
    · intro _ asked hasked hzero
      obtain rfl : reconnected=asked := Option.some_inj.mp hasked
      exact absurd hzero (by decide)
  · cases hw

/-- A stale document loses its record to an empty generation: one whose transfer died before the
tick, and one begun between the tick's replacement test and its refresh. -/
theorem stale_records_lost : ∃w,Watched SourceSpool.Later .plain Document.bracketed lostLink w ∧ w.stale=true ∧
    w.document.index.records.length=1 ∧
    ∀seen∈[List.replicate 9 diedPriming,[lostLink,lostLink]++List.replicate 6 reconnecting],
      ∃w' t,(w.checkNow .plain ⟨true,false⟩).Runs SourceSpool.Later lostLink seen w' t ∧
        w'.document.index.records=[] ∧ ∀m∈seen,¬(m.generation=w'.source.generation ∧ Shows m) := by
  have hdied : SourceSpool.Later lostLink diedPriming :=
    (SourceSpool.later_publish lostLink _).trans (SourceSpool.later_publish reconnecting _)
  have hbegun : SourceSpool.Later lostLink reconnecting := SourceSpool.later_publish lostLink _
  obtain ⟨w,hwatched,hw⟩ := watched_lostLink (f:=fun w =>
    if w.stale=true ∧ w.document.index.records.length=1 then
      ((w.checkNow .plain ⟨true,false⟩).answer (List.replicate 9 diedPriming)).bind fun w₁ =>
        ((w.checkNow .plain ⟨true,false⟩).answer ([lostLink,lostLink]++List.replicate 6 reconnecting)).map fun w₂ =>
          (w₁.document.index.records.length,w₁.source.generation,w₂.document.index.records.length,
            w₂.source.generation)
    else none) (a:=(0,2,0,2)) (by decide +kernel)
  split at hw
  · rename_i hstale
    obtain ⟨w₁,h₁,hw⟩ := Option.bind_eq_some_iff.mp hw
    obtain ⟨w₂,h₂,hw⟩ := Option.map_eq_some_iff.mp hw
    simp only [Prod.mk.injEq,List.length_eq_zero_iff] at hw
    refine ⟨w,hwatched,hstale.1,hstale.2,?_⟩
    intro seen hseen
    rcases List.mem_pair.mp hseen with rfl | rfl
    · refine ⟨w₁,_,Reads.runs_of_answer fetching_later.refl h₁
        (by simp [List.replicate,hdied,fetching_later.refl]),hw.1,?_⟩
      rintro m hm ⟨-,hshows⟩
      obtain rfl := List.eq_of_mem_replicate hm
      exact absurd hshows (by unfold Shows; decide)
    · refine ⟨w₂,_,Reads.runs_of_answer fetching_later.refl h₂
        (by simp [List.replicate,hbegun,fetching_later.refl]),hw.2.2.1,?_⟩
      rintro m hm ⟨hgen,hshows⟩
      rcases List.mem_append.mp hm with hm | hm
      · obtain rfl : m=lostLink := by simpa using hm
        rw [hw.2.2.2] at hgen
        exact absurd hgen (by decide)
      · obtain rfl := List.eq_of_mem_replicate hm
        exact absurd hshows (by unfold Shows; decide)
  · cases hw

end SpoolWatch

end Loftail
