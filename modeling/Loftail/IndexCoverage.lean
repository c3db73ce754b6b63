import Loftail.RunList
import Loftail.SpoolWatch

/-! # What the index of a document that is read again, or read on, covers -/
namespace Loftail
open StartGroups

/-- Records that follow one another from `start` to `stop`, each as long as what it spans, up to
the greatest length a record can have. -/
def Covered : ℕ→ℕ→List Record→Prop
  | start,stop,[] => start=stop
  | start,stop,r::rs => r.offset=start ∧ ∃span,r.length=min span kMaxLength ∧ Covered (start+span) stop rs

theorem covered_append {start stop : ℕ} {rs rs' : List Record} :
    Covered start stop (rs++rs')↔∃mid,Covered start mid rs ∧ Covered mid stop rs' := by
  induction rs generalizing start with
  | nil =>
    constructor
    · intro h
      exact ⟨start,rfl,h⟩
    · rintro ⟨mid,rfl,h⟩
      exact h
  | cons r rs ih =>
    constructor
    · rintro ⟨ho,span,hl,h⟩
      obtain ⟨mid,h₁,h₂⟩ := ih.mp h
      exact ⟨mid,⟨ho,span,hl,h₁⟩,h₂⟩
    · rintro ⟨mid,⟨ho,span,hl,h₁⟩,h₂⟩
      exact ⟨ho,span,hl,ih.mpr ⟨mid,h₁,h₂⟩⟩

private theorem covered_le {start stop : ℕ} {rs : List Record} (h : Covered start stop rs) : start ≤ stop := by
  induction rs generalizing start with
  | nil => exact le_of_eq h
  | cons r rs ih =>
    obtain ⟨-,span,-,h⟩ := h
    exact (Nat.le_add_right _ _).trans (ih h)

private theorem covered_of_views {ix : Indexer} {l t : InternTable} {start : ℕ} {rs : List Record}
    {gs : List (Group ix.isStart)}
    (h : rs.map (Record.view l t)=ix.groupViews start gs) : Covered start (start+ix.spans gs) rs := by
  induction gs generalizing start rs with
  | nil =>
    obtain rfl : rs=[] := by simpa [Indexer.groupViews] using h
    rfl
  | cons g gs ih =>
    cases rs with
    | nil => simp [Indexer.groupViews] at h
    | cons r rs =>
      simp only [List.map_cons,Indexer.groupViews,List.cons.injEq] at h
      have ho := congrArg RecordView.offset h.1
      have hl := congrArg RecordView.length h.1
      simp only [Record.view,Indexer.groupView] at ho hl
      refine ⟨ho,ix.span g,hl,?_⟩
      have hrest := ih h.2
      simpa [Indexer.spans,Nat.add_assoc] using hrest

/-- A pass over some bytes covers them. -/
theorem covered_of_lineFold {ix : Indexer} {content : Bytes} {start : ℕ} {rs : List Record} {l t : InternTable}
    (h : rs.map (Record.view l t)=ix.lineFold content start) : Covered start (max start content.length) rs := by
  have hc := covered_of_views h
  rw [Indexer.spans_lineGroups] at hc
  convert hc using 1
  omega

/-- The index of a document, whatever grew in between, covers the bytes it was brought up to. -/
structure Covers (d : Document) : Prop where
  placed : Placed d.source d.index.records
  covered : Covered d.decoder.bomLength (max d.decoder.bomLength d.source.length) d.index.records

/-- Where there are no bytes there are no records. -/
theorem Covers.records_nil {d : Document} (h : Covers d) (hn : d.source=[]) : d.index.records=[] := by
  by_contra hne
  obtain ⟨r,hr⟩ := List.exists_mem_of_ne_nil _ hne
  have hin := h.placed.inside r hr
  have hpos := h.placed.pos r hr
  rw [hn,List.length_nil] at hin
  omega

namespace Document
variable {d : Document}

@[simp] theorem applyFilters_toSetup (d : Document) : d.applyFilters.toSetup=d.toSetup := by
  unfold applyFilters
  split <;> rfl

@[simp] theorem refreshHighlighting_toSetup (d : Document) : d.refreshHighlighting.toSetup=d.toSetup := by
  rw [refreshHighlighting,rebuildDigest_eq]
  rfl

theorem reload_spec (d : Document) (content : Bytes) :
    (d.reload content).toSetup=d.toSetup ∧ (d.reload content).source=content ∧ Covers (d.reload content) := by
  obtain ⟨hset,hsrc,hidx,-⟩ := d.rescan_spec content
  have hk : KeepsRuns (d.rescan content) (d.reload content) := by
    unfold reload
    dsimp only
    split
    · exact (keepsRuns_refreshHighlighting _).trans (keepsRuns_applyFilters _)
    · exact keepsRuns_refreshHighlighting _
  have hset' : (d.reload content).toSetup=d.toSetup := by
    unfold reload
    dsimp only
    split <;> simp [hset]
  have hdec : (d.reload content).decoder=d.decoder := congrArg Setup.decoder hset'
  have hsrc' : (d.reload content).source=content := hk.source.trans hsrc
  refine ⟨hset',hsrc',?_,?_⟩
  · rw [hsrc',hk.index]
    exact (placed_of_lineFold hidx.views).1
  · rw [hsrc',hk.index,hdec]
    exact covered_of_lineFold hidx.views

@[simp] theorem clearIndex_records (d : Document) : d.clearIndex.index.records=[] := by
  unfold clearIndex
  dsimp only
  rw [invalidateRunMemos,recomputeViewBounds_eq]
  rfl

end Document

/-- What appended bytes leave: the index covers them, no record is lost, and those before the
provisional one are as they were. -/
theorem LiveController.tick_covers (c : LiveController) (more : Bytes) (h : Covers c.document) :
    Covers (c.tick more).document ∧ c.document.index.records.dropLast<+:(c.tick more).document.index.records ∧
      c.document.index.records.length≤(c.tick more).document.index.records.length := by
  obtain ⟨tail,hrec,hne,-,-,hplaced⟩ := c.tick_records more h.placed
  refine ⟨⟨hplaced,?_⟩,⟨tail,hrec.symm⟩,c.tick_length more h.placed⟩
  have hbom : (c.tick more).document.decoder.bomLength=c.document.decoder.bomLength := by
    rw [c.tick_toSetup more]
  obtain ⟨tail',l,t,hscan,hcase⟩ := c.tick_cases more
  have htail : (c.tick more).document.index.records=c.document.index.records.dropLast++tail' := by
    rcases hcase with ⟨rfl,he⟩ | ⟨-,he⟩
    · have hnil : c.document.index.records=[] := hscan.records_of_tail_nil h.placed (List.prefix_append _ _)
      simp [he,hnil]
    · rw [he,runMatchActions_index,ingested_index,Document.ingestIndex_records]
      rfl
  have hsource : (c.tick more).document.source=(c.document.appendBytes more).source := c.tick_source more
  rw [htail,hbom,hsource,covered_append]
  have hviews := covered_of_lineFold hscan.views
  have hlen : c.document.source.length≤(c.document.appendBytes more).source.length := by
    simp [Document.appendBytes]
  cases hlast : c.document.index.records.getLast? with
  | none =>
    have hnil : c.document.index.records=[] := List.getLast?_eq_none_iff.mp hlast
    have hstart : (c.document.appendBytes more).startOffset=c.document.decoder.bomLength := by
      simp [Document.startOffset,Document.appendBytes,hnil]
    rw [hstart] at hviews
    exact ⟨_,by simp [hnil,Covered],hviews⟩
  | some last =>
    have hsplit := Document.dropLast_append_last hlast
    have hcov := h.covered
    rw [← hsplit,covered_append] at hcov
    obtain ⟨mid,hfront,ho,-⟩ := hcov
    have hstart : (c.document.appendBytes more).startOffset=last.offset := by
      simp [Document.startOffset,Document.appendBytes,hlast]
    have hin := h.placed.inside last (List.mem_of_getLast? hlast)
    have hle := covered_le hfront
    rw [hstart,ho] at hviews
    refine ⟨mid,hfront,?_⟩
    convert hviews using 1
    omega

end Loftail
