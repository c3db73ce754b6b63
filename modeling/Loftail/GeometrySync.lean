import Loftail.EstimatedGeometry

/-! # The estimated geometry of a growing view stays that of its rows -/
namespace Loftail
open BlockPrefixSums

namespace EstimatedGeometry

/-- The measured heights of a block's leading rows. -/
def cachedHeights (g : EstimatedGeometry) (b : ℕ) : List ℕ := (g.recordLines b).getD []

/-- The leading `k` rows of a block. -/
def rowsOf (records : List Record) (b k : ℕ) : List Record := (records.drop (b*kBlockSize)).take k

/-- A block's line total: -1 where nothing is cached. -/
def lineTotal : Option (List ℕ)→ℤ
  | none => -1
  | some lines => lines.sum

/-- The running total before each of the first `k` blocks. -/
def prefixSums (height : ℕ→ℤ) (k : ℕ) : List ℤ := (List.range k).map (fun b => ((List.range b).map height).sum)

theorem prefixLoop_eq (height : ℕ→ℤ) (blocks : ℕ) :
    prefixLoop height blocks=(prefixSums height blocks,((List.range blocks).map height).sum) := by
  induction blocks with
  | zero => rfl
  | succ k ih =>
    rw [prefixLoop,List.range_succ,List.foldl_append]
    rw [prefixLoop] at ih
    rw [ih]
    simp [prefixSums,List.range_succ]

private theorem prefixLoop_sums (height : ℕ→ℤ) (blocks : ℕ) :
    (prefixLoop height blocks).1++[(prefixLoop height blocks).2]=prefixSums height (blocks+1) := by
  rw [prefixLoop_eq]
  simp [prefixSums,List.range_succ]

/-- Vectors of one length, and a cache that accounts for the line totals. -/
structure Cached (g : EstimatedGeometry) (blocks : ℕ) : Prop where
  lines : g.blockLines.length=blocks
  measured : g.blockMeasuredPhysical.length=blocks
  physical : g.blockPhysical.length=blocks
  keyed : ∀b,blocks≤b → g.recordLines b=none
  nonempty : ∀b,g.recordLines b≠some []
  width : ∀b,(g.cachedHeights b).length≤kBlockSize
  total : ∀b<blocks,g.blockLines.getD b 0=lineTotal (g.recordLines b)
  bare : ∀b<blocks,g.recordLines b=none → g.blockMeasuredPhysical.getD b 0=0

/-- The two aggregates are sums over the blocks. -/
structure Counted (g : EstimatedGeometry) : Prop where
  visual : g.measuredVisual=((List.range g.blockLines.length).map (fun b => ((g.cachedHeights b).sum : ℤ))).sum
  physical : g.measuredPhysical=((List.range g.blockLines.length).map
    (fun b => g.blockMeasuredPhysical.getD b 0)).sum

/-- The prefix sums are those of the heights, for a view of `n` rows. -/
structure Totals (g : EstimatedGeometry) (n : ℕ) : Prop where
  sums : g.linePrefix=prefixSums (g.blockLinesOf n) (g.blockPhysical.length+1)
  total : g.total=((List.range g.blockPhysical.length).map (g.blockLinesOf n)).sum
  whole : g.measuredBlocks=(List.range g.blockLines.length).countP (g.isBlockMeasured n)

section Rebuild
variable {g : EstimatedGeometry} {blocks : ℕ}

theorem cached_rebuild (h : Cached g blocks) (n : ℕ) : Cached (g.rebuild n) blocks :=
  ⟨h.lines,h.measured,h.physical,h.keyed,h.nonempty,h.width,h.total,h.bare⟩

theorem counted_rebuild (h : Counted g) (n : ℕ) : Counted (g.rebuild n) := ⟨h.visual,h.physical⟩

theorem totals_rebuild {n : ℕ} (h : g.measuredBlocks=(List.range g.blockLines.length).countP
    (g.isBlockMeasured n)) :
    Totals (g.rebuild n) n where
  sums := prefixLoop_sums _ _
  total := by
    show (prefixLoop (g.blockLinesOf n) g.blockPhysical.length).2=_
    rw [prefixLoop_eq]
    rfl
  whole := h

/-- A sum over the blocks that have a cache is one over all blocks. -/
theorem sum_filter_zero {p : ℕ→Bool} {f f' : ℕ→ℤ} {bs : List ℕ} (hp : ∀b∈bs,p b=true→f b=f' b)
    (hn : ∀b∈bs,p b=false→f' b=0) : ((bs.filter p).map f).sum=(bs.map f').sum := by
  induction bs with
  | nil => rfl
  | cons b bs ih =>
    have hi := ih (fun x hx => hp x (by simp [hx])) (fun x hx => hn x (by simp [hx]))
    cases hb : p b with
    | true => simp [hb,hi,hp b (by simp) hb]
    | false => simp [hb,hi,hn b (by simp) hb]

private theorem refreshTotals_spec (h : Cached g blocks) (n : ℕ) :
    Cached (g.refreshTotals n) blocks ∧ Counted (g.refreshTotals n) ∧ Totals (g.refreshTotals n) n := by
  have hc : Cached (g.recount n) blocks :=
    ⟨h.lines,h.measured,h.physical,h.keyed,h.nonempty,h.width,h.total,h.bare⟩
  have hcache : (g.recount n).recordLines=g.recordLines := rfl
  refine ⟨cached_rebuild hc n,counted_rebuild (g:=g.recount n) ⟨?_,?_⟩ n,totals_rebuild (g:=g.recount n) rfl⟩
  · refine sum_filter_zero (fun b hb hp => ?_) (fun b hb hp => ?_)
    all_goals
      have hlt : b<blocks := by simpa [h.lines] using hb
      rw [h.total b hlt] at hp
      simp only [cachedHeights,hcache]
    · rw [h.total b hlt]
      cases hc : g.recordLines b with
      | none => simp [hc,lineTotal] at hp
      | some lines => rfl
    · cases hc : g.recordLines b with
      | none => rfl
      | some lines =>
        rw [hc,lineTotal] at hp
        exact absurd (Int.natCast_nonneg _) (of_decide_eq_false hp)
  · refine sum_filter_zero (fun b hb hp => rfl) (fun b hb hp => ?_)
    have hlt : b<blocks := by simpa [h.lines] using hb
    rw [h.total b hlt] at hp
    cases hc : g.recordLines b with
    | none => exact h.bare b hlt hc
    | some lines =>
      rw [hc,lineTotal] at hp
      exact absurd (Int.natCast_nonneg _) (of_decide_eq_false hp)

end Rebuild

section Rows
variable {base live extra : List Record} {b k : ℕ}

@[simp] theorem rowsOf_zero (records : List Record) (b : ℕ) : rowsOf records b 0=[] := by simp [rowsOf]

@[simp] theorem physical_nil : physical []=0 := rfl

/-- Rows in front of the old trailing one are what they were. -/
theorem rowsOf_grown (hg : live=base.dropLast++extra) (hk : b*kBlockSize+k≤base.length-1) :
    rowsOf live b k=rowsOf base b k := by
  have htake : live.take (base.length-1)=base.take (base.length-1) := by
    rw [hg,← List.dropLast_eq_take,List.take_left' List.length_dropLast]
  have h := congrArg (fun xs => (xs.take (b*kBlockSize+k)).drop (b*kBlockSize)) htake
  simp only [List.take_take,Nat.min_eq_left hk,List.drop_take,Nat.add_sub_cancel_left] at h
  exact h

theorem physical_rows_add (records : List Record) (b : ℕ) {j k : ℕ} (h : j≤k) :
    physical (rowsOf records b k)=physical (rowsOf records b j)+physical ((rowsOf records b k).drop j) := by
  have hj : rowsOf records b j=(rowsOf records b k).take j := by simp [rowsOf,List.take_take,Nat.min_eq_left h]
  rw [hj,physical,physical,physical,← Nat.cast_add,total_take_add_drop]

theorem physicalOf_eq {idx : RecordIndex} (hs : idx.SumsValid) (hb : b<blocksFor idx.records.length kBlockSize) :
    physicalOf idx b=physical (rowsOf idx.records b kBlockSize) := by
  have hpos : 0 < idx.records.length := by
    by_contra hz
    have hz : idx.records.length=0 := by omega
    rw [hz,blocksFor_zero (by decide)] at hb
    omega
  have hlast := last_mul_lt (B:=kBlockSize) (by decide) hpos
  have hle : b*kBlockSize≤(blocksFor idx.records.length kBlockSize-1)*kBlockSize :=
    Nat.mul_le_mul_right _ (by omega)
  have htake : idx.records.take (min (b*kBlockSize+kBlockSize) idx.records.length)=
      idx.records.take (b*kBlockSize+kBlockSize) := by
    rw [← List.take_take,List.take_length]
  rw [physicalOf,hs.firstLineOfRecord (Nat.min_le_right _ _),hs.firstLineOfRecord (by omega),htake,physical]
  have hadd := total_take_add_drop RecordIndex.displayLines (b*kBlockSize)
    (idx.records.take (b*kBlockSize+kBlockSize))
  rw [List.take_take,Nat.min_eq_left (Nat.le_add_right _ _),List.drop_take,Nat.add_sub_cancel_left] at hadd
  rw [← hadd,rowsOf]
  omega

end Rows

section Measuring
variable {g : EstimatedGeometry} {idx : RecordIndex} {blocks b : ℕ} {lines : List ℕ}

theorem getD_set_eq {α : Type} {xs : List α} {i j : ℕ} {x d : α} (hi : i<xs.length) :
    (xs.set i x).getD j d=if i=j then x else xs.getD j d := by
  simp only [List.getD_eq_getElem?_getD,List.getElem?_set]
  split
  · rfl
  · rfl

/-- What the cache holds of a block's heights. -/
def entry (lines : List ℕ) : Option (List ℕ) := if lines=[] then none else some lines

@[simp] theorem entry_getD (lines : List ℕ) : (entry lines).getD []=lines := by
  unfold entry
  split
  · rename_i h
    rw [h]
    rfl
  · rfl

theorem setBlockMeasurement_eq (g : EstimatedGeometry) (idx : RecordIndex) (b : ℕ) (lines : List ℕ) :
    g.setBlockMeasurement idx b lines={g with
      recordLines := fun b' => if b=b' then entry lines else g.recordLines b'
      blockLines := g.blockLines.set b (lineTotal (entry lines))
      blockMeasuredPhysical := g.blockMeasuredPhysical.set b (physical (rowsOf idx.records b lines.length))} := by
  have hupd (v : Option (List ℕ)) : Function.update g.recordLines b v=fun b' =>
    if b=b' then v else g.recordLines b' := by
    funext b'
    by_cases hb : b=b'
    · subst hb
      simp
    · rw [if_neg hb,Function.update_of_ne (Ne.symm hb)]
  unfold setBlockMeasurement entry
  split
  · rename_i hl
    subst hl
    simp [hupd,lineTotal]
  · simp [hupd,lineTotal,rowsOf]

/-- A block takes the heights and the physical lines of the rows they are of; no other is touched. -/
theorem setBlockMeasurement_spec (h : Cached g blocks) (hb : b<blocks) :
    (∀b',(g.setBlockMeasurement idx b lines).cachedHeights b'=if b=b' then lines else g.cachedHeights b') ∧
      ∀b',(g.setBlockMeasurement idx b lines).blockMeasuredPhysical.getD b' 0=
        if b=b' then physical (rowsOf idx.records b lines.length) else g.blockMeasuredPhysical.getD b' 0 := by
  rw [setBlockMeasurement_eq]
  refine ⟨fun b' => ?_,fun b' => getD_set_eq (by rw [h.measured]; exact hb)⟩
  simp only [cachedHeights]
  split
  · exact entry_getD lines
  · rfl

theorem setBlockMeasurement_cached (h : Cached g blocks) (hb : b<blocks) (hl : lines.length≤kBlockSize) :
    Cached (g.setBlockMeasurement idx b lines) blocks := by
  have hspec := @setBlockMeasurement_spec _ idx _ _ lines h hb
  refine ⟨?_,?_,?_,fun b' hb' => ?_,fun b' => ?_,fun b' => ?_,fun b' hb' => ?_,?_⟩
  · rw [setBlockMeasurement_eq]
    simpa using h.lines
  · rw [setBlockMeasurement_eq]
    simpa using h.measured
  · rw [setBlockMeasurement_eq]
    exact h.physical
  · rw [setBlockMeasurement_eq]
    exact (if_neg (by omega)).trans (h.keyed b' hb')
  · rw [setBlockMeasurement_eq]
    dsimp only
    split
    · unfold entry
      split <;> simp_all
    · exact h.nonempty b'
  · rw [hspec.1]
    split
    · exact hl
    · exact h.width b'
  · rw [setBlockMeasurement_eq]
    dsimp only
    rw [getD_set_eq (by rw [h.lines]; exact hb)]
    split
    · rfl
    · exact h.total b' hb'
  · intro b' hb' hn
    rw [hspec.2]
    rw [setBlockMeasurement_eq] at hn
    dsimp only at hn
    split
    · rename_i hbb
      rw [if_pos hbb] at hn
      have hl : lines=[] := by
        have := congrArg (Option.getD · []) hn
        simpa using this
      rw [hl]
      simp
    · rename_i hbb
      rw [if_neg hbb] at hn
      exact h.bare b' hb' hn

end Measuring

/-- A block's measured physical total is that of its cached rows: as they were when the view was
last brought up to date, or as they are. Rows taken away since may be counted for anything. -/
def Vouched (g : EstimatedGeometry) (base live : List Record) (b : ℕ) : Prop :=
  (b*kBlockSize+(g.cachedHeights b).length≤base.length ∧
      g.blockMeasuredPhysical.getD b 0=physical (rowsOf base b (g.cachedHeights b).length)) ∨
    (b*kBlockSize+(g.cachedHeights b).length≤live.length ∧
      g.blockMeasuredPhysical.getD b 0=physical (rowsOf live b (g.cachedHeights b).length)) ∨
    (live.length<b*kBlockSize+(g.cachedHeights b).length ∧ live.length<base.length)

/-- A geometry last brought up to date with the rows `base`, of a view that has the rows `live`. -/
structure Kept (g : EstimatedGeometry) (base live : List Record) : Prop where
  cached : Cached g (blocksFor base.length kBlockSize)
  counted : Counted g
  totals : Totals g base.length ∨ Totals g live.length
  bound : g.boundRecords=base.length
  tail : g.tailLines=tailOf base
  physical : ∀b<blocksFor base.length kBlockSize,g.blockPhysical.getD b 0=physical (rowsOf base b kBlockSize)
  measured : ∀b<blocksFor base.length kBlockSize,Vouched g base live b

section Steps
variable {g : EstimatedGeometry} {base live : List Record} {idx : RecordIndex}

theorem block_mul_lt {b n : ℕ} (hb : b<blocksFor n kBlockSize) : b*kBlockSize<n := by
  have hpos : 0<n := by
    by_contra hz
    rw [show n=0 by omega,blocksFor_zero (by decide)] at hb
    omega
  exact (Nat.mul_le_mul_right _ (by omega)).trans_lt (last_mul_lt (by decide) hpos)

/-- The rows may change; the geometry does not see it yet. -/
theorem Kept.grow (h : Kept g base base) (live : List Record) : Kept g base live where
  cached := h.cached
  counted := h.counted
  totals := Or.inl (h.totals.elim id id)
  bound := h.bound
  tail := h.tail
  physical := h.physical
  measured b hb := by
    rcases h.measured b hb with hv | hv | hv
    · exact Or.inl hv
    · exact Or.inl hv
    · omega

/-- A geometry without measurements. -/
theorem kept_unmeasured {n : ℕ} (hn : n=base.length ∨ n=live.length)
    (hlines : g.blockLines=List.replicate (blocksFor base.length kBlockSize) (-1))
    (hmeasured : g.blockMeasuredPhysical=List.replicate (blocksFor base.length kBlockSize) 0)
    (hlen : g.blockPhysical.length=blocksFor base.length kBlockSize) (hcache : g.recordLines=fun _ => none)
    (hvisual : g.measuredVisual=0) (hphys : g.measuredPhysical=0) (hwhole : g.measuredBlocks=0)
    (hbound : g.boundRecords=base.length) (htail : g.tailLines=tailOf base)
    (hp : ∀b<blocksFor base.length kBlockSize,g.blockPhysical.getD b 0=EstimatedGeometry.physical
      (rowsOf base b kBlockSize)) :
    Kept (g.rebuild n) base live := by
  have hheights (b : ℕ) : g.cachedHeights b=[] := by simp [cachedHeights,hcache]
  have hzero (b : ℕ) : g.blockMeasuredPhysical.getD b 0=0 := by
    rw [hmeasured,List.getD_eq_getElem?_getD,List.getElem?_replicate]
    split <;> rfl
  have hc : Cached g (blocksFor base.length kBlockSize) := by
    refine ⟨by simp [hlines],by simp [hmeasured],hlen,fun b _ => by rw [hcache],fun b => by simp [hcache],
      fun b => by simp [hheights],fun b hb => ?_,fun b _ _ => hzero b⟩
    rw [hlines,hcache,List.getD_eq_getElem?_getD,List.getElem?_replicate,if_pos hb]
    rfl
  have ht : Totals (g.rebuild n) n := by
    refine totals_rebuild ?_
    rw [hwhole]
    refine (List.countP_eq_zero.mpr fun b _ => ?_).symm
    have hz : g.measuredRecordsInBlock b=0 := by simp [measuredRecordsInBlock,hcache]
    simp only [isBlockMeasured,hz,Bool.and_eq_true,decide_eq_true_eq,not_and]
    omega
  refine ⟨cached_rebuild hc n,counted_rebuild ⟨?_,?_⟩ n,?_,hbound,htail,hp,fun b hb => Or.inl ⟨?_,?_⟩⟩
  · simp [hvisual,hheights]
  · rw [hphys]
    simp only [hzero]
    simp
  · rcases hn with rfl | rfl
    · exact Or.inl ht
    · exact Or.inr ht
  · have hr : (g.rebuild n).cachedHeights b=[] := hheights b
    rw [hr,List.length_nil,Nat.add_zero]
    exact (block_mul_lt hb).le
  · have hr : (g.rebuild n).cachedHeights b=[] := hheights b
    rw [hr]
    exact (hzero b).trans (by simp)

private theorem reset_kept (hs : idx.SumsValid) (w : ℤ) : Kept (reset idx w) idx.records idx.records := by
  unfold reset
  refine kept_unmeasured (Or.inl rfl) rfl rfl (by simp) rfl rfl rfl rfl rfl rfl fun b hb => ?_
  rw [← physicalOf_eq hs hb,List.getD_eq_getElem?_getD,List.getElem?_map,List.getElem?_range hb]
  rfl

/-- All measurements dropped, whatever the width becomes. -/
theorem invalidate_kept (h : Kept g base live) (w : ℤ) :
    Kept ({g with wrapWidth := w}.invalidateMeasurements live.length) base live := by
  unfold invalidateMeasurements
  refine kept_unmeasured (Or.inr rfl) ?_ ?_ h.cached.physical rfl rfl rfl rfl h.bound h.tail h.physical
  · rw [← h.cached.lines]
    exact List.map_const'
  · rw [← h.cached.measured]
    exact List.map_const'

private theorem setWrapWidth_kept (h : Kept g base live) (w : ℤ) : Kept
    (g.setWrapWidth live.length w).1 base live := by
  unfold setWrapWidth
  dsimp only
  split
  · exact h
  · exact invalidate_kept h (max 1 w)

/-- The aggregates and sums of blocks that are right are right. -/
theorem kept_refresh (hc : Cached g (blocksFor base.length kBlockSize)) (hbound : g.boundRecords=base.length)
    (htail : g.tailLines=tailOf base)
    (hphys : ∀b<blocksFor base.length kBlockSize,g.blockPhysical.getD b 0=physical (rowsOf base b kBlockSize))
    (hv : ∀b<blocksFor base.length kBlockSize,Vouched g base live b) : Kept
    (g.refreshTotals live.length) base live := by
  obtain ⟨hc',hcount,htot⟩ := refreshTotals_spec hc live.length
  exact ⟨hc',hcount,Or.inr htot,hbound,htail,hphys,hv⟩

private theorem measureBlock_kept (h : Kept g base idx.records) (block : ℤ) (visualLines : List ℕ) (first : ℤ) :
    Kept (g.measureBlock idx block visualLines first) base idx.records := by
  unfold measureBlock
  split
  · exact h
  rename_i hrange
  dsimp only
  split
  · exact h
  split
  · exact h
  split
  · exact h
  rename_i hcount hfirst hwhole
  have hb : block.toNat<blocksFor base.length kBlockSize := by
    rw [← h.cached.lines]
    omega
  generalize block.toNat=b at *
  have hhave : g.measuredRecordsInBlock b=(g.cachedHeights b).length := by
    rw [measuredRecordsInBlock,if_pos (by rw [h.cached.lines]; exact hb)]
    rfl
  have hklen : (((g.recordLines b).getD []).take (max first 0).toNat).length≤(g.cachedHeights b).length :=
    List.length_take_le' _ _
  generalize ((g.recordLines b).getD []).take (max first 0).toNat=kept at hklen ⊢
  have hwidth := h.cached.width b
  have hcountle : recordsInBlock idx.records.length b≤kBlockSize := by
    unfold recordsInBlock
    omega
  have hlen : (kept++visualLines.take (recordsInBlock idx.records.length b-kept.length)).length≤
      max kept.length (recordsInBlock idx.records.length b) := by
    rw [List.length_append,List.length_take]
    omega
  generalize kept++visualLines.take (recordsInBlock idx.records.length b-kept.length)=lines at hlen
  have hspec := @setBlockMeasurement_spec _ idx _ _ lines h.cached hb
  refine kept_refresh (setBlockMeasurement_cached h.cached hb (by omega))
    (by rw [setBlockMeasurement_eq]; exact h.bound)
    (by rw [setBlockMeasurement_eq]; exact h.tail)
      (by rw [setBlockMeasurement_eq]; exact h.physical) fun b' hb' => ?_
  unfold Vouched
  rw [hspec.1,hspec.2]
  by_cases hbb : b=b'
  · rw [if_pos hbb,if_pos hbb,← hbb]
    by_cases hle : b*kBlockSize+lines.length ≤ idx.records.length
    · exact Or.inr (Or.inl ⟨hle,rfl⟩)
    · -- Only heights kept from before the view shrank reach past its rows.
      refine Or.inr (Or.inr ⟨by omega,?_⟩)
      have hin : recordsInBlock idx.records.length b<lines.length := by
        unfold recordsInBlock at hcount ⊢
        omega
      have hcached : idx.records.length<b*kBlockSize+(g.cachedHeights b).length := by
        unfold recordsInBlock at hin hcount hlen hcountle
        omega
      rcases h.measured b hb with hv | hv | hv <;> omega
  · rw [if_neg hbb,if_neg hbb]
    exact h.measured b' hb'

theorem getD_resizedTail {blank : ℤ} {xs : List ℤ} {firstBlock blocks b : ℕ} (hb : b<blocks) :
    (resizedTail blank xs firstBlock blocks).getD b 0=
      if xs.length≤b ∨ firstBlock<b then blank else xs.getD b 0 := by
  simp only [resizedTail,resized,List.getD_eq_getElem?_getD,List.getElem?_mapIdx]
  by_cases hx : b<xs.length
  · rw [List.getElem?_append_left (by simp; omega),List.getElem?_take_of_lt hb,List.getElem?_mapIdx,
      List.getElem?_eq_getElem hx]
    simp only [Option.map_some,Option.getD_some]
    rw [if_neg (by omega)]
    by_cases hf : firstBlock<b
    · rw [if_pos hf,if_pos (Or.inr hf)]
    · rw [if_neg hf,if_neg (by omega)]
  · rw [List.getElem?_append_right (by simp; omega),List.getElem?_replicate,if_pos (by simp; omega),
      if_pos (by omega)]
    simp
    omega

@[simp] theorem length_resizedTail {blank : ℤ} {xs : List ℤ} {firstBlock blocks : ℕ} :
    (resizedTail blank xs firstBlock blocks).length=blocks := by simp [resizedTail]

/-- Rows of the heights they had have the physical lines they had. -/
theorem physical_congr (h : base.map RecordIndex.displayLines=live.map RecordIndex.displayLines) (b k : ℕ) :
    physical (rowsOf base b k)=physical (rowsOf live b k) := by
  simp only [physical,BlockPrefixSums.total,rowsOf,List.map_take,List.map_drop,h]

/-- A view with as many rows, and a trailing one as high, has the heights it had. -/
theorem heights_of_tail {extra : List Record} (hg : live=base.dropLast++extra) (hn : live.length=base.length)
    (ht : tailOf live=tailOf base) : base.map RecordIndex.displayLines=live.map RecordIndex.displayLines := by
  rcases List.eq_nil_or_concat' base with rfl | ⟨rows,last,rfl⟩
  · have hl : live=[] := List.eq_nil_of_length_eq_zero hn
    simp [hl]
  · rw [List.dropLast_concat] at hg
    have hlen : extra.length=1 := by
      rw [hg] at hn
      simp only [List.length_append,List.length_singleton] at hn
      omega
    obtain ⟨r,rfl⟩ := List.length_eq_one_iff.mp hlen
    subst hg
    simp only [tailOf,List.getLast?_append,List.getLast?_singleton,Option.map_some,Option.getD_some,
      Option.some_or] at ht
    simp [ht]

private theorem kept_same_heights (h : Kept g base live)
    (hh : base.map RecordIndex.displayLines=live.map RecordIndex.displayLines)
    (ht : tailOf live=tailOf base) : Kept g live live := by
  have hlen : live.length=base.length := by
    have := congrArg List.length hh
    simpa using this.symm
  refine ⟨by rw [hlen]; exact h.cached,h.counted,?_,h.bound.trans hlen.symm,h.tail.trans ht.symm,
    fun b hb => ?_,fun b hb => ?_⟩
  · rcases h.totals with ht | ht
    · exact Or.inl (by rw [hlen]; exact ht)
    · exact Or.inl ht
  · rw [← physical_congr hh]
    exact h.physical b (by rwa [hlen] at hb)
  · rcases h.measured b (by rwa [hlen] at hb) with hv | hv | hv
    · exact Or.inl ⟨by omega,by rw [← physical_congr hh]; exact hv.2⟩
    · exact Or.inl hv
    · omega

section Sync
variable {extra : List Record} {firstBlock keep : ℕ}

theorem regrown_cached (h : Kept g base live) (idx : RecordIndex) (firstBlock : ℕ) :
    Cached (g.regrown idx firstBlock) (blocksFor idx.records.length kBlockSize) := by
  have hc := h.cached
  refine ⟨length_resizedTail,length_resizedTail,by simp [regrown],fun b hb => if_pos (Or.inr hb),fun b => ?_,
    fun b => ?_,fun b hb => ?_,fun b hb hn => ?_⟩
  · simp only [regrown]
    split
    · simp
    · exact hc.nonempty b
  · simp only [regrown,cachedHeights]
    split
    · simp
    · exact hc.width b
  · simp only [regrown]
    rw [getD_resizedTail hb]
    split
    · rename_i hor
      have hnone : (if firstBlock<b ∨ blocksFor idx.records.length kBlockSize≤b then
        none else g.recordLines b)=none := by
        rcases hor with hle | hlt
        · rw [hc.lines] at hle
          rw [hc.keyed b hle,ite_self]
        · exact if_pos (Or.inl hlt)
      rw [hnone]
      rfl
    · rename_i hor
      rw [hc.lines] at hor
      rw [if_neg (by omega)]
      exact hc.total b (by omega)
  · simp only [regrown] at hn ⊢
    rw [getD_resizedTail hb]
    split
    · rfl
    · rename_i hor
      rw [hc.measured] at hor
      rw [if_neg (by omega)] at hn
      exact hc.bare b (by omega) hn

private theorem regrown_physical (h : Kept g base idx.records) (hs : idx.SumsValid)
    (hg : idx.records=base.dropLast++extra)
    (hf : firstBlock*kBlockSize≤base.length-1) {b : ℕ} (hb : b<blocksFor idx.records.length kBlockSize) :
    (g.regrown idx firstBlock).blockPhysical.getD b 0=physical (rowsOf idx.records b kBlockSize) := by
  simp only [regrown,List.getD_eq_getElem?_getD,List.getElem?_mapIdx]
  rw [List.getElem?_eq_getElem (by rw [length_resized]; exact hb)]
  simp only [Option.map_some,Option.getD_some]
  split
  · exact physicalOf_eq hs hb
  · rename_i hlt
    have hle : b*kBlockSize+kBlockSize≤firstBlock*kBlockSize := by
      rw [← Nat.succ_mul]
      exact Nat.mul_le_mul_right _ (by omega)
    have hold : b<blocksFor base.length kBlockSize := by
      have := div_lt_blocksFor (B:=kBlockSize) (by decide) (show b*kBlockSize<base.length by
        have : 0<kBlockSize := by decide
        omega)
      rwa [Nat.mul_div_cancel _ (by decide)] at this
    have hlt' : b<(resized 0 g.blockPhysical (blocksFor idx.records.length kBlockSize)).length := by
      rw [length_resized]
      exact hb
    have hget : (resized 0 g.blockPhysical (blocksFor idx.records.length kBlockSize)).get ⟨b,hlt'⟩=
        g.blockPhysical.getD b 0 := by
      rw [List.get_eq_getElem]
      have hlen : b<g.blockPhysical.length := by rw [h.cached.physical]; exact hold
      simp only [resized]
      rw [List.getElem_append_left (by rw [List.length_take]; omega),List.getElem_take,List.getD_eq_getElem?_getD,
        List.getElem?_eq_getElem hlen,Option.getD_some]
    refine Eq.trans hget ?_
    rw [h.physical b hold,rowsOf_grown hg (by omega)]

/-- The measured rows in front of the first that can have moved are those of the rows there are. -/
theorem regrown_vouched (h : Kept g base idx.records) (hg : idx.records=base.dropLast++extra) {b d : ℕ}
    (hd : d=min base.length idx.records.length-1) (hb : b<blocksFor idx.records.length kBlockSize)
    (hk : b*kBlockSize+((g.regrown idx firstBlock).cachedHeights b).length≤d ∨
      (g.regrown idx firstBlock).recordLines b=none) :
    Vouched (g.regrown idx firstBlock) idx.records idx.records b := by
  have hmul := block_mul_lt hb
  have hc := regrown_cached h idx firstBlock
  by_cases hnone : (g.regrown idx firstBlock).recordLines b=none
  · have hz : (g.regrown idx firstBlock).cachedHeights b=[] := by rw [cachedHeights,hnone]; rfl
    refine Or.inl ?_
    rw [hz,hc.bare b hb hnone]
    exact ⟨by simpa using hmul.le,by simp⟩
  · have hk := hk.resolve_right hnone
    have hor : ¬(firstBlock<b ∨ blocksFor idx.records.length kBlockSize≤b) := fun hor => hnone (if_pos hor)
    have hrec : (g.regrown idx firstBlock).recordLines b=g.recordLines b := if_neg hor
    have hcache : (g.regrown idx firstBlock).cachedHeights b=g.cachedHeights b := by
      rw [cachedHeights,hrec]
      rfl
    have hold : b<blocksFor base.length kBlockSize := by
      by_contra hge
      exact hnone (hrec.trans (h.cached.keyed b (by omega)))
    have hmp : (g.regrown idx firstBlock).blockMeasuredPhysical.getD b 0=g.blockMeasuredPhysical.getD b 0 := by
      simp only [regrown]
      rw [getD_resizedTail hb,if_neg (by rw [h.cached.measured]; omega)]
    refine Or.inl ?_
    rw [hcache] at hk ⊢
    rw [hmp]
    refine ⟨by omega,?_⟩
    rcases h.measured b hold with hv | hv | hv
    · rw [hv.2,rowsOf_grown hg (by omega)]
    · exact hv.2
    · omega

/-- Cutting a block's heights leaves those of its leading rows. -/
theorem truncate_spec {blocks : ℕ} (h : Cached g blocks) (b keep : ℕ) :
    Cached (g.truncateBlockMeasurement idx b keep) blocks ∧
      (g.truncateBlockMeasurement idx b keep).blockPhysical=g.blockPhysical ∧
      (g.truncateBlockMeasurement idx b keep).boundRecords=g.boundRecords ∧
      (g.truncateBlockMeasurement idx b keep).tailLines=g.tailLines ∧
      ((g.truncateBlockMeasurement idx b keep=g ∧ (b<blocks→(g.cachedHeights b).length≤keep)) ∨
        (b<blocks ∧ keep<(g.cachedHeights b).length ∧ g.truncateBlockMeasurement idx b keep=
          g.setBlockMeasurement idx b ((g.cachedHeights b).take keep))) := by
  unfold truncateBlockMeasurement
  split
  · rename_i hle
    rw [h.lines] at hle
    exact ⟨h,rfl,rfl,rfl,Or.inl ⟨rfl,fun hb => by omega⟩⟩
  · rename_i hlt
    rw [h.lines] at hlt
    have hb : b<blocks := by omega
    cases hc : g.recordLines b with
    | none => exact ⟨h,rfl,rfl,rfl,Or.inl ⟨rfl,fun _ => by simp [cachedHeights,hc]⟩⟩
    | some cached =>
      have hheights : g.cachedHeights b=cached := by rw [cachedHeights,hc]; rfl
      dsimp only
      split
      · exact ⟨h,rfl,rfl,rfl,Or.inl ⟨rfl,fun _ => by rwa [hheights]⟩⟩
      · have hw := h.width b
        rw [hheights] at hw ⊢
        refine ⟨setBlockMeasurement_cached h hb ((List.length_take_le' _ _).trans hw),?_,?_,?_,
          Or.inr ⟨hb,by omega,rfl⟩⟩ <;> rw [setBlockMeasurement_eq]

/-- Blocks in front of the first dirty row are full, those behind it are bare. -/
theorem regrown_front {blocks : ℕ} {d b : ℕ} (hc : Cached (g.regrown idx (d/kBlockSize)) blocks)
    (hne : b≠d/kBlockSize) :
    b*kBlockSize+((g.regrown idx (d/kBlockSize)).cachedHeights b).length≤d ∨
      (g.regrown idx (d/kBlockSize)).recordLines b=none := by
  rcases Nat.lt_or_gt_of_ne hne with hlt | hgt
  · have hw := hc.width b
    have hdiv : d/kBlockSize*kBlockSize≤d := Nat.div_mul_le_self _ _
    have hmul : b*kBlockSize+kBlockSize≤d/kBlockSize*kBlockSize := by
      rw [← Nat.succ_mul]
      exact Nat.mul_le_mul_right _ (by omega)
    exact Or.inl (by omega)
  · exact Or.inr (if_pos (Or.inl hgt))

/-- A sync brings the geometry up to date with the rows there are. -/
theorem syncTail_kept (h : Kept g base idx.records) (hs : idx.SumsValid) (hg : idx.records=base.dropLast++extra) :
    Kept (g.syncTail idx).1 idx.records idx.records := by
  unfold syncTail
  dsimp only
  by_cases hsame : idx.records.length=g.boundRecords ∧ tailOf idx.records=g.tailLines
  · rw [if_pos hsame]
    rw [h.bound,h.tail] at hsame
    exact kept_same_heights h (heights_of_tail hg hsame.1 hsame.2) hsame.2
  rw [if_neg hsame,h.bound]
  obtain ⟨d,hd⟩ : ∃d,d=min base.length idx.records.length-1 := ⟨_,rfl⟩
  rw [← hd]
  have hdiv : d/kBlockSize*kBlockSize≤d := Nat.div_mul_le_self _ _
  have hc := regrown_cached h idx (d/kBlockSize)
  obtain ⟨htc,hphys,hbound,htail,hcase⟩ := @truncate_spec _ idx _ hc (d/kBlockSize) (d-d/kBlockSize*kBlockSize)
  refine kept_refresh htc hbound htail (fun b hb => ?_) (fun b hb => ?_)
  · rw [hphys]
    exact regrown_physical h hs hg (by omega) hb
  · have hother (hne : b≠d/kBlockSize) := @regrown_front g idx _ _ _ hc hne
    rcases hcase with ⟨heq,hkeep⟩ | ⟨hlt,hkeep,heq⟩
    · rw [heq]
      refine regrown_vouched h hg hd hb ?_
      by_cases hbd : b=d/kBlockSize
      · have := hkeep (hbd ▸ hb)
        rw [← hbd] at this
        exact Or.inl (by rw [hbd]; rw [hbd] at this; omega)
      · exact hother hbd
    · have hspec := @setBlockMeasurement_spec _ idx _ _
        (((g.regrown idx (d/kBlockSize)).cachedHeights (d/kBlockSize)).take (d-d/kBlockSize*kBlockSize)) hc hlt
      rw [heq]
      unfold Vouched
      rw [hspec.1,hspec.2]
      by_cases hbd : d/kBlockSize=b
      · rw [if_pos hbd,if_pos hbd,← hbd]
        have hlen := List.length_take_le (d-d/kBlockSize*kBlockSize)
          ((g.regrown idx (d/kBlockSize)).cachedHeights (d/kBlockSize))
        have hmul := block_mul_lt hb
        exact Or.inl ⟨by rw [hbd] at hlen ⊢; rw [← hbd] at hlen ⊢; omega,rfl⟩
      · rw [if_neg hbd,if_neg hbd]
        exact regrown_vouched h hg hd hb (hother (Ne.symm hbd))

/-- No row is still measured after a sync whose height has changed since the one before. -/
theorem syncTail_counted (h : Kept g base idx.records) (hg : idx.records=base.dropLast++extra) {b i : ℕ}
    (hi : i<((g.syncTail idx).1.cachedHeights b).length) :
    base[b*kBlockSize+i]?.map RecordIndex.displayLines=
    idx.records[b*kBlockSize+i]?.map RecordIndex.displayLines := by
  unfold syncTail at hi
  dsimp only at hi
  by_cases hsame : idx.records.length=g.boundRecords ∧ tailOf idx.records=g.tailLines
  · rw [h.bound,h.tail] at hsame
    have hh := congrArg (fun xs => xs[b*kBlockSize+i]?) (heights_of_tail hg hsame.1 hsame.2)
    simpa using hh
  rw [if_neg hsame,h.bound] at hi
  obtain ⟨d,hd⟩ : ∃d,d=min base.length idx.records.length-1 := ⟨_,rfl⟩
  rw [← hd] at hi
  have hdiv : d/kBlockSize*kBlockSize≤d := Nat.div_mul_le_self _ _
  have hc := regrown_cached h idx (d/kBlockSize)
  obtain ⟨-,-,-,-,hcase⟩ := @truncate_spec _ idx _ hc (d/kBlockSize) (d-d/kBlockSize*kBlockSize)
  replace hi : i<(((g.regrown idx (d/kBlockSize)).truncateBlockMeasurement idx (d/kBlockSize)
      (d-d/kBlockSize*kBlockSize)).cachedHeights b).length := hi
  -- Whatever is still cached lies in front of the first row that can have moved.
  have hfront : b*kBlockSize+i<d := by
    have hregrown (hlt : i<((g.regrown idx (d/kBlockSize)).cachedHeights b).length) (hne : b≠d/kBlockSize) :
        b*kBlockSize+i<d := by
      rcases regrown_front hc hne with hle | hnone
      · omega
      · simp [cachedHeights,hnone] at hlt
    rcases hcase with ⟨heq,hkeep⟩ | ⟨hlt,hkeep,heq⟩
    · rw [heq] at hi
      by_cases hbd : b=d/kBlockSize
      · have hlt : d/kBlockSize<blocksFor idx.records.length kBlockSize := by
          by_contra hge
          simp [cachedHeights,hc.keyed b (by omega)] at hi
        have hle := hkeep hlt
        rw [hbd] at hi ⊢
        omega
      · exact hregrown hi hbd
    · rw [heq,(setBlockMeasurement_spec hc hlt).1] at hi
      by_cases hbd : d/kBlockSize=b
      · rw [if_pos hbd,List.length_take] at hi
        rw [← hbd]
        omega
      · rw [if_neg hbd] at hi
        exact hregrown hi (Ne.symm hbd)
  have htake : idx.records.take (base.length-1)=base.take (base.length-1) := by
    rw [hg,← List.dropLast_eq_take,List.take_left' List.length_dropLast]
  have hget := congrArg (fun xs => xs[b*kBlockSize+i]?) htake
  simp only [List.getElem?_take_of_lt (show b*kBlockSize+i<base.length-1 by omega)] at hget
  rw [hget]

end Sync

end Steps

end EstimatedGeometry

/-- The trailing row taken away and other rows put behind the ones before it. -/
def RecordIndex.replaceTail (idx : RecordIndex) (rows : List Record) : RecordIndex :=
  {idx with records := idx.records.dropLast++rows}.extendBlockSums ((idx.records.length-1 : ℕ) : ℤ)

theorem RecordIndex.replaceTail_records (idx : RecordIndex) (rows : List Record) :
    (idx.replaceTail rows).records=idx.records.dropLast++rows := by simp [replaceTail]

private theorem RecordIndex.replaceTail_sums {idx : RecordIndex} (hs : idx.SumsValid) (rows : List Record) :
    (idx.replaceTail rows).SumsValid := by
  refine @extendBlockSums_valid _ idx.records _ hs (Nat.sub_le _ _) ?_ ?_
  · simp
  · rw [← List.dropLast_eq_take,List.take_left' List.length_dropLast]

namespace EstimatedGeometry

/-- A geometry, the index it is bound to and the rows it was last brought up to date with. The
index grows at its tail, once between two syncs. -/
inductive Reachable : EstimatedGeometry→RecordIndex→List Record→Prop
  | reset {idx : RecordIndex} (hs : idx.SumsValid) (w : ℤ) : Reachable (reset idx w) idx idx.records
  | setWrapWidth {g : EstimatedGeometry} {idx : RecordIndex} {base : List Record}
    (h : Reachable g idx base) (w : ℤ) :
    Reachable (g.setWrapWidth idx.records.length w).1 idx base
  | invalidate {g : EstimatedGeometry} {idx : RecordIndex} {base : List Record} (h : Reachable g idx base) :
    Reachable (g.invalidateMeasurements idx.records.length) idx base
  | measureBlock {g : EstimatedGeometry} {idx : RecordIndex} {base : List Record}
    (h : Reachable g idx base) (block : ℤ)
    (visualLines : List ℕ) (first : ℤ) : Reachable (g.measureBlock idx block visualLines first) idx base
  | syncTail {g : EstimatedGeometry} {idx : RecordIndex} {base : List Record} (h : Reachable g idx base) :
    Reachable (g.syncTail idx).1 idx idx.records
  | grow {g : EstimatedGeometry} {idx : RecordIndex} (h : Reachable g idx idx.records) (rows : List Record) :
    Reachable g (idx.replaceTail rows) idx.records

/-- The run: whatever is asked and however the rows grow, the geometry stays that of its rows. -/
theorem Reachable.kept {g : EstimatedGeometry} {idx : RecordIndex} {base : List Record} (h : Reachable g idx base) :
    Kept g base idx.records ∧ idx.SumsValid ∧ ∃extra,idx.records=base.dropLast++extra := by
  have hself (rows : List Record) : ∃extra,rows=rows.dropLast++extra :=
    ⟨rows.drop (rows.length-1),by rw [List.dropLast_eq_take,List.take_append_drop]⟩
  induction h with
  | reset hs w => exact ⟨reset_kept hs w,hs,hself _⟩
  | setWrapWidth _ w ih => exact ⟨setWrapWidth_kept ih.1 w,ih.2⟩
  | invalidate _ ih => exact ⟨invalidate_kept ih.1 _,ih.2⟩
  | measureBlock _ block lines first ih => exact ⟨measureBlock_kept ih.1 block lines first,ih.2⟩
  | syncTail _ ih =>
    obtain ⟨hk,hs,extra,hg⟩ := ih
    exact ⟨syncTail_kept hk hs hg,hs,hself _⟩
  | grow _ rows ih =>
    exact ⟨ih.1.grow _,RecordIndex.replaceTail_sums ih.2.1 rows,rows,RecordIndex.replaceTail_records _ _⟩

/-- A geometry that is that of some rows. -/
structure Represents (g : EstimatedGeometry) (rows : List Record) : Prop where
  blocks : g.blockLines.length=blocksFor rows.length kBlockSize ∧
    g.blockMeasuredPhysical.length=blocksFor rows.length kBlockSize ∧
    g.blockPhysical.length=blocksFor rows.length kBlockSize
  fits : ∀b,(g.cachedHeights b).length≤recordsInBlock rows.length b
  lines : ∀b<blocksFor rows.length kBlockSize,g.blockLines.getD b 0=lineTotal (g.recordLines b)
  nonempty : ∀b,g.recordLines b≠some []
  measured : ∀b<blocksFor rows.length kBlockSize,
    g.blockMeasuredPhysical.getD b 0=physical (rowsOf rows b (g.cachedHeights b).length)
  physical : ∀b<blocksFor rows.length kBlockSize,
    g.blockPhysical.getD b 0=EstimatedGeometry.physical (rowsOf rows b kBlockSize)
  visual : g.measuredVisual=
    ((List.range (blocksFor rows.length kBlockSize)).map (fun b => ((g.cachedHeights b).sum : ℤ))).sum
  measuredPhysical : g.measuredPhysical=((List.range (blocksFor rows.length kBlockSize)).map
    (fun b => EstimatedGeometry.physical (rowsOf rows b (g.cachedHeights b).length))).sum
  whole : g.measuredBlocks=(List.range (blocksFor rows.length kBlockSize)).countP (g.isBlockMeasured rows.length)
  sums : g.linePrefix=prefixSums (g.blockLinesOf rows.length) (blocksFor rows.length kBlockSize+1)
  total : g.total=((List.range (blocksFor rows.length kBlockSize)).map (g.blockLinesOf rows.length)).sum
  estimate : ∀b<blocksFor rows.length kBlockSize,((g.cachedHeights b).sum : ℤ)+
    EstimatedGeometry.physical ((rowsOf rows b kBlockSize).drop
      (g.cachedHeights b).length)≤g.blockLinesOf rows.length b

section Truth
variable {g : EstimatedGeometry} {rows : List Record}

/-- A block is estimated no lower than what is measured of it and the physical lines of the rest. -/
theorem Kept.estimate (h : Kept g rows rows) {b : ℕ} (hb : b<blocksFor rows.length kBlockSize)
    (hm : g.blockMeasuredPhysical.getD b 0=EstimatedGeometry.physical (rowsOf rows b (g.cachedHeights b).length)) :
    ((g.cachedHeights b).sum : ℤ)+EstimatedGeometry.physical
    ((rowsOf rows b kBlockSize).drop (g.cachedHeights b).length)≤
      g.blockLinesOf rows.length b := by
  have hmeasured : max 0 (g.blockLines.getD b 0)=((g.cachedHeights b).sum : ℤ) := by
    rw [h.cached.total b hb,cachedHeights]
    cases g.recordLines b with
    | none => rfl
    | some lines => exact max_eq_right (Int.natCast_nonneg _)
  have hsplit := physical_rows_add rows b (h.cached.width b)
  unfold blockLinesOf
  rw [if_neg (by rw [h.cached.physical]; omega)]
  dsimp only
  rw [hmeasured,hm,h.physical b hb,hsplit,add_sub_cancel_left]
  split
  · -- Measured whole: no row is left.
    rename_i hwhole
    simp only [isBlockMeasured,Bool.and_eq_true,decide_eq_true_eq] at hwhole
    rw [measuredRecordsInBlock,if_pos (by rw [h.cached.lines]; exact hb)] at hwhole
    have hlen : (rowsOf rows b kBlockSize).length≤(g.cachedHeights b).length := by
      have := hwhole.2
      simp only [cachedHeights,rowsOf,List.length_take,List.length_drop,recordsInBlock] at this ⊢
      omega
    rw [List.drop_of_length_le hlen]
    simp
  · generalize EstimatedGeometry.physical ((rowsOf rows b kBlockSize).drop (g.cachedHeights b).length)=rest
    have h₁ := le_max_right 0 rest
    have h₂ := le_max_left (max 0 rest) (llround ((max 0 rest : ℤ)*g.expansionFactor))
    omega

theorem Kept.represents (h : Kept g rows rows) : Represents g rows := by
  have hv (b : ℕ) (hb : b<blocksFor rows.length kBlockSize) : b*kBlockSize+(g.cachedHeights b).length≤rows.length ∧
      g.blockMeasuredPhysical.getD b 0=EstimatedGeometry.physical (rowsOf rows b (g.cachedHeights b).length) := by
    rcases h.measured b hb with hv | hv | hv
    · exact hv
    · exact hv
    · omega
  have hfits (b : ℕ) : (g.cachedHeights b).length≤recordsInBlock rows.length b := by
    by_cases hb : b<blocksFor rows.length kBlockSize
    · have h₁ := (hv b hb).1
      have h₂ := h.cached.width b
      unfold recordsInBlock
      omega
    · simp [cachedHeights,h.cached.keyed b (by omega)]
  have htot : Totals g rows.length := h.totals.elim id id
  refine ⟨⟨h.cached.lines,h.cached.measured,h.cached.physical⟩,hfits,h.cached.total,h.cached.nonempty,
    fun b hb => (hv b hb).2,h.physical,?_,?_,?_,?_,?_,fun b hb => h.estimate hb (hv b hb).2⟩
  · rw [h.counted.visual,h.cached.lines]
  · rw [h.counted.physical,h.cached.lines]
    exact congrArg List.sum (List.map_congr_left fun b hb => (hv b (List.mem_range.mp hb)).2)
  · rw [htot.whole,h.cached.lines]
  · rw [htot.sums,h.cached.physical]
  · rw [htot.total,h.cached.physical]

end Truth

/-- In every run a block's line total and the aggregates are those of the cache; a geometry that
is up to date is that of its rows; and a sync keeps no row whose height has changed. -/
theorem reachable_represents {g : EstimatedGeometry} {idx : RecordIndex} {base : List Record}
    (h : Reachable g idx base) :
    (∀b<g.blockLines.length,g.blockLines.getD b 0=lineTotal (g.recordLines b)) ∧
      g.measuredVisual=((List.range g.blockLines.length).map (fun b => ((g.cachedHeights b).sum : ℤ))).sum ∧
      (base=idx.records→Represents g idx.records) ∧ Represents (g.syncTail idx).1 idx.records ∧
      ∀ b i,i<((g.syncTail idx).1.cachedHeights b).length →
        base[b*kBlockSize+i]?.map RecordIndex.displayLines=
        idx.records[b*kBlockSize+i]?.map RecordIndex.displayLines := by
  obtain ⟨hk,hs,extra,hg⟩ := h.kept
  refine ⟨fun b hb => hk.cached.total b (by rwa [hk.cached.lines] at hb),hk.counted.visual,fun hbase => ?_,
    (syncTail_kept hk hs hg).represents,fun b i hi => syncTail_counted hk hg hi⟩
  subst hbase
  exact hk.represents

/-- A view of one record on three lines. -/
def threeLines : RecordIndex := {RecordIndex.empty with records :=
    [⟨0,kNoTimestamp,12,0,0,3,.unknown⟩]}.rebuildBlockSums

/-- Two rows, the trailing one grown after it was measured. -/
theorem reachable_represents_grown : ∃g : EstimatedGeometry,∃rows : List Record,rows.length=2 ∧
    Represents g rows := by
  have h := Reachable.grow (.measureBlock
    (.reset (RecordIndex.rebuildBlockSums_valid _ : threeLines.SumsValid) 80) 0 [4] 0)
    [⟨0,kNoTimestamp,16,0,0,4,.unknown⟩,⟨16,kNoTimestamp,8,0,0,2,.unknown⟩]
  exact ⟨_,_,by rw [RecordIndex.replaceTail_records]; rfl,(reachable_represents h).2.2.2.1⟩

/-- A record of three lines that shows on one: its block is lower than its physical lines. -/
theorem estimate_under_physical : ∃g idx,Reachable g idx idx.records ∧
    g.blockLinesOf idx.records.length 0<physical (rowsOf idx.records 0 kBlockSize) :=
  ⟨(reset threeLines 80).measureBlock threeLines 0 [1] 0,threeLines,
    .measureBlock (.reset (RecordIndex.rebuildBlockSums_valid _) 80) 0 [1] 0,by decide⟩

end EstimatedGeometry

end Loftail
