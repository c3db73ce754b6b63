import Loftail.GeometrySync
import Loftail.ScaledBlock

/-! # The estimated geometry's two mappings, records to display lines and back -/
namespace Loftail
open BlockPrefixSums

namespace EstimatedGeometry

/-- The binary search for the last block whose first line is at most `line`. -/
def lastBlock (sums : List ℤ) (line : ℤ) (lo hi : ℕ) : ℕ :=
  if lo < hi then
    if sums.getD ((lo+hi+1)/2) 0≤line then lastBlock sums line ((lo+hi+1)/2) hi
    else lastBlock sums line lo ((lo+hi+1)/2-1)
  else lo
termination_by hi-lo

/-- `EstimatedGeometry::firstLineOfRecord`. -/
def firstLineOfRecord (g : EstimatedGeometry) (idx : RecordIndex) (r : ℤ) : ℤ :=
  let n := idx.records.length
  if r≤0 ∨ n=0 then 0 else if r≥n then g.total else
    let block := r.toNat/kBlockSize
    let start := block*kBlockSize
    let base := g.linePrefix.getD block 0
    if r.toNat-start≤g.measuredRecordsInBlock block then
      base+((g.cachedHeights block).take (r.toNat-start)).sum
    else
      let exact := max 0 (g.blockLines.getD block 0)
      let physMeasured := g.blockMeasuredPhysical.getD block 0
      let physRest := g.blockPhysical.getD block 0-physMeasured
      let estRest := g.blockLinesOf n block-exact
      if physRest≤0 then base+exact else
        let physBefore := (idx.firstLineOfRecord r.toNat : ℤ)-idx.firstLineOfRecord start-physMeasured
        base+exact+llround ((max 0 physBefore : ℤ)*estRest/physRest)

/-- `EstimatedGeometry::recordAtLine`; -1 where there is no record. -/
def recordAtLine (g : EstimatedGeometry) (idx : RecordIndex) (line : ℤ) : ℤ :=
  let n := idx.records.length
  if n=0 then -1 else if line≤0 then 0 else if line≥g.total then (n : ℤ)-1 else
    let block := lastBlock g.linePrefix line 0 (g.blockPhysical.length-1)
    let start := block*kBlockSize
    let count := recordsInBlock n block
    let local_ := line-g.linePrefix.getD block 0
    let have_ := min (g.measuredRecordsInBlock block) count
    let exact := max 0 (g.blockLines.getD block 0)
    match if (g.recordLines block).isSome ∧ local_ < exact then
        scanHeights local_ ((g.cachedHeights block).take have_) 0 start else none with
    | some r => r
    | none =>
      if count≤have_ then (start+count : ℕ)-1 else
        let physRest := g.blockPhysical.getD block 0-g.blockMeasuredPhysical.getD block 0
        let estRest := g.blockLinesOf n block-exact
        if physRest≤0 ∨ estRest≤0 then (start+have_ : ℕ) else
          let localRest := max 0 (local_-exact)
          let targetPhys := truncated ((localRest : ℚ)*physRest/estRest)
          match scanHeights targetPhys
            (((idx.records.drop (start+have_)).take (count-have_)).map RecordIndex.displayLines)
            0 (start+have_) with
          | some r => r
          | none => (start+count : ℕ)-1

section Search
variable {sums : List ℤ} {line : ℤ}

/-- It ends at a block that begins at `line` or before it, the next one behind it. -/
theorem lastBlock_spec {lo hi : ℕ} (hle : lo≤hi) (hlo : sums.getD lo 0≤line) (hhi : line < sums.getD (hi+1) 0) :
    lastBlock sums line lo hi≤hi ∧ sums.getD (lastBlock sums line lo hi) 0≤line ∧
      line < sums.getD (lastBlock sums line lo hi+1) 0 := by
  induction hd : hi-lo using Nat.strongRecOn generalizing lo hi with
  | ind d ih =>
    rw [lastBlock]
    by_cases hlt : lo < hi
    · rw [if_pos hlt]
      split
      · rename_i hs
        exact ih _ (by omega) (by omega) hs hhi rfl
      · rename_i hs
        have hmid : (lo+hi+1)/2-1+1=(lo+hi+1)/2 := by omega
        obtain ⟨h₁,h₂⟩ := @ih ((lo+hi+1)/2-1-lo) (by omega) lo ((lo+hi+1)/2-1) (by omega) hlo
          (by rw [hmid]; omega) rfl
        exact ⟨by omega,h₂⟩
    · have heq : lo=hi := by omega
      rw [if_neg hlt]
      subst heq
      exact ⟨le_rfl,hlo,hhi⟩

end Search

private theorem measured_enough {g : EstimatedGeometry} {rows : List Record} (h : Represents g rows) (b : ℕ)
    (hb : b < blocksFor rows.length kBlockSize) :
    (((rowsOf rows b kBlockSize).drop (g.cachedHeights b).length).map RecordIndex.displayLines).sum ≤
      g.blockLinesOf rows.length b-(g.cachedHeights b).sum := by
  have hest := h.estimate b hb
  rw [EstimatedGeometry.physical,BlockPrefixSums.total] at hest
  omega

/-- A block of the view, its measured rows and the others. -/
def scaled {g : EstimatedGeometry} {rows : List Record} (h : Represents g rows) (b : ℕ)
    (hb : b < blocksFor rows.length kBlockSize) : ScaledBlock where
  measured := g.cachedHeights b
  rest := ((rowsOf rows b kBlockSize).drop (g.cachedHeights b).length).map RecordIndex.displayLines
  estimate := g.blockLinesOf rows.length b-(g.cachedHeights b).sum
  enough := measured_enough h b hb

/-- The line on which a block begins. -/
def blockStart (g : EstimatedGeometry) (n b : ℕ) : ℤ := ((List.range b).map (g.blockLinesOf n)).sum

theorem blockStart_succ (g : EstimatedGeometry) (n b : ℕ) : g.blockStart n
    (b+1)=g.blockStart n b+g.blockLinesOf n b := by
  simp [blockStart,List.range_succ]

theorem recordsInBlock_pos {n b : ℕ} (hb : b < blocksFor n kBlockSize) : 0 < recordsInBlock n b := by
  have hmul := block_mul_lt hb
  have hsize : 0 < kBlockSize := by decide
  rw [recordsInBlock]
  omega

/-- A row is some row of some block. -/
theorem exists_block {n r : ℕ} (hr : r < n) : ∃b i,b < blocksFor n kBlockSize ∧
    i < recordsInBlock n b ∧ r=b*kBlockSize+i := by
  have hsize : 0 < kBlockSize := by decide
  have hdiv := Nat.div_add_mod r kBlockSize
  have hmod := Nat.mod_lt r hsize
  rw [Nat.mul_comm] at hdiv
  refine ⟨r/kBlockSize,r%kBlockSize,div_lt_blocksFor hsize hr,?_,hdiv.symm⟩
  rw [recordsInBlock]
  omega

section Blocks
variable {g : EstimatedGeometry} {idx : RecordIndex} {b i : ℕ}
variable (h : Represents g idx.records)
include h

theorem linePrefix_eq (hb : b≤blocksFor idx.records.length kBlockSize) :
    g.linePrefix.getD b 0=g.blockStart idx.records.length b := by
  rw [h.sums,prefixSums,List.getD_eq_getElem?_getD,List.getElem?_map,List.getElem?_range (by omega)]
  rfl

theorem total_eq : g.total=g.blockStart idx.records.length (blocksFor idx.records.length kBlockSize) := h.total

theorem scaled_exact (hb : b < blocksFor idx.records.length kBlockSize) :
    max 0 (g.blockLines.getD b 0)=(scaled h b hb).exact := by
  rw [h.lines b hb]
  show _=(((g.recordLines b).getD []).sum : ℤ)
  cases g.recordLines b with
  | none => rfl
  | some lines => exact max_eq_right (Int.natCast_nonneg _)

theorem scaled_lines (hb : b < blocksFor idx.records.length kBlockSize) :
    (scaled h b hb).exact+(scaled h b hb).estimate=g.blockLinesOf idx.records.length b := by
  show ((g.cachedHeights b).sum : ℤ)+(_-_)=_
  omega

theorem scaled_length (hb : b < blocksFor idx.records.length kBlockSize) :
    (scaled h b hb).measured.length+(scaled h b hb).rest.length=recordsInBlock idx.records.length b := by
  have hfits := h.fits b
  simp only [scaled,List.length_map,List.length_drop,rowsOf,List.length_take]
  rw [recordsInBlock] at hfits ⊢
  omega

private theorem scaled_rest (hb : b < blocksFor idx.records.length kBlockSize) :
    (scaled h b hb).rest=((idx.records.drop (b*kBlockSize+(scaled h b hb).measured.length)).take
      (recordsInBlock idx.records.length b-(scaled h b hb).measured.length)).map RecordIndex.displayLines := by
  have hfits := h.fits b
  show ((rowsOf idx.records b kBlockSize).drop (g.cachedHeights b).length).map _=
    ((idx.records.drop (b*kBlockSize+(g.cachedHeights b).length)).take (_-(g.cachedHeights b).length)).map _
  rw [rowsOf,List.drop_take,List.drop_drop]
  congr 1
  rw [recordsInBlock] at hfits ⊢
  rcases Nat.le_total (b*kBlockSize+kBlockSize) idx.records.length with hle | hle
  · rw [Nat.min_eq_left hle,Nat.add_sub_cancel_left]
  · rw [Nat.min_eq_right hle,List.take_of_length_le,List.take_of_length_le] <;>
      simp only [List.length_drop] <;> omega

theorem scaled_physRest (hb : b < blocksFor idx.records.length kBlockSize) :
    g.blockPhysical.getD b 0-g.blockMeasuredPhysical.getD b 0=(scaled h b hb).physRest := by
  have hwidth : (g.cachedHeights b).length≤kBlockSize := by
    have hfits := h.fits b
    rw [recordsInBlock] at hfits
    omega
  have hsplit := physical_rows_add idx.records b hwidth
  rw [h.physical b hb,h.measured b hb,hsplit,add_sub_cancel_left]
  rfl

theorem scaled_share (hb : b < blocksFor idx.records.length kBlockSize) (m : ℕ) :
    (((scaled h b hb).rest.take m).sum : ℤ)=
      EstimatedGeometry.physical (((rowsOf idx.records b kBlockSize).drop (g.cachedHeights b).length).take m) := by
  rw [EstimatedGeometry.physical,BlockPrefixSums.total,List.map_take]
  rfl

theorem measured_eq (hb : b < blocksFor idx.records.length kBlockSize) :
    g.measuredRecordsInBlock b=(scaled h b hb).measured.length := by
  rw [measuredRecordsInBlock,if_pos (by rw [h.blocks.1]; exact hb)]
  rfl

/-- The physical lines between a block's measured rows and its `i`-th. -/
theorem physBefore_eq (hs : idx.SumsValid) (hb : b < blocksFor idx.records.length kBlockSize)
    (hi : i < recordsInBlock idx.records.length b) (hm : (scaled h b hb).measured.length ≤ i) :
    (idx.firstLineOfRecord (b*kBlockSize+i) : ℤ)-idx.firstLineOfRecord
    (b*kBlockSize)-g.blockMeasuredPhysical.getD b 0=
      ((scaled h b hb).rest.take (i-(scaled h b hb).measured.length)).sum := by
  have hcut : b*kBlockSize+i ≤ idx.records.length := by
    rw [recordsInBlock] at hi
    omega
  have hrows : rowsOf idx.records b i=(rowsOf idx.records b kBlockSize).take i := by
    rw [recordsInBlock] at hi
    rw [rowsOf,rowsOf,List.take_take,Nat.min_eq_left (by omega)]
  have hfirst := total_take_add_drop RecordIndex.displayLines (b*kBlockSize) (idx.records.take (b*kBlockSize+i))
  rw [List.take_take,Nat.min_eq_left (Nat.le_add_right _ _),List.drop_take,Nat.add_sub_cancel_left] at hfirst
  have hsplit := physical_rows_add idx.records b hm
  have htake : (rowsOf idx.records b i).drop (g.cachedHeights b).length=
      ((rowsOf idx.records b kBlockSize).drop (g.cachedHeights b).length).take (i-(g.cachedHeights b).length) := by
    rw [hrows,List.drop_take]
  rw [hs.firstLineOfRecord hcut,hs.firstLineOfRecord (by omega),h.measured b hb]
  simp only [scaled] at hsplit ⊢
  rw [htake] at hsplit
  rw [← List.map_take]
  simp only [EstimatedGeometry.physical,rowsOf,BlockPrefixSums.total] at hsplit hfirst ⊢
  omega

/-- The first mapping is that of the block the row is in. -/
theorem firstLineOfRecord_eq (hs : idx.SumsValid) (hb : b < blocksFor idx.records.length kBlockSize)
    (hi : i < recordsInBlock idx.records.length b) : g.firstLineOfRecord idx (b*kBlockSize+i : ℕ)=
      g.blockStart idx.records.length b+(scaled h b hb).lineOf i := by
  have hin : b*kBlockSize+i < idx.records.length ∧ i < kBlockSize := by
    rw [recordsInBlock] at hi
    omega
  rcases Nat.eq_zero_or_pos (b*kBlockSize+i) with hz | hpos
  · have hb' : b=0 := by
      have hmul : b*kBlockSize=0 := by omega
      exact (Nat.mul_eq_zero.mp hmul).resolve_right (by decide)
    have hi' : i=0 := by omega
    subst hb' hi'
    simp [firstLineOfRecord,blockStart,ScaledBlock.lineOf]
  have hdiv : (b*kBlockSize+i)/kBlockSize=b := by
    rw [Nat.mul_comm,Nat.mul_add_div (by decide),Nat.div_eq_of_lt hin.2,Nat.add_zero]
  have hfirst : ¬(((b*kBlockSize+i : ℕ) : ℤ)≤0 ∨ idx.records.length=0) := by omega
  have hlast : ¬((b*kBlockSize+i : ℕ) : ℤ)≥idx.records.length := by omega
  rw [firstLineOfRecord]
  simp only [if_neg hfirst,if_neg hlast,Int.toNat_natCast,hdiv,Nat.add_sub_cancel_left]
  rw [linePrefix_eq h hb.le,measured_eq h hb,scaled_exact h hb,scaled_physRest h hb,← scaled_lines h hb,
    add_sub_cancel_left]
  split
  · rename_i hle
    rw [ScaledBlock.lineOf_inside hle]
    rfl
  · rename_i hgt
    rw [ScaledBlock.lineOf,if_neg hgt,physBefore_eq h hs hb hi (by omega),max_eq_right (Int.natCast_nonneg _)]
    split
    · rfl
    · push_cast
      ring

private theorem blockLines_nonneg (hb : b < blocksFor idx.records.length kBlockSize) :
    0≤g.blockLinesOf idx.records.length b := by
  have hest := h.estimate b hb
  rw [EstimatedGeometry.physical] at hest
  omega

theorem blockStart_mono {c : ℕ} (hbc : b≤c) (hc : c≤blocksFor idx.records.length kBlockSize) :
    g.blockStart idx.records.length b≤g.blockStart idx.records.length c := by
  induction c, hbc using Nat.le_induction with
  | base => exact le_rfl
  | succ c hle ih =>
    have hstep := @blockLines_nonneg g idx c h (by omega)
    have hlow := ih (by omega)
    rw [blockStart_succ]
    omega

/-- The second mapping finds the block a line is in and maps it there. -/
theorem recordAtLine_eq {line : ℤ} (hpos : 0 < line) (hlt : line < g.total) :
    ∃b,∃hb : b < blocksFor idx.records.length kBlockSize,g.blockStart idx.records.length b≤line ∧
      line < g.blockStart idx.records.length (b+1) ∧ g.recordAtLine idx line=
        (b*kBlockSize+(scaled h b hb).recordAt (line-g.blockStart idx.records.length b) : ℕ) := by
  have hblocks : 0 < blocksFor idx.records.length kBlockSize := by
    by_contra hz
    have hz : blocksFor idx.records.length kBlockSize=0 := by omega
    rw [total_eq h,hz,blockStart] at hlt
    simp at hlt
    omega
  have hzero : g.linePrefix.getD 0 0≤line := by
    rw [linePrefix_eq h (Nat.zero_le _)]
    exact hpos.le
  have hlast : line < g.linePrefix.getD (g.blockPhysical.length-1+1) 0 := by
    rw [h.blocks.2.2,Nat.sub_add_cancel hblocks,linePrefix_eq h le_rfl,← total_eq h]
    exact hlt
  obtain ⟨hle,hlo,hhi⟩ := lastBlock_spec (Nat.zero_le _) hzero hlast
  rw [recordAtLine]
  generalize lastBlock g.linePrefix line 0 (g.blockPhysical.length-1)=b at hle hlo hhi ⊢
  have hb : b < blocksFor idx.records.length kBlockSize := by
    rw [h.blocks.2.2] at hle
    omega
  have hn : idx.records.length≠0 := by
    have hmul := block_mul_lt hb
    omega
  rw [linePrefix_eq h hb.le] at hlo
  rw [linePrefix_eq h hb] at hhi
  refine ⟨b,hb,hlo,hhi,?_⟩
  have hfits := h.fits b
  have hmin : min (scaled h b hb).measured.length (recordsInBlock idx.records.length b)=
    (scaled h b hb).measured.length :=
    Nat.min_eq_left hfits
  simp only [if_neg hn,if_neg (show ¬line≤0 by omega),if_neg (show ¬line≥g.total by omega)]
  rw [linePrefix_eq h hb.le,measured_eq h hb,scaled_exact h hb,scaled_physRest h hb,← scaled_lines h hb,
    add_sub_cancel_left,hmin]
  have hlocal : 0≤line-g.blockStart idx.records.length b := by omega
  have hlength := scaled_length h hb
  have hrest : (scaled h b hb).rest=((idx.records.drop (b*kBlockSize+(scaled h b hb).measured.length)).take
      (recordsInBlock idx.records.length b-(scaled h b hb).measured.length)).map RecordIndex.displayLines :=
    scaled_rest h hb
  have hcached : g.cachedHeights b=(scaled h b hb).measured := rfl
  rw [← hrest,hcached,List.take_length,ScaledBlock.recordAt]
  generalize line-g.blockStart idx.records.length b=x at hlocal ⊢
  by_cases hx : x < (scaled h b hb).exact
  · have hsome : (g.recordLines b).isSome := by
      by_contra hnone
      have hnone : g.recordLines b=none := by simpa using hnone
      rw [ScaledBlock.exact,← hcached,cachedHeights,hnone] at hx
      simp at hx
      omega
    rw [if_pos ⟨hsome,hx⟩,if_pos hx]
    obtain ⟨m,hm,hle',hlt'⟩ := @exists_row x 0 (scaled h b hb).measured hlocal (by rw [zero_add]; exact hx)
    rw [scanHeights_at hm hle' hlt',scanHeights_at hm hle' hlt',zero_add]
  · rw [if_neg (fun hand => hx hand.2),if_neg hx]
    simp only []
    by_cases hnil : (scaled h b hb).rest=[]
    · rw [hnil,List.length_nil,Nat.add_zero] at hlength
      rw [if_pos (by omega),if_pos hnil]
      have hcount := recordsInBlock_pos hb
      omega
    · have hpos := List.length_pos_iff.mpr hnil
      rw [if_neg (by omega),if_neg hnil]
      split
      · rfl
      · rw [scanHeights_shift]
        push_cast
        cases scanHeights _ (scaled h b hb).rest 0 (scaled h b hb).measured.length with
        | some m => rfl
        | none =>
          simp only [Option.map_none,Option.getD_none]
          omega

theorem firstLineOfRecord_nonneg (hs : idx.SumsValid) (r : ℤ) : 0≤g.firstLineOfRecord idx r := by
  have hstart {b : ℕ} (hb : b≤blocksFor idx.records.length kBlockSize) : 0≤g.blockStart idx.records.length b :=
    blockStart_mono h (Nat.zero_le b) hb
  by_cases hin : 0 < r ∧ r < idx.records.length
  · obtain ⟨b,i,hb,hi,hr⟩ := exists_block (show r.toNat < idx.records.length by omega)
    have hcast : r=(b*kBlockSize+i : ℕ) := by omega
    have hzero := (scaled h b hb).lineOf_nonneg i
    rw [hcast,firstLineOfRecord_eq h hs hb hi]
    have hbegin := hstart hb.le
    omega
  · rw [firstLineOfRecord]
    dsimp only
    split
    · exact le_rfl
    · rw [if_pos (by omega),total_eq h]
      exact hstart le_rfl

/-- No record begins past the last line. -/
theorem firstLineOfRecord_le (hs : idx.SumsValid) (r : ℤ) : g.firstLineOfRecord idx r≤g.total := by
  by_cases hin : 0 < r ∧ r < idx.records.length
  · obtain ⟨b,i,hb,hi,hr⟩ := exists_block (show r.toNat < idx.records.length by omega)
    have hcast : r=(b*kBlockSize+i : ℕ) := by omega
    have hle := (scaled h b hb).lineOf_le i
    have hstep := blockStart_mono h (show b+1≤_ from hb) le_rfl
    rw [scaled_lines h hb] at hle
    rw [blockStart_succ] at hstep
    rw [hcast,firstLineOfRecord_eq h hs hb hi,total_eq h]
    omega
  · rw [firstLineOfRecord]
    dsimp only
    split
    · rw [total_eq h]
      exact blockStart_mono h (Nat.zero_le _) le_rfl
    · rw [if_pos (by omega)]

/-- A later record begins no earlier. -/
theorem firstLineOfRecord_mono (hs : idx.SumsValid) {r r' : ℤ} (hr : r≤r') :
    g.firstLineOfRecord idx r≤g.firstLineOfRecord idx r' := by
  by_cases hlow : r≤0 ∨ idx.records.length=0
  · rw [firstLineOfRecord]
    dsimp only
    rw [if_pos hlow]
    exact firstLineOfRecord_nonneg h hs r'
  by_cases hhigh : r'≥idx.records.length
  · have htotal : g.firstLineOfRecord idx r'=g.total := by
      rw [firstLineOfRecord]
      dsimp only
      rw [if_neg (by omega),if_pos hhigh]
    rw [htotal]
    exact firstLineOfRecord_le h hs r
  obtain ⟨b,i,hb,hi,hbi⟩ := exists_block (show r.toNat < idx.records.length by omega)
  obtain ⟨c,j,hc,hj,hcj⟩ := exists_block (show r'.toNat < idx.records.length by omega)
  have hcast : r=(b*kBlockSize+i : ℕ) := by omega
  have hcast' : r'=(c*kBlockSize+j : ℕ) := by omega
  have hin : i < kBlockSize ∧ j < kBlockSize := by
    rw [recordsInBlock] at hi hj
    omega
  rw [hcast,hcast',firstLineOfRecord_eq h hs hb hi,firstLineOfRecord_eq h hs hc hj]
  rcases Nat.lt_trichotomy b c with hlt | rfl | hgt
  · have hle := (scaled h b hb).lineOf_le i
    have hstep := blockStart_mono h (show b+1≤c from hlt) hc.le
    have hzero := (scaled h c hc).lineOf_nonneg j
    rw [scaled_lines h hb] at hle
    rw [blockStart_succ] at hstep
    omega
  · have hmono := (scaled h b hb).lineOf_mono (show i≤j by omega)
    omega
  · have hmul : c*kBlockSize+kBlockSize≤b*kBlockSize := by
      rw [← Nat.succ_mul]
      exact Nat.mul_le_mul_right _ hgt
    omega

/-- Where there is a record, every line is on one. -/
theorem recordAtLine_range (hne : idx.records≠[]) (line : ℤ) :
    0≤g.recordAtLine idx line ∧ g.recordAtLine idx line < idx.records.length := by
  have hpos := List.length_pos_iff.mpr hne
  by_cases hin : 0 < line ∧ line < g.total
  · obtain ⟨b,hb,hlo,hhi,heq⟩ := recordAtLine_eq h hin.1 hin.2
    have hcount := recordsInBlock_pos hb
    have hlt := @ScaledBlock.recordAt_lt (scaled h b hb) (line-g.blockStart idx.records.length b) (by omega)
      (by rw [scaled_length h hb]; exact hcount)
    rw [scaled_length h hb,recordsInBlock] at hlt
    rw [heq]
    omega
  · rw [recordAtLine]
    dsimp only
    rw [if_neg (by omega)]
    split
    · omega
    · rw [if_pos (by omega)]
      omega

/-- A later line is on no earlier record. -/
theorem recordAtLine_mono {line line' : ℤ} (hle : line≤line') :
    g.recordAtLine idx line≤g.recordAtLine idx line' := by
  by_cases hne : idx.records=[]
  · simp [recordAtLine,hne]
  have hrange := recordAtLine_range h hne
  have hpos := List.length_pos_iff.mpr hne
  by_cases hlow : line≤0
  · have hzero : g.recordAtLine idx line=0 := by
      rw [recordAtLine]
      dsimp only
      rw [if_neg (by omega),if_pos hlow]
    rw [hzero]
    exact (hrange line').1
  by_cases hhigh : line'≥g.total
  · have hlast : g.recordAtLine idx line'=(idx.records.length : ℤ)-1 := by
      rw [recordAtLine]
      dsimp only
      rw [if_neg (by omega),if_neg (by omega),if_pos hhigh]
    have hlt := (hrange line).2
    rw [hlast]
    omega
  obtain ⟨b,hb,hlo,hhi,heq⟩ := recordAtLine_eq h (show 0 < line by omega) (by omega)
  obtain ⟨c,hc,hlo',hhi',heq'⟩ := recordAtLine_eq h (show 0 < line' by omega) (by omega)
  rw [heq,heq']
  rcases Nat.lt_trichotomy b c with hlt | rfl | hgt
  · have hcount : 0 < recordsInBlock idx.records.length b := by
      have hmul := block_mul_lt hb
      have hsize : 0 < kBlockSize := by decide
      rw [recordsInBlock]
      omega
    have hin := @ScaledBlock.recordAt_lt (scaled h b hb) (line-g.blockStart idx.records.length b) (by omega)
      (by rw [scaled_length h hb]; exact hcount)
    have hmul : b*kBlockSize+kBlockSize≤c*kBlockSize := by
      rw [← Nat.succ_mul]
      exact Nat.mul_le_mul_right _ hlt
    rw [scaled_length h hb,recordsInBlock] at hin
    omega
  · have hmono := @ScaledBlock.recordAt_mono (scaled h b hb) (line-g.blockStart idx.records.length b)
      (line'-g.blockStart idx.records.length b) (by omega) (by omega)
    omega
  · have hstep := blockStart_mono h (show c+1≤b from hgt) hb.le
    omega

/-- Among rows that take a line each, a record is found again where it begins exactly where its block maps it
back. -/
theorem recordAtLine_firstLineOfRecord (hs : idx.SumsValid) (hm : ∀b,∀v∈g.cachedHeights b,0 < v)
    (hl : ∀rec∈idx.records,0 < rec.lineCount) (hb : b < blocksFor idx.records.length kBlockSize)
    (hi : i < recordsInBlock idx.records.length b) :
    g.recordAtLine idx (g.firstLineOfRecord idx (b*kBlockSize+i : ℕ))=(b*kBlockSize+i : ℕ)↔
      ((scaled h b hb).measured.length < i→(scaled h b hb).RoundsUp
        ((scaled h b hb).rest.take (i-(scaled h b hb).measured.length)).sum) := by
  have hdisplay (rec : Record) (hrec : rec∈idx.records) : 0 < RecordIndex.displayLines rec := by
    have hlines := hl rec hrec
    have hcap : 0 < kDisplayLineCap := by decide
    rw [RecordIndex.displayLines]
    omega
  have hrows (c : ℕ) (hc : c < blocksFor idx.records.length kBlockSize) : ∀d∈(scaled h c hc).rest,0 < d := by
    intro d hd
    obtain ⟨rec,hrec,rfl⟩ := List.mem_map.mp hd
    exact hdisplay rec (List.mem_of_mem_drop (List.mem_of_mem_take (List.mem_of_mem_drop hrec)))
  have hlast := (scaled h b hb).lineOf_lt (hm b) (hrows b hb) (by rw [scaled_length h hb]; exact hi)
  have hback := (scaled h b hb).recordAt_lineOf (hm b) (hrows b hb) (by rw [scaled_length h hb]; exact hi)
  have hline := firstLineOfRecord_eq h hs hb hi
  have hstep := blockStart_mono h (show b+1≤_ from hb) le_rfl
  rw [scaled_lines h hb] at hlast
  rw [blockStart_succ,← total_eq h] at hstep
  rcases (firstLineOfRecord_nonneg h hs (b*kBlockSize+i : ℕ)).eq_or_lt with hz | hpos
  · -- Only the first record begins on the first line.
    have hzero := (scaled h b hb).lineOf_nonneg i
    have hbegin := blockStart_mono h (Nat.zero_le b) hb.le
    rw [show g.blockStart idx.records.length 0=0 from rfl] at hbegin
    have hb' : b=0 := by
      by_contra hne
      have hfirst : 0 < blocksFor idx.records.length kBlockSize := by omega
      have hlines := (scaled h 0 hfirst).lineOf_lt (hm 0) (hrows 0 hfirst)
        (by rw [scaled_length h hfirst]; exact recordsInBlock_pos hfirst)
      have hzero' := (scaled h 0 hfirst).lineOf_nonneg 0
      have hone := blockStart_mono h (show 1≤b by omega) hb.le
      rw [scaled_lines h hfirst] at hlines
      rw [blockStart_succ,show g.blockStart idx.records.length 0=0 from rfl] at hone
      omega
    have hi' : i=0 := by
      by_contra hne
      have hposi := (scaled h b hb).lineOf_pos (hm b) (hrows b hb) (show 0 < i by omega)
        (by rw [scaled_length h hb]; exact hi)
      omega
    subst hb' hi'
    have hn : idx.records.length≠0 := by
      have hmul := block_mul_lt hb
      omega
    refine ⟨fun _ hgt => absurd hgt (Nat.not_lt_zero _),fun _ => ?_⟩
    rw [← hz,recordAtLine]
    simp [hn]
  · obtain ⟨c,hc,hlo,hhi,heq⟩ := recordAtLine_eq h hpos (by omega)
    have hbc : c=b := by
      rcases Nat.lt_trichotomy c b with hlt | heq | hgt
      · have hbefore := blockStart_mono h (show c+1≤b from hlt) hb.le
        have hzero := (scaled h b hb).lineOf_nonneg i
        omega
      · exact heq
      · have hbehind := blockStart_mono h (show b+1≤c from hgt) hc.le
        rw [blockStart_succ] at hbehind
        omega
    subst hbc
    rw [heq,hline,add_sub_cancel_left,← hback]
    omega

end Blocks

/-- The height a view measures of a row: `WrapMetrics::recordLines`, given the lines its text wraps into. -/
def rowHeight (lines : ℤ) : ℕ := (max 1 (min lines kDisplayLineCap)).toNat

/-- The states a view brings its geometry to. The rows are an indexer's, of a line or more; the
measured heights are the view's own. -/
inductive Drawn : EstimatedGeometry→RecordIndex→List Record→Prop
  | reset {idx : RecordIndex} (hs : idx.SumsValid) (hl : ∀rec∈idx.records,0 < rec.lineCount) (w : ℤ) :
    Drawn (reset idx w) idx idx.records
  | setWrapWidth {g : EstimatedGeometry} {idx : RecordIndex} {base : List Record} (h : Drawn g idx base) (w : ℤ) :
    Drawn (g.setWrapWidth idx.records.length w).1 idx base
  | invalidate {g : EstimatedGeometry} {idx : RecordIndex} {base : List Record} (h : Drawn g idx base) :
    Drawn (g.invalidateMeasurements idx.records.length) idx base
  | measureBlock {g : EstimatedGeometry} {idx : RecordIndex} {base : List Record} (h : Drawn g idx base) (block : ℤ)
    (wrapped : List ℤ) (first : ℤ) : Drawn (g.measureBlock idx block (wrapped.map rowHeight) first) idx base
  | syncTail {g : EstimatedGeometry} {idx : RecordIndex} {base : List Record} (h : Drawn g idx base) :
    Drawn (g.syncTail idx).1 idx idx.records
  | grow {g : EstimatedGeometry} {idx : RecordIndex} (h : Drawn g idx idx.records) (rows : List Record)
    (hl : ∀rec∈rows,0 < rec.lineCount) : Drawn g (idx.replaceTail rows) idx.records

private theorem Drawn.reachable {g : EstimatedGeometry} {idx : RecordIndex} {base : List Record}
    (h : Drawn g idx base) :
    Reachable g idx base := by
  induction h with
  | reset hs _ w => exact .reset hs w
  | setWrapWidth _ w ih => exact .setWrapWidth ih w
  | invalidate _ ih => exact .invalidate ih
  | measureBlock _ block wrapped first ih => exact .measureBlock ih block _ first
  | syncTail _ ih => exact .syncTail ih
  | grow _ rows _ ih => exact .grow ih rows

/-- Measured rows take a line each. -/
def Tall (g : EstimatedGeometry) : Prop := ∀b,∀v∈g.cachedHeights b,0 < v

section Heights
variable {g : EstimatedGeometry} {idx : RecordIndex}

private theorem rowHeight_pos (lines : ℤ) : 0 < rowHeight lines := by
  rw [rowHeight]
  omega

theorem tall_of_bare (h : ∀b,g.recordLines b=none) : g.Tall := by
  intro b v hv
  rw [cachedHeights,h b] at hv
  exact absurd hv List.not_mem_nil

theorem setBlockMeasurement_tall (h : g.Tall) {b : ℕ} {lines : List ℕ} (hl : ∀v∈lines,0 < v) :
    (g.setBlockMeasurement idx b lines).Tall := by
  intro b' v hv
  rw [setBlockMeasurement_eq,cachedHeights] at hv
  dsimp only at hv
  split at hv
  · rw [entry_getD] at hv
    exact hl v hv
  · exact h b' v hv

private theorem measureBlock_tall (h : g.Tall) (block : ℤ) (wrapped : List ℤ) (first : ℤ) :
    (g.measureBlock idx block (wrapped.map rowHeight) first).Tall := by
  rw [measureBlock]
  split
  · exact h
  dsimp only
  split
  · exact h
  split
  · exact h
  split
  · exact h
  · apply setBlockMeasurement_tall h
    intro v hv
    rcases List.mem_append.mp hv with hkept | hnew
    · exact h _ v (List.mem_of_mem_take hkept)
    · obtain ⟨lines,-,rfl⟩ := List.mem_map.mp (List.mem_of_mem_take hnew)
      exact rowHeight_pos lines

private theorem regrown_tall (h : g.Tall) (firstBlock : ℕ) : (g.regrown idx firstBlock).Tall := by
  intro b v hv
  rw [regrown,cachedHeights] at hv
  dsimp only at hv
  split at hv
  · exact absurd hv List.not_mem_nil
  · exact h b v hv

private theorem truncate_tall (h : g.Tall) (block keep : ℕ) : (g.truncateBlockMeasurement idx block keep).Tall := by
  rw [truncateBlockMeasurement]
  split
  · exact h
  split
  · exact h
  · rename_i cached hc
    split
    · exact h
    · apply setBlockMeasurement_tall h
      intro v hv
      apply h block
      rw [cachedHeights,hc]
      exact List.mem_of_mem_take hv

private theorem syncTail_tall (h : g.Tall) : (g.syncTail idx).1.Tall := by
  rw [syncTail]
  dsimp only
  split
  · exact h
  · exact @truncate_tall _ idx (regrown_tall h _) _ _

/-- The run: measured rows and all others take a line each. -/
theorem Drawn.tall {base : List Record} (h : Drawn g idx base) : g.Tall ∧ ∀rec∈idx.records,0 < rec.lineCount := by
  induction h with
  | reset _ hl w => exact ⟨tall_of_bare fun _ => rfl,hl⟩
  | setWrapWidth _ w ih =>
    refine ⟨?_,ih.2⟩
    rw [EstimatedGeometry.setWrapWidth]
    split
    · exact ih.1
    · exact tall_of_bare fun _ => rfl
  | invalidate _ ih => exact ⟨tall_of_bare fun _ => rfl,ih.2⟩
  | measureBlock _ block wrapped first ih => exact ⟨measureBlock_tall ih.1 block wrapped first,ih.2⟩
  | syncTail _ ih => exact ⟨syncTail_tall ih.1,ih.2⟩
  | grow _ rows hl ih =>
    refine ⟨ih.1,fun rec hrec => ?_⟩
    rw [RecordIndex.replaceTail_records] at hrec
    rcases List.mem_append.mp hrec with hold | hnew
    · exact ih.2 rec (List.dropLast_subset _ hold)
    · exact hl rec hnew

end Heights

/-- Both mappings ascend, the second one stays in range, and it undoes the first. -/
structure MappingsAgree (g : EstimatedGeometry) (idx : RecordIndex) : Prop where
  first_mono : ∀r r',r≤r' → g.firstLineOfRecord idx r≤g.firstLineOfRecord idx r'
  at_mono : ∀line line',line≤line' → g.recordAtLine idx line≤g.recordAtLine idx line'
  at_range : idx.records≠[]→∀line,0≤g.recordAtLine idx line ∧ g.recordAtLine idx line < idx.records.length
  back : ∀r : ℕ,r < idx.records.length → g.recordAtLine idx (g.firstLineOfRecord idx r)=r

/-- In no block does a record behind the measured ones and the first after them begin at a share of the estimate
that rounds down: of `physRest` lines left there are `p` before it, and the estimate for them is `estRest`. -/
def NoShareRoundsDown (g : EstimatedGeometry) (rows : List Record) : Prop :=
  ∀b i,b*kBlockSize+i < rows.length→i < kBlockSize→(g.cachedHeights b).length < i→
    let rest := (rowsOf rows b kBlockSize).drop (g.cachedHeights b).length
    let estRest := g.blockLinesOf rows.length b-(g.cachedHeights b).sum
    let p := physical (rest.take (i-(g.cachedHeights b).length))
    p*estRest%physical rest=0 ∨ physical rest≤2*(p*estRest%physical rest)

theorem mappings_agree {g : EstimatedGeometry} {idx : RecordIndex} (h : Drawn g idx idx.records) :
    (∀r r',r≤r' → g.firstLineOfRecord idx r≤g.firstLineOfRecord idx r') ∧
      (∀line line',line≤line' → g.recordAtLine idx line≤g.recordAtLine idx line') ∧
      (idx.records≠[]→∀line,0≤g.recordAtLine idx line ∧ g.recordAtLine idx line < idx.records.length) ∧
      (MappingsAgree g idx↔NoShareRoundsDown g idx.records) := by
  obtain ⟨hkept,hs,-⟩ := h.reachable.kept
  have hrep := hkept.represents
  obtain ⟨htall,hl⟩ := h.tall
  have hfirst (r r' : ℤ) (hle : r≤r') := firstLineOfRecord_mono hrep hs hle
  have hat (line line' : ℤ) (hle : line≤line') := recordAtLine_mono hrep hle
  have hrange (hne : idx.records≠[]) := recordAtLine_range hrep hne
  refine ⟨hfirst,hat,hrange,fun hagree b i hin hi hgt => ?_,fun hno => ⟨hfirst,hat,hrange,fun r hr => ?_⟩⟩
  · have hb := div_lt_blocksFor (B:=kBlockSize) (by decide) (show b*kBlockSize < idx.records.length by omega)
    rw [Nat.mul_div_cancel _ (by decide)] at hb
    have hcount : i < recordsInBlock idx.records.length b := by
      rw [recordsInBlock]
      omega
    have hback := (recordAtLine_firstLineOfRecord hrep hs htall hl hb hcount).mp (hagree.back _ hin) hgt
    rw [ScaledBlock.RoundsUp,scaled_share] at hback
    exact hback
  · obtain ⟨b,i,hb,hi,rfl⟩ := exists_block hr
    rw [recordAtLine_firstLineOfRecord hrep hs htall hl hb hi]
    intro hgt
    have hsize : i < kBlockSize := by
      rw [recordsInBlock] at hi
      omega
    rw [ScaledBlock.RoundsUp,scaled_share]
    exact hno b i hr hsize hgt

/-- Two rows, of three lines and of one. -/
def twoRows : RecordIndex :=
  {RecordIndex.empty with records :=
    [⟨0,kNoTimestamp,12,0,0,3,.unknown⟩,⟨12,kNoTimestamp,4,0,0,1,.unknown⟩]}.rebuildBlockSums

/-- The second one again, and a third of two lines behind it. -/
def threeRows : RecordIndex := twoRows.replaceTail
    [⟨12,kNoTimestamp,4,0,0,1,.unknown⟩,⟨16,kNoTimestamp,8,0,0,2,.unknown⟩]

/-- The first row has wrapped into four lines, the others are estimated by it. -/
def grownView : EstimatedGeometry :=
  (((reset twoRows 80).measureBlock twoRows 0 ([4,1].map rowHeight) 0).syncTail threeRows).1

theorem grownView_drawn : Drawn grownView threeRows threeRows.records := by
  have hs : twoRows.SumsValid := RecordIndex.rebuildBlockSums_valid _
  have hl : ∀rec∈twoRows.records,0 < rec.lineCount := by decide
  exact .syncTail (.grow (.measureBlock (.reset hs hl 80) 0 [4,1] 0) _ (by decide))

/-- The third row begins on line 5, and line 5 is on the second one. -/
theorem third_row_lost : ¬∀g idx,Drawn g idx idx.records→MappingsAgree g idx := by
  intro h
  have hno := (h grownView threeRows grownView_drawn).back 2 (by decide)
  revert hno
  decide +kernel

theorem mappings_agree_grown : (∀r r',r≤r' →
    grownView.firstLineOfRecord threeRows r≤grownView.firstLineOfRecord threeRows r') ∧
    (MappingsAgree grownView threeRows↔NoShareRoundsDown grownView threeRows.records) := by
  have h := mappings_agree grownView_drawn
  exact ⟨h.1,h.2.2.2⟩

end EstimatedGeometry

end Loftail
