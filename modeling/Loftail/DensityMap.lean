import Loftail.BlockPrefixSums
import Loftail.Record
import Mathlib.Data.Set.Insert
import Mathlib.Logic.Function.Basic
import Mathlib.Order.BooleanAlgebra.Set

/-! # The density map: buckets of view rows and the marks found in them -/
namespace Loftail
open BlockPrefixSums

/-- A set of mark classes, one bit each. -/
abbrev Marks := UInt32

/-- `DensityMap::kNone`. -/
def kNone : Marks := 0

/-- `DensityMap::kMaxBuckets`. -/
def kMaxBuckets : ℕ := 2048

inductive Lane | rules | find
  deriving DecidableEq

structure LaneState where
  bucket : List Marks
  scanned : ℕ
  deriving DecidableEq

/-- The two lanes share one bucket geometry. -/
structure DensityMap where
  rows : ℕ
  rowsPerBucket : ℕ
  lane : Lane→LaneState

/-- Neighbours joined. -/
def mergePairs : List Marks→List Marks
  | [] => []
  | [a] => [a]
  | a::b::rest => (a ||| b)::mergePairs rest

namespace DensityMap

/-- A map that nothing has been bound to. -/
def initial : DensityMap := ⟨0,1,fun _ => ⟨[],0⟩⟩

def bucketCount (m : DensityMap) : ℕ := (m.lane .rules).bucket.length

def bucketOf (m : DensityMap) (row : ℕ) : ℕ :=
  if m.rowsPerBucket=0 then 0 else min (row/m.rowsPerBucket) (m.bucketCount-1)

def firstRowOf (m : DensityMap) (bucket : ℕ) : ℕ := bucket*m.rowsPerBucket

def marksAt (m : DensityMap) (l : Lane) (bucket : ℕ) : Marks := (m.lane l).bucket.getD bucket kNone

def complete (m : DensityMap) (l : Lane) : Bool := decide ((m.lane l).scanned≥m.rows)

def merged (m : DensityMap) : DensityMap :=
  {m with rowsPerBucket := m.rowsPerBucket*2
          lane := fun l => {m.lane l with bucket := mergePairs (m.lane l).bucket}}

/-- The loop that joins buckets while there are too many. -/
def coarsen : ℕ→DensityMap→DensityMap
  | 0,m => m
  | fuel+1,m => if blocksFor m.rows m.rowsPerBucket>kMaxBuckets then coarsen fuel m.merged else m

/-- The geometry brought into line with the rows. A width of `rows` is wide enough, so that
many rounds are. -/
def reshape (m : DensityMap) : DensityMap :=
  if m.rows=0 then {m with rowsPerBucket := 1,lane := fun _ => ⟨[],0⟩} else
    let m := coarsen m.rows m
    {m with lane := fun l =>
      ⟨resized kNone (m.lane l).bucket (blocksFor m.rows m.rowsPerBucket),min (m.lane l).scanned m.rows⟩}

def rebind (_ : DensityMap) (rows : ℤ) : DensityMap := reshape ⟨rows.toNat,1,fun _ => ⟨[],0⟩⟩

def setRows (m : DensityMap) (rows : ℤ) : DensityMap :=
  let n := rows.toNat
  if n=m.rows then m
  else if n < m.rows then
    let m := reshape {m with rows := n}
    if 0 < m.bucketCount then
      let last := m.bucketCount-1
      {m with lane := fun l =>
        ⟨(m.lane l).bucket.set last kNone,min (m.lane l).scanned (m.firstRowOf last)⟩}
    else {m with lane := fun l => {m.lane l with scanned := 0}}
  else reshape {m with rows := n}

/-- `qBound(0, row, rows-1)`. -/
def clampRow (m : DensityMap) (row : ℤ) : ℕ := min row.toNat (m.rows-1)

def invalidateRows (m : DensityMap) (firstRow lastRow : ℤ) : DensityMap :=
  if m.rows=0 ∨ m.bucketCount=0 then m else
    let firstBucket := m.bucketOf (m.clampRow (min firstRow lastRow))
    let lastBucket := m.bucketOf (m.clampRow (max firstRow lastRow))
    {m with lane := fun l =>
      ⟨(m.lane l).bucket.mapIdx (fun b marks => if firstBucket≤b ∧ b≤lastBucket then kNone else marks),
        min (m.lane l).scanned (m.firstRowOf firstBucket)⟩}

def setLane (m : DensityMap) (l : Lane) (s : LaneState) : DensityMap := {m with lane := Function.update m.lane l s}

def clear (m : DensityMap) (l : Lane) : DensityMap := m.setLane l ⟨(m.lane l).bucket.map (fun _ => kNone),0⟩

/-- Where a scan of some budget ends. -/
def scanEnd (m : DensityMap) (l : Lane) (budgetRows : ℤ) : ℕ := min m.rows ((m.lane l).scanned+budgetRows.toNat)

/-- One row's answer into its bucket. -/
def mark (m : DensityMap) (probe : ℕ→Marks) (bucket : List Marks) (row : ℕ) : List Marks :=
  if probe row=kNone then bucket else bucket.modify (m.bucketOf row) (· ||| probe row)

def scan (m : DensityMap) (l : Lane) (budgetRows : ℤ) (probe : ℕ→Marks) : DensityMap×ℕ :=
  let s := m.lane l
  if budgetRows≤0 ∨ s.scanned≥m.rows ∨ s.bucket.isEmpty then (m,0) else
    let stop := m.scanEnd l budgetRows
    (m.setLane l ⟨(List.range' s.scanned (stop-s.scanned)).foldl (m.mark probe) s.bucket,stop⟩,stop-s.scanned)

end DensityMap

/-- Whether class `k` is among the marks. -/
def Marked (marks : Marks) (k : ℕ) : Prop := marks.toBitVec.getLsbD k=true

@[simp] theorem not_marked_kNone (k : ℕ) : ¬Marked kNone k := by simp [Marked,kNone]

@[simp] theorem marked_or {a b : Marks} {k : ℕ} : Marked (a ||| b) k ↔ Marked a k ∨ Marked b k := by simp [Marked]

private theorem marks_ext {a b : Marks} (h : ∀k,Marked a k ↔ Marked b k) : a=b :=
  UInt32.toBitVec_inj.mp (BitVec.eq_of_getLsbD_eq fun k _ => Bool.eq_iff_iff.mpr (h k))

private theorem marked_foldl {rows : List ℕ} {probe : ℕ→Marks} {a : Marks} {k : ℕ} :
    Marked (rows.foldl (fun marks row => marks ||| probe row) a) k ↔ Marked a k ∨ ∃row∈rows,Marked
    (probe row) k := by
  induction rows generalizing a with
  | nil => simp
  | cons r rs ih => simp [ih,or_assoc]

private theorem length_mergePairs (xs : List Marks) : (mergePairs xs).length=(xs.length+1)/2 := by
  induction xs using mergePairs.induct with
  | case1 => rfl
  | case2 a => simp [mergePairs]
  | case3 a b rest ih =>
    simp only [mergePairs,List.length_cons,ih]
    omega

theorem getD_mergePairs (xs : List Marks) (b : ℕ) :
    (mergePairs xs).getD b kNone=xs.getD (2*b) kNone ||| xs.getD (2*b+1) kNone := by
  induction xs using mergePairs.induct generalizing b with
  | case1 => simp [mergePairs,kNone]
  | case2 a => cases b <;> simp [mergePairs,kNone,Nat.mul_add]
  | case3 a c rest ih =>
    cases b with
    | zero => simp [mergePairs]
    | succ b => simpa [mergePairs,Nat.mul_add] using ih b

/-- Growing a vector changes no answer. -/
theorem getD_resized {xs : List Marks} {n : ℕ} (h : xs.length≤n) (b : ℕ) :
    (resized kNone xs n).getD b kNone=xs.getD b kNone := by
  rw [resized,List.take_of_length_le h]
  simp only [List.getD_eq_getElem?_getD,List.getElem?_append,List.getElem?_replicate]
  split
  · rfl
  · rw [List.getElem?_eq_none (by omega)]
    split <;> rfl

/-- Shrinking drops the buckets past the end, and the last one that stays is cleared. -/
theorem getD_shrunk {xs : List Marks} {n : ℕ} (h : n≤xs.length) (b : ℕ) :
    ((resized kNone xs n).set (n-1) kNone).getD b kNone=if b<n-1 then xs.getD b kNone else kNone := by
  have hz : resized kNone xs n=xs.take n := by simp [resized,Nat.sub_eq_zero_of_le h]
  rw [hz,List.getD_eq_getElem?_getD,List.getD_eq_getElem?_getD]
  by_cases hb : b<n-1
  · rw [if_pos hb,List.getElem?_set_ne (by omega),List.getElem?_take_of_lt (by omega)]
  · rw [if_neg hb]
    by_cases hl : n-1=b
    · subst hl
      rw [List.getElem?_set]
      split
      · split <;> rfl
      · exact absurd rfl ‹_›
    · rw [List.getElem?_eq_none (by simp; omega)]
      rfl

/-- What is true of a lane: every row scanned has left its marks, and every mark is that of a
row whose answer still stands. The `fresh` rows are those that may answer anything. -/
structure LaneTruth (rows width : ℕ) (probe : ℕ→Marks) (fresh : Set ℕ) (s : LaneState) : Prop where
  within : s.scanned≤rows
  behind : ∀row∈fresh,row<rows → s.scanned≤row
  covers : ∀ row k,row<s.scanned → Marked (probe row) k → Marked (s.bucket.getD (row/width) kNone) k
  only : ∀ b k,Marked (s.bucket.getD b kNone) k → ∃row<rows,row/width=b ∧ row∉fresh ∧ Marked (probe row) k

namespace LaneTruth

variable {rows width : ℕ} {probe : ℕ→Marks} {fresh : Set ℕ} {s : LaneState}

/-- A lane started again. -/
theorem blank {bucket : List Marks} (h : ∀b,bucket.getD b kNone=kNone) :
    LaneTruth rows width probe fresh ⟨bucket,0⟩ where
  within := Nat.zero_le _
  behind _ _ _ := Nat.zero_le _
  covers _ _ h := absurd h (Nat.not_lt_zero _)
  only b k hk := absurd (h b ▸ hk) (not_marked_kNone k)

theorem congr (h : LaneTruth rows width probe fresh s) {bucket : List Marks}
    (hb : ∀b,bucket.getD b kNone=s.bucket.getD b kNone) : LaneTruth rows width probe fresh ⟨bucket,s.scanned⟩ where
  within := h.within
  behind := h.behind
  covers row k hr hk := by rw [hb]; exact h.covers row k hr hk
  only b k hk := h.only b k (by rwa [← hb])

/-- Joining neighbours joins their rows. -/
theorem merge (h : LaneTruth rows width probe fresh s) :
    LaneTruth rows (width*2) probe fresh {s with bucket := mergePairs s.bucket} where
  within := h.within
  behind := h.behind
  covers row k hr hk := by
    have hc := h.covers row k hr hk
    rw [← Nat.div_div_eq_div_mul,getD_mergePairs,marked_or]
    rcases Nat.mod_two_eq_zero_or_one (row/width) with hm | hm
    · left
      rwa [show 2*(row/width/2)=row/width by omega]
    · right
      rwa [show 2*(row/width/2)+1=row/width by omega]
  only b k hk := by
    rw [getD_mergePairs,marked_or] at hk
    rcases hk with hk | hk <;> obtain ⟨row,hr,hb,hf,hm⟩ := h.only _ k hk <;>
      exact ⟨row,hr,by rw [← Nat.div_div_eq_div_mul,hb]; omega,hf,hm⟩

theorem grow (h : LaneTruth rows width probe fresh s) {n : ℕ} (hn : rows≤n) :
    LaneTruth n width probe (fresh ∪ {row | rows≤row}) s where
  within := h.within.trans hn
  behind := by
    rintro row (hf | hr) -
    · by_cases hlt : row<rows
      · exact h.behind row hf hlt
      · exact h.within.trans (by omega)
    · exact h.within.trans hr
  covers := h.covers
  only b k hk := by
    obtain ⟨row,hr,hb,hf,hm⟩ := h.only b k hk
    exact ⟨row,hr.trans_le hn,hb,by simp [hf,hr],hm⟩

/-- Buckets cleared from `lo` on, and the scan taken back to the first row of it. -/
theorem rewind (h : LaneTruth rows width probe fresh s) {n lo : ℕ} {withdrawn : Set ℕ} {bucket : List Marks}
    (hn : n≤rows) (hlo : lo*width≤n) (hkeep : ∀b<lo,bucket.getD b kNone=s.bucket.getD b kNone)
    (hold : ∀b,bucket.getD b kNone=kNone ∨ bucket.getD b kNone=s.bucket.getD b kNone)
    (hw : ∀row∈withdrawn,lo≤row/width ∧ bucket.getD (row/width) kNone=kNone)
    (hgone : ∀ row,n≤row → row<rows → bucket.getD (row/width) kNone=kNone) :
    LaneTruth n width probe (fresh ∪ withdrawn) ⟨bucket,min s.scanned (lo*width)⟩ where
  within := (Nat.min_le_right _ _).trans hlo
  behind := by
    rintro row (hf | hf) hr
    · exact (Nat.min_le_left _ _).trans (h.behind row hf (hr.trans_le hn))
    · exact (Nat.min_le_right _ _).trans ((Nat.mul_le_mul_right _ (hw row hf).1).trans (Nat.div_mul_le_self _ _))
  covers row k hr hk := by
    have hlt : row<s.scanned ∧ row<width*lo := by
      rw [Nat.mul_comm]
      exact Nat.lt_min.mp hr
    rw [hkeep _ (Nat.div_lt_of_lt_mul hlt.2)]
    exact h.covers row k hlt.1 hk
  only b k hk := by
    rcases hold b with hb | hb
    · exact absurd (hb ▸ hk) (not_marked_kNone k)
    · obtain ⟨row,hr,rfl,hf,hm⟩ := h.only b k (by rwa [← hb])
      refine ⟨row,?_,rfl,?_,hm⟩
      · by_contra hge
        exact not_marked_kNone k (hgone row (by omega) hr ▸ hk)
      · rintro (hf' | hf')
        · exact hf hf'
        · exact not_marked_kNone k ((hw row hf').2 ▸ hk)

/-- Answers may change where nothing stands on them. -/
theorem change (h : LaneTruth rows width probe fresh s) {probe' : ℕ→Marks}
    (hp : ∀row∉fresh,probe' row=probe row) : LaneTruth rows width probe' fresh s where
  within := h.within
  behind := h.behind
  covers row k hr hk := by
    have hf : row∉fresh := fun hf => by
      have := h.behind row hf (hr.trans_le h.within)
      omega
    exact h.covers row k hr (by rwa [← hp row hf])
  only b k hk := by
    obtain ⟨row,hr,hb,hf,hm⟩ := h.only b k hk
    exact ⟨row,hr,hb,hf,by rwa [hp row hf]⟩

/-- One more row scanned. -/
theorem mark {m : DensityMap} {row : ℕ} {bucket : List Marks} (hb : m.bucketOf row=row/width)
    (h : LaneTruth rows width probe fresh ⟨bucket,row⟩) (hr : row<rows) (hlen : row/width<bucket.length) :
    LaneTruth rows width probe (fresh\{row}) ⟨m.mark probe bucket row,row+1⟩ := by
  have hget (b : ℕ) (k : ℕ) : Marked ((m.mark probe bucket row).getD b kNone) k ↔
      Marked (bucket.getD b kNone) k ∨ (b=row/width ∧ Marked (probe row) k) := by
    unfold DensityMap.mark
    split
    · simp_all
    · rw [hb,List.getD_eq_getElem?_getD,List.getD_eq_getElem?_getD,List.getElem?_modify]
      by_cases hbr : row/width=b
      · subst hbr
        simp [List.getElem?_eq_getElem hlen]
      · simp [hbr,Ne.symm hbr]
  refine ⟨hr,?_,?_,?_⟩
  · intro r hf hr'
    have hle := h.behind r hf.1 hr'
    have hne : r≠row := hf.2
    simp only at hle ⊢
    omega
  · intro r k hr' hk
    rw [hget]
    rcases Nat.lt_succ_iff_lt_or_eq.mp hr' with hlt | rfl
    · exact Or.inl (h.covers r k hlt hk)
    · exact Or.inr ⟨rfl,hk⟩
  · intro b k hk
    rcases (hget b k).mp hk with hold | ⟨rfl,hnew⟩
    · obtain ⟨r,hr',hrb,hf,hm⟩ := h.only b k hold
      exact ⟨r,hr',hrb,fun hf' => hf hf'.1,hm⟩
    · exact ⟨row,hr,rfl,fun hf => hf.2 rfl,hnew⟩

end LaneTruth

/-- A map whose lanes are true, and hold no more buckets than their rows take. -/
structure Loose (m : DensityMap) (probe : Lane→ℕ→Marks) (fresh : Lane→Set ℕ) : Prop where
  width : 0 < m.rowsPerBucket
  fits : ∀l,(m.lane l).bucket.length≤blocksFor m.rows m.rowsPerBucket
  lane : ∀l,LaneTruth m.rows m.rowsPerBucket (probe l) (fresh l) (m.lane l)

/-- A map whose lanes are true, with just as many buckets, few enough. -/
structure Truthful (m : DensityMap) (probe : Lane→ℕ→Marks) (fresh : Lane→Set ℕ) : Prop where
  width : 0 < m.rowsPerBucket
  count : ∀l,(m.lane l).bucket.length=blocksFor m.rows m.rowsPerBucket
  cap : blocksFor m.rows m.rowsPerBucket≤kMaxBuckets
  lane : ∀l,LaneTruth m.rows m.rowsPerBucket (probe l) (fresh l) (m.lane l)

namespace DensityMap

variable {m : DensityMap} {probe : Lane→ℕ→Marks} {fresh : Lane→Set ℕ}

private theorem merged_loose (h : Loose m probe fresh) : Loose m.merged probe fresh where
  width := Nat.mul_pos h.width (by decide)
  fits l := by
    have hf := h.fits l
    simp only [merged,length_mergePairs,blocksFor_double m.rows h.width]
    omega
  lane l := (h.lane l).merge

@[simp] theorem coarsen_rows (fuel : ℕ) (m : DensityMap) : (coarsen fuel m).rows=m.rows := by
  induction fuel generalizing m with
  | zero => rfl
  | succ fuel ih =>
    rw [coarsen]
    split
    · exact ih m.merged
    · rfl

private theorem coarsen_loose (h : Loose m probe fresh) (fuel : ℕ) : Loose (coarsen fuel m) probe fresh := by
  induction fuel generalizing m with
  | zero => exact h
  | succ fuel ih =>
    rw [coarsen]
    split
    · exact ih (merged_loose h)
    · exact h

/-- Joining goes on until the buckets are few enough: the width reaches the rows before the fuel runs out. -/
theorem coarsen_cap {fuel : ℕ} (hw : 0 < m.rowsPerBucket) (hf : m.rows≤fuel+m.rowsPerBucket) :
    blocksFor m.rows (coarsen fuel m).rowsPerBucket≤kMaxBuckets := by
  induction fuel generalizing m with
  | zero => exact (blocksFor_le_one hw (by omega)).trans (by decide)
  | succ fuel ih =>
    rw [coarsen]
    split
    · exact ih (m:=m.merged) (Nat.mul_pos hw (by decide)) (by simp only [merged]; omega)
    · exact Nat.le_of_not_gt ‹_›

theorem reshape_truthful (h : Loose m probe fresh) : Truthful m.reshape probe fresh := by
  unfold reshape
  by_cases hz : m.rows=0
  · rw [if_pos hz]
    refine ⟨Nat.one_pos,fun l => ?_,?_,fun l => .blank (by simp)⟩ <;> simp [hz,blocksFor]
  · rw [if_neg hz]
    have hl := coarsen_loose h m.rows
    refine ⟨hl.width,fun l => length_resized,?_,fun l => ?_⟩
    · dsimp only
      rw [coarsen_rows]
      exact coarsen_cap h.width (by omega)
    · dsimp only
      rw [Nat.min_eq_left (hl.lane l).within]
      exact (hl.lane l).congr fun b => getD_resized (hl.fits l) b

private theorem rebind_truthful (m : DensityMap) (rows : ℤ) :
    Truthful (m.rebind rows) probe fresh :=
  reshape_truthful ⟨Nat.one_pos,fun _ => Nat.zero_le _,fun _ => .blank (by simp)⟩

/-- A map that is not coarsened keeps its lanes up to their length. -/
theorem reshape_shrunk (hz : m.rows≠0) (hcap : blocksFor m.rows m.rowsPerBucket≤kMaxBuckets) : m.reshape=
    {m with lane := fun l =>
      ⟨resized kNone (m.lane l).bucket (blocksFor m.rows m.rowsPerBucket),min (m.lane l).scanned m.rows⟩} := by
  have hc : coarsen m.rows m=m := by
    obtain ⟨fuel,hf⟩ := Nat.exists_eq_succ_of_ne_zero hz
    rw [hf,coarsen,if_neg (by omega)]
  rw [reshape,if_neg hz]
  simp only [hc]

private theorem setRows_truthful (h : Truthful m probe fresh) (rows : ℤ) :
    Truthful (m.setRows rows) probe (fun l => fresh l ∪ {row | min m.rows rows.toNat≤row}) := by
  have hsame {n : ℕ} (hn : m.rows≤n) (l : Lane) : LaneTruth n m.rowsPerBucket (probe l)
      (fresh l ∪ {row | min m.rows n≤row}) (m.lane l) := by
    rw [Nat.min_eq_left hn]
    exact (h.lane l).grow hn
  unfold setRows
  dsimp only
  by_cases heq : rows.toNat=m.rows
  · rw [if_pos heq]
    exact ⟨h.width,h.count,h.cap,fun l => by simpa [heq] using hsame le_rfl l⟩
  rw [if_neg heq]
  by_cases hlt : rows.toNat < m.rows
  · rw [if_pos hlt]
    by_cases hz : rows.toNat=0
    · simp only [reshape,hz,if_pos]
      refine ⟨Nat.one_pos,fun l => ?_,by simp [blocksFor],fun l => ?_⟩
      · simp [blocksFor]
      · exact .blank (by simp)
    · -- The last bucket that stays may hold a mark of a row that is gone.
      have hmono := blocksFor_mono (B:=m.rowsPerBucket) hlt.le
      have hpos : 0<blocksFor rows.toNat m.rowsPerBucket :=
        (Nat.zero_le _).trans_lt (div_lt_blocksFor h.width (show rows.toNat-1<rows.toNat by omega))
      rw [reshape_shrunk (m:={m with rows := rows.toNat}) hz (hmono.trans h.cap)]
      simp only [bucketCount,length_resized,if_pos hpos,firstRowOf]
      refine ⟨h.width,fun l => by simp,hmono.trans h.cap,fun l => ?_⟩
      have hlast := last_mul_lt h.width (show 0<rows.toNat by omega)
      have hget := getD_shrunk (hmono.trans_eq (h.count l).symm)
      have hmin : min (min (m.lane l).scanned rows.toNat)
        ((blocksFor rows.toNat m.rowsPerBucket-1)*m.rowsPerBucket)=
          min (m.lane l).scanned ((blocksFor rows.toNat m.rowsPerBucket-1)*m.rowsPerBucket) := by omega
      dsimp only
      rw [hmin,Nat.min_eq_right hlt.le]
      refine (h.lane l).rewind hlt.le hlast.le (fun b hb => by rw [hget,if_pos hb]) (fun b => ?_) (fun row hr => ?_)
        (fun row hr _ => ?_)
      · rw [hget]
        split
        · exact Or.inr rfl
        · exact Or.inl rfl
      · have hle := last_le_div h.width hr
        exact ⟨hle,by rw [hget,if_neg (by omega)]⟩
      · have hle := last_le_div h.width hr
        rw [hget,if_neg (by omega)]
  · rw [if_neg hlt]
    have hn : m.rows≤rows.toNat := by omega
    exact reshape_truthful (m:={m with rows := rows.toNat})
      ⟨h.width,fun l => (h.count l).trans_le (blocksFor_mono hn),hsame hn⟩

theorem bucketCount_eq (h : Truthful m probe fresh) :
    m.bucketCount=blocksFor m.rows m.rowsPerBucket := h.count .rules

theorem bucketOf_eq (h : Truthful m probe fresh) {row : ℕ} (hr : row < m.rows) :
    m.bucketOf row=row/m.rowsPerBucket := by
  have hlt := div_lt_blocksFor h.width hr
  rw [bucketOf,if_neg (by have := h.width; omega),bucketCount_eq h,Nat.min_eq_left (by omega)]

/-- The rows an invalidation names, brought into range. -/
def invalidated (m : DensityMap) (firstRow lastRow : ℤ) : Set ℕ :=
  {row | m.clampRow (min firstRow lastRow)≤row ∧ row ≤ m.clampRow (max firstRow lastRow)}

private theorem invalidateRows_truthful (h : Truthful m probe fresh) (firstRow lastRow : ℤ) :
    Truthful (m.invalidateRows firstRow lastRow) probe (fun l => fresh l ∪ m.invalidated firstRow lastRow) := by
  unfold invalidateRows
  by_cases hz : m.rows=0
  · rw [if_pos (Or.inl hz)]
    refine ⟨h.width,h.count,h.cap,fun l => ?_⟩
    have hs := (h.lane l).within
    exact ⟨hs,fun row _ hr => by omega,(h.lane l).covers,fun b k hk => by
      obtain ⟨row,hr,-⟩ := (h.lane l).only b k hk
      omega⟩
  · have hin (row : ℤ) : m.clampRow row < m.rows := by
      unfold clampRow
      omega
    have hcount : m.bucketCount≠0 := by
      rw [bucketCount_eq h]
      exact ((Nat.zero_le _).trans_lt (div_lt_blocksFor h.width (hin firstRow))).ne'
    rw [if_neg (by simp [hz,hcount])]
    dsimp only
    rw [bucketOf_eq h (hin _),bucketOf_eq h (hin _)]
    refine ⟨h.width,fun l => by simpa using h.count l,h.cap,fun l => ?_⟩
    have hget (b : ℕ) : ((m.lane l).bucket.mapIdx (fun b marks =>
        if m.clampRow (min firstRow lastRow)/m.rowsPerBucket≤b ∧
          b ≤ m.clampRow (max firstRow lastRow)/m.rowsPerBucket
        then kNone else marks)).getD b kNone=
          if m.clampRow (min firstRow lastRow)/m.rowsPerBucket≤b ∧
            b ≤ m.clampRow (max firstRow lastRow)/m.rowsPerBucket
          then kNone else (m.lane l).bucket.getD b kNone := by
      simp only [List.getD_eq_getElem?_getD,List.getElem?_mapIdx]
      cases (m.lane l).bucket[b]? with
      | none => simp
      | some marks => simp
    refine (h.lane l).rewind le_rfl ?_ (fun b hb => ?_) (fun b => ?_) (fun row hr => ?_)
      (fun row h₁ h₂ => (Nat.not_le_of_lt h₂ h₁).elim)
    · exact (Nat.div_mul_le_self _ _).trans (hin _).le
    · rw [hget,if_neg (by omega)]
    · rw [hget]
      split
      · exact Or.inl rfl
      · exact Or.inr rfl
    · have hlo := Nat.div_le_div_right (c:=m.rowsPerBucket) hr.1
      have hhi := Nat.div_le_div_right (c:=m.rowsPerBucket) hr.2
      exact ⟨hlo,by rw [hget,if_pos ⟨hlo,hhi⟩]⟩

/-- One lane replaced by another of its length. -/
theorem setLane_truthful (h : Truthful m probe fresh) {l : Lane} {s : LaneState} {fresh' : Lane→Set ℕ}
    (hlen : s.bucket.length=(m.lane l).bucket.length)
    (hs : LaneTruth m.rows m.rowsPerBucket (probe l) (fresh' l) s) (hother : ∀l',l'≠l→fresh' l'=fresh l') :
    Truthful (m.setLane l s) probe fresh' := by
  refine ⟨h.width,fun l' => ?_,h.cap,fun l' => ?_⟩ <;> by_cases hl : l'=l
  · subst hl
    simpa [setLane,hlen] using h.count l'
  · simpa [setLane,hl] using h.count l'
  · subst hl
    simpa [setLane] using hs
  · simpa [setLane,hl,hother l' hl] using h.lane l'

private theorem clear_truthful (h : Truthful m probe fresh) (l : Lane) :
    Truthful (m.clear l) probe (fun l' => if l'=l then Set.univ else fresh l') := by
  refine setLane_truthful h (by simp) (.blank fun b => ?_) fun l' hl => if_neg hl
  rw [List.getD_eq_getElem?_getD,List.getElem?_map]
  cases (m.lane l).bucket[b]? <;> rfl

/-- The rows a scan offers to the probe. -/
def examined (m : DensityMap) (l : Lane) (budgetRows : ℤ) : Set ℕ :=
  {row | (m.lane l).scanned≤row ∧ row < m.scanEnd l budgetRows}

private theorem foldl_mark (h : Truthful m probe fresh) {l : Lane} {bucket : List Marks} {start k : ℕ}
    (hs : LaneTruth m.rows m.rowsPerBucket (probe l) (fresh l) ⟨bucket,start⟩)
    (hlen : bucket.length=blocksFor m.rows m.rowsPerBucket) (hk : start+k ≤ m.rows) :
    ((List.range' start k).foldl (m.mark (probe l)) bucket).length=blocksFor m.rows m.rowsPerBucket ∧
      LaneTruth m.rows m.rowsPerBucket (probe l) (fresh l\{row | start≤row ∧ row<start+k})
        ⟨(List.range' start k).foldl (m.mark (probe l)) bucket,start+k⟩ := by
  induction k with
  | zero =>
    have hempty : fresh l\{row | start≤row ∧ row<start+0}=fresh l := by
      ext row
      simp
    rw [hempty]
    exact ⟨hlen,hs⟩
  | succ k ih =>
    obtain ⟨ihlen,ihtruth⟩ := ih (by omega)
    have hrow : start+k < m.rows := by omega
    rw [List.range'_1_concat,List.foldl_append,List.foldl_cons,List.foldl_nil]
    refine ⟨?_,?_⟩
    · rw [mark]
      split
      · exact ihlen
      · rw [List.length_modify,ihlen]
    · have hfresh : fresh l\{row | start≤row ∧ row<start+(k+1)}=
          (fresh l\{row | start≤row ∧ row<start+k})\{start+k} := by
        ext row
        simp only [Set.mem_sdiff,Set.mem_ofPred_eq,Set.mem_singleton_iff,and_assoc]
        refine and_congr_right fun _ => ?_
        omega
      rw [hfresh]
      exact ihtruth.mark (bucketOf_eq h hrow) hrow (by rw [ihlen]; exact div_lt_blocksFor h.width hrow)

private theorem scan_truthful (h : Truthful m probe fresh) (l : Lane) (budgetRows : ℤ) :
    Truthful (m.scan l budgetRows (probe l)).1 probe
      (fun l' => if l'=l then fresh l\m.examined l budgetRows else fresh l') := by
  have hwithin := (h.lane l).within
  by_cases hguard : budgetRows≤0 ∨ (m.lane l).scanned≥m.rows ∨ (m.lane l).bucket.isEmpty=true
  · -- Nothing is scanned, and nothing examined.
    rw [show m.scan l budgetRows (probe l)=(m,0) from if_pos hguard]
    have hempty : m.examined l budgetRows=∅ := by
      ext row
      simp only [examined,scanEnd,Set.mem_ofPred_eq,Set.mem_empty_iff_false,iff_false]
      rcases hguard with hb | hr | he
      · omega
      · omega
      · have hrows : m.rows=0 := by
          by_contra hne
          have hlt := div_lt_blocksFor h.width (show 0 < m.rows by omega)
          rw [← h.count l,List.isEmpty_iff.mp he] at hlt
          simp at hlt
        omega
    refine ⟨h.width,h.count,h.cap,fun l' => ?_⟩
    split
    · rename_i hl
      rw [hempty,Set.sdiff_empty,← hl]
      exact h.lane l'
    · exact h.lane l'
  · have hle : (m.lane l).scanned ≤ m.scanEnd l budgetRows := Nat.le_min.mpr ⟨hwithin,Nat.le_add_right _ _⟩
    have hend := Nat.add_sub_cancel' hle
    obtain ⟨hlen,htruth⟩ := foldl_mark h (h.lane l) (h.count l)
      (k:=m.scanEnd l budgetRows-(m.lane l).scanned) (hend.trans_le (Nat.min_le_left _ _))
    rw [hend] at htruth
    rw [show m.scan l budgetRows (probe l)=_ from if_neg hguard]
    refine setLane_truthful h (hlen.trans (h.count l).symm) ?_ fun l' hl => if_neg hl
    rw [if_pos rfl]
    exact htruth

end DensityMap

/-- What the owner of a map may ask of it. -/
inductive DensityMap.Op
  | rebind (rows : ℤ)
  | setRows (rows : ℤ)
  | invalidateRows (firstRow lastRow : ℤ)
  | clear (l : Lane)
  | scan (l : Lane) (budgetRows : ℤ)

namespace DensityMap

def apply (m : DensityMap) (probe : Lane→ℕ→Marks) : Op→DensityMap
  | .rebind rows => m.rebind rows
  | .setRows rows => m.setRows rows
  | .invalidateRows firstRow lastRow => m.invalidateRows firstRow lastRow
  | .clear l => m.clear l
  | .scan l budgetRows => (m.scan l budgetRows (probe l)).1

/-- The rows that are free to answer otherwise after an operation: those it names, drops or
makes room for, less those it scans. -/
def freed (m : DensityMap) (fresh : Lane→Set ℕ) : Op→Lane→Set ℕ
  | .rebind _,_ => Set.univ
  | .setRows rows,l => fresh l ∪ {row | min m.rows rows.toNat≤row}
  | .invalidateRows firstRow lastRow,l => fresh l ∪ m.invalidated firstRow lastRow
  | .clear l',l => if l=l' then Set.univ else fresh l
  | .scan l' budgetRows,l => if l=l' then fresh l'\m.examined l' budgetRows else fresh l

/-- A map under any operations, of rows that change their answers when they are free to. -/
inductive Reachable : DensityMap→(Lane→ℕ→Marks)→(Lane→Set ℕ)→Prop
  | initial (probe : Lane→ℕ→Marks) : Reachable .initial probe (fun _ => Set.univ)
  | op {m : DensityMap} {probe : Lane→ℕ→Marks} {fresh : Lane→Set ℕ} (o : Op) (h : Reachable m probe fresh) :
    Reachable (m.apply probe o) probe (m.freed fresh o)
  | change {m : DensityMap} {probe probe' : Lane→ℕ→Marks} {fresh : Lane→Set ℕ} (h : Reachable m probe fresh)
    (hp : ∀l,∀row∉fresh l,probe' l row=probe l row) : Reachable m probe' fresh

private theorem Reachable.truthful {m : DensityMap} {probe : Lane→ℕ→Marks} {fresh : Lane→Set ℕ}
    (h : Reachable m probe fresh) : Truthful m probe fresh := by
  induction h with
  | initial probe => exact ⟨Nat.one_pos,fun _ => rfl,by decide,fun _ => .blank (by simp)⟩
  | op o _ ih =>
    rename_i m _ _ _
    cases o with
    | rebind rows => exact rebind_truthful m rows
    | setRows rows => exact setRows_truthful ih rows
    | invalidateRows firstRow lastRow => exact invalidateRows_truthful ih firstRow lastRow
    | clear l => exact clear_truthful ih l
    | scan l budgetRows => exact scan_truthful ih l budgetRows
  | change _ hp ih => exact ⟨ih.width,ih.count,ih.cap,fun l => (ih.lane l).change (hp l)⟩

/-- In every run the lanes have as many buckets as the rows take and no more than the cap, a
bucket holds the marks of its scanned rows and of its rows alone, and a lane scanned to its
end holds in each bucket the marks of just its rows. -/
theorem reachable_truth {m : DensityMap} {probe : Lane→ℕ→Marks} {fresh : Lane→Set ℕ} (h : Reachable m probe fresh) :
    0 < m.rowsPerBucket ∧ (∀l,(m.lane l).bucket.length=blocksFor m.rows m.rowsPerBucket) ∧
      blocksFor m.rows m.rowsPerBucket≤kMaxBuckets ∧
      ∀ l b,(∀ row k,row<(m.lane l).scanned → row/m.rowsPerBucket=b → Marked (probe l row) k → Marked
        (m.marksAt l b) k) ∧
        (∀k,Marked (m.marksAt l b) k → ∃row < m.rows,row/m.rowsPerBucket=b ∧ Marked (probe l row) k) ∧
        (m.complete l=true → m.marksAt l b=((List.range m.rows).filter (fun row => row/m.rowsPerBucket=b)).foldl
          (fun marks row => marks ||| probe l row) kNone) := by
  have ht := h.truthful
  refine ⟨ht.width,ht.count,ht.cap,fun l b => ?_⟩
  have hcovers : ∀ row k,row<(m.lane l).scanned → row/m.rowsPerBucket=b → Marked (probe l row) k →
      Marked (m.marksAt l b) k := by
    rintro row k hr rfl hk
    exact (ht.lane l).covers row k hr hk
  have honly : ∀k,Marked (m.marksAt l b) k → ∃row < m.rows,row/m.rowsPerBucket=b ∧ Marked (probe l row) k := by
    intro k hk
    obtain ⟨row,hr,hb,-,hm⟩ := (ht.lane l).only b k hk
    exact ⟨row,hr,hb,hm⟩
  refine ⟨hcovers,honly,fun hc => marks_ext fun k => ?_⟩
  simp only [marked_foldl,not_marked_kNone,false_or,List.mem_filter,List.mem_range,decide_eq_true_eq,and_assoc]
  simp only [complete,decide_eq_true_eq] at hc
  exact ⟨honly k,fun ⟨row,hr,hb,hk⟩ => hcovers row k (by omega) hb hk⟩

/-- Three rows, the last of them read again with another mark before the scan is complete. -/
theorem reachable_truth_reread : ∃m : DensityMap,m.complete .rules=true ∧ m.marksAt .rules 2=2 := by
  let probe (marks : Marks) : Lane→ℕ→Marks := fun _ row => if row=2 then marks else 0
  have h₀ : Reachable _ (probe 1) _ :=
    .op (.invalidateRows 2 2) (.op (.scan .rules 3) (.op (.rebind 3) (.initial (probe 1))))
  have h₁ : Reachable _ (probe 2) _ := .change h₀ (fun l row hf => by
    have hne : row≠2 := fun hr => hf (Or.inr ⟨by subst hr; decide,by subst hr; decide⟩)
    simp [probe,hne])
  have ht := ((reachable_truth (.op (.scan .rules 3) h₁)).2.2.2 .rules 2).2.2 (by decide)
  exact ⟨_,by decide,ht.trans (by decide)⟩

end DensityMap

end Loftail
