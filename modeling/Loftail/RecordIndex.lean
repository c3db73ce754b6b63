import Loftail.BlockPrefixSums
import Loftail.Record

/-! # The index of one file: its records, its intern tables, its display-line sums -/
namespace Loftail
open BlockPrefixSums

/-- `RecordIndex::kBlockSize`. -/
def kBlockSize : ℕ := 4096

/-- `RecordIndex::kDisplayLineCap`. -/
def kDisplayLineCap : ℕ := 100

structure RecordIndex where
  records : List Record
  loggers : InternTable
  threads : InternTable
  blockSums : List ℕ

namespace RecordIndex

/-- What a default construction holds: no sums have been built yet. -/
def empty : RecordIndex := ⟨[],.empty,.empty,[]⟩

def displayLines (r : Record) : ℕ := min r.lineCount kDisplayLineCap

def recordCount (idx : RecordIndex) : ℕ := idx.records.length

def totalLines (idx : RecordIndex) : ℕ := idx.blockSums.getLastD 0

def rebuildBlockSums (idx : RecordIndex) : RecordIndex :=
  {idx with blockSums:=scanFrom displayLines kBlockSize [] 0 0 idx.records}

/-- `QVector::resize`: shorter, or padded with zeros. -/
def resizeSums (sums : List ℕ) (n : ℕ) : List ℕ := sums.take n++List.replicate (n-sums.length) 0

def extendBlockSums (idx : RecordIndex) (validCount : ℤ) : RecordIndex :=
  let validCount := min (max validCount 0).toNat idx.records.length
  if idx.blockSums=[] then idx.rebuildBlockSums else
    let startBlock := validCount/kBlockSize
    let startRec := startBlock*kBlockSize
    let acc := if startBlock < idx.blockSums.length then idx.blockSums.getD startBlock 0 else 0
    let sums := resizeSums idx.blockSums startBlock
    {idx with blockSums:=scanFrom displayLines kBlockSize sums acc startRec (idx.records.drop startRec)}

/-- The display line at which record `r` begins. -/
def firstLineOfRecord (idx : RecordIndex) (r : ℕ) : ℕ :=
  if r=0 || idx.records.isEmpty then 0 else
    let block := r/kBlockSize
    idx.blockSums.getD block 0+
      total displayLines ((idx.records.drop (block*kBlockSize)).take (r-block*kBlockSize))

/-- The sums are those of the records. -/
def SumsValid (idx : RecordIndex) : Prop :=
    idx.blockSums=BlockPrefixSums.blockSums displayLines kBlockSize idx.records

theorem kBlockSize_pos : 0<kBlockSize := by decide

@[simp] theorem rebuildBlockSums_records (idx : RecordIndex) : idx.rebuildBlockSums.records=idx.records := rfl

theorem rebuildBlockSums_valid (idx : RecordIndex) : idx.rebuildBlockSums.SumsValid := rfl

/-- Only the sums move. -/
theorem extendBlockSums_eq (idx : RecordIndex) (v : ℤ) :
    idx.extendBlockSums v={idx with blockSums := (idx.extendBlockSums v).blockSums} := by
  unfold extendBlockSums
  split <;> rfl

@[simp] theorem extendBlockSums_records (idx : RecordIndex) (v : ℤ) :
    (idx.extendBlockSums v).records=idx.records := by
  rw [extendBlockSums_eq]

@[simp] theorem extendBlockSums_loggers (idx : RecordIndex) (v : ℤ) :
    (idx.extendBlockSums v).loggers=idx.loggers := by
  rw [extendBlockSums_eq]

@[simp] theorem extendBlockSums_threads (idx : RecordIndex) (v : ℤ) :
    (idx.extendBlockSums v).threads=idx.threads := by
  rw [extendBlockSums_eq]

/-- Sums that were right for other records, which agree with these on the first
`validCount`, are repaired by an extension from there. -/
theorem extendBlockSums_valid {idx : RecordIndex} {old : List Record} {v : ℕ}
    (hs : idx.blockSums=BlockPrefixSums.blockSums displayLines kBlockSize old) (hv : v≤old.length)
    (hn : v ≤ idx.records.length) (ho : old.take v=idx.records.take v) : (idx.extendBlockSums v).SumsValid := by
  have hle : v/kBlockSize*kBlockSize≤v := Nat.div_mul_le_self _ _
  have hget := blockSums_getElem? displayLines kBlockSize_pos old (s:=v/kBlockSize) (Nat.le_trans hle hv)
  have hlt : v/kBlockSize < idx.blockSums.length := by
    rw [hs]
    exact (List.getElem?_eq_some_iff.mp hget).1
  have hne : idx.blockSums≠[] := List.ne_nil_of_length_pos (Nat.zero_lt_of_lt hlt)
  have hcut : old.take (v/kBlockSize*kBlockSize)=idx.records.take (v/kBlockSize*kBlockSize) := by
    have h := congrArg (List.take (v/kBlockSize*kBlockSize)) ho
    simpa [List.take_take,Nat.min_eq_left hle] using h
  have hresize : resizeSums idx.blockSums (v/kBlockSize)=idx.blockSums.take (v/kBlockSize) := by
    simp [resizeSums,Nat.sub_eq_zero_of_le (Nat.le_of_lt hlt)]
  have hacc : idx.blockSums.getD (v/kBlockSize) 0=total displayLines (old.take (v/kBlockSize*kBlockSize)) := by
    rw [List.getD_eq_getElem?_getD,hs,hget]
    rfl
  have hmin : min (max (v : ℤ) 0).toNat idx.records.length=v := by omega
  simp only [SumsValid,extendBlockSums,hmin,if_neg hne,if_pos hlt,hresize,hacc]
  rw [hs]
  exact scanFrom_resume displayLines kBlockSize_pos (Nat.le_trans hle hv) (Nat.le_trans hle hn) hcut

/-- With valid sums a record begins where the heights before it end. -/
theorem SumsValid.firstLineOfRecord {idx : RecordIndex} (h : idx.SumsValid) {r : ℕ} (hr : r ≤ idx.records.length) :
    idx.firstLineOfRecord r=total displayLines (idx.records.take r) := by
  unfold RecordIndex.firstLineOfRecord
  by_cases hz : r=0
  · simp [hz]
  · by_cases he : idx.records=[]
    · simp [he]
    · have hle : r/kBlockSize*kBlockSize≤r := Nat.div_mul_le_self _ _
      have hget := blockSums_getElem? displayLines kBlockSize_pos idx.records (s:=r/kBlockSize)
        (Nat.le_trans hle hr)
      have hfalse : (decide (r=0) || idx.records.isEmpty)=false := by simp [hz,he]
      rw [if_neg (by simp [hfalse])]
      simp only []
      rw [List.getD_eq_getElem?_getD,h,hget,Option.getD_some,← total_append]
      congr 1
      have ht := List.take_append_drop (r/kBlockSize*kBlockSize) (idx.records.take r)
      rw [List.take_take,Nat.min_eq_left hle,List.drop_take] at ht
      exact ht

end RecordIndex

end Loftail
