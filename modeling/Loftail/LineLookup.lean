import Mathlib.Algebra.Order.Ring.Int
import Loftail.RecordIndex

/-! # Display lines to records and back

Both lookups with every array access in sight, and the edits that come between them. -/
namespace Loftail
open BlockPrefixSums

namespace RecordIndex

/-- The sum over the records in front of `r` in its block; `none` when an access leaves the array. -/
def sumLines (records : List Record) : ℕ→ℕ→ℕ→Option ℕ
  | 0,_,line => some line
  | k+1,i,line =>
    match records[i]? with
    | none => none
    | some rec => sumLines records k (i+1) (line+displayLines rec)

/-- `firstLineOfRecord` over all its arguments; `none` when an access leaves its array. -/
def firstLineOfRecord? (idx : RecordIndex) (r : ℤ) : Option ℕ :=
  if r≤0 ∨ idx.records=[] then some 0 else
    let block := r.toNat/kBlockSize
    match idx.blockSums[block]? with
    | none => none
    | some line => sumLines idx.records (r.toNat-block*kBlockSize) (block*kBlockSize) line

/-- The walk over one block; past its end stands the last record. -/
def scanBlock (records : List Record) (line : ℤ) : ℕ→ℕ→ℕ→Option ℤ
  | 0,_,_ => some ((records.length : ℤ)-1)
  | k+1,i,acc =>
    match records[i]? with
    | none => none
    | some rec => if line<(acc+displayLines rec : ℕ) then some i else scanBlock records line k (i+1)
      (acc+displayLines rec)

/-- The record containing display line `line`; `none` when an access leaves its array. -/
def recordAtLine (idx : RecordIndex) (line : ℤ) : Option ℤ :=
  let n := idx.records.length
  if n=0 then some (-1) else if line<0 then some 0 else
    match lastAtMost idx.blockSums line 0 (idx.blockSums.length-1) with
    | none => none
    | some block =>
      if blocksFor n kBlockSize≤block then some ((n : ℤ)-1) else
        match idx.blockSums[block]? with
        | none => none
        | some acc =>
          scanBlock idx.records line (min (block*kBlockSize+kBlockSize) n-block*kBlockSize) (block*kBlockSize) acc

section Walks
variable {records : List Record}

theorem total_take_succ {i : ℕ} {rec : Record} (hi : records[i]?=some rec) :
    total displayLines (records.take (i+1))=total displayLines (records.take i)+displayLines rec := by
  rw [List.take_add_one,hi,total_append]
  simp

private theorem sumLines_eq {k i : ℕ} (h : i+k≤records.length) :
    sumLines records k i (total displayLines (records.take i))=some (total displayLines (records.take (i+k))) := by
  induction k generalizing i with
  | zero => rfl
  | succ k ih =>
    have hi := List.getElem?_eq_getElem (show i<records.length by omega)
    rw [sumLines,hi]
    simp only []
    rw [← total_take_succ hi,ih (by omega),Nat.add_right_comm,Nat.add_assoc]

/-- A line under the walked records is found at the one that holds it. -/
theorem scanBlock_spec {line : ℤ} {k i : ℕ} (h : i+k≤records.length)
    (hlo : (total displayLines (records.take i) : ℤ)≤line)
    (hhi : line<(total displayLines (records.take (i+k)) : ℤ)) :
    ∃r : ℕ,scanBlock records line k i (total displayLines (records.take i))=some (r : ℤ) ∧ r<records.length ∧
      (total displayLines (records.take r) : ℤ)≤line ∧ line<(total displayLines (records.take (r+1)) : ℤ) := by
  induction k generalizing i with
  | zero => exact absurd hhi (Int.not_lt.mpr hlo)
  | succ k ih =>
    have hi := List.getElem?_eq_getElem (show i<records.length by omega)
    rw [scanBlock,hi]
    simp only []
    rw [← total_take_succ hi]
    split
    · rename_i hlt
      exact ⟨i,rfl,by omega,hlo,hlt⟩
    · rename_i hge
      rw [Nat.add_comm k 1,← Nat.add_assoc] at hhi
      exact ih (by omega) (Int.not_lt.mp hge) hhi

end Walks

section Lookups
variable {idx : RecordIndex}

/-- Up to the end a record begins where the heights before it end. -/
theorem SumsValid.firstLineOfRecord?_eq (h : idx.SumsValid) {r : ℤ} (hr : r ≤ idx.records.length) :
    idx.firstLineOfRecord? r=some (total displayLines (idx.records.take r.toNat)) := by
  unfold firstLineOfRecord?
  split
  · rename_i hz
    rcases hz with hz | hz
    · simp [Int.toNat_of_nonpos hz]
    · simp [hz]
  · have hle : r.toNat/kBlockSize*kBlockSize≤r.toNat := Nat.div_mul_le_self _ _
    have hget := blockSums_getElem? displayLines kBlockSize_pos idx.records (s:=r.toNat/kBlockSize) (by omega)
    rw [SumsValid] at h
    simp only [h,hget]
    rw [sumLines_eq (by omega)]
    congr 3
    omega

/-- What one lookup answers, by where the line lies. -/
theorem SumsValid.recordAtLine_cases (h : idx.SumsValid) (line : ℤ) :
    (idx.records=[] ∧ idx.recordAtLine line=some (-1)) ∨ (idx.records≠[] ∧ line<0 ∧ idx.recordAtLine line=some 0) ∨
      (idx.records≠[] ∧ (total displayLines idx.records : ℤ)≤line ∧
        idx.recordAtLine line=some ((idx.records.length : ℤ)-1)) ∨
      ∃r : ℕ,idx.recordAtLine line=some (r : ℤ) ∧ r < idx.records.length ∧
        (total displayLines (idx.records.take r) : ℤ)≤line ∧
        line<(total displayLines (idx.records.take (r+1)) : ℤ) := by
  by_cases hne : idx.records=[]
  · exact Or.inl ⟨hne,by simp [recordAtLine,hne]⟩
  · have hpos : 0 < idx.records.length := List.length_pos_of_ne_nil hne
    by_cases hneg : line<0
    · exact Or.inr (Or.inl ⟨hne,hneg,by simp [recordAtLine,hne,hneg]⟩)
    · have hlen := blockSums_length displayLines kBlockSize_pos idx.records
      have hentry := fun s => blockSums_entry displayLines kBlockSize_pos idx.records (s:=s)
      rw [SumsValid] at h
      rw [← h] at hlen hentry
      have hsize : 0 < idx.blockSums.length := by
        rw [hlen]
        exact Nat.succ_pos _
      have hfirst : ∀s : ℕ,s∈idx.blockSums[0]?→(s : ℤ)≤line := by
        rw [hentry 0 hsize]
        simpa using Int.not_lt.mp hneg
      have hpast : ∀s : ℕ,s∈idx.blockSums[idx.blockSums.length-1+1]?→line<(s : ℤ) := by
        rw [List.getElem?_eq_none (by omega)]
        simp
      obtain ⟨b,hb,hle,hlo,hhi⟩ := @lastAtMost_spec idx.blockSums line 0 (idx.blockSums.length-1) (Nat.zero_le _)
        (by omega) (by simpa [hentry 0 (by omega)] using Int.not_lt.mp hneg)
        (by simp [Nat.sub_add_cancel (show 1 ≤ idx.blockSums.length by omega)])
      have hbl : b < idx.blockSums.length := by omega
      rw [hentry b hbl] at hlo
      simp only [Option.mem_some_iff,forall_eq'] at hlo
      by_cases hlast : blocksFor idx.records.length kBlockSize≤b
      · have hall : idx.records.length≤b*kBlockSize := by
          have hcover := Nat.mul_le_mul_right kBlockSize hlast
          have hceil := Nat.lt_div_mul_add (a:=idx.records.length+kBlockSize-1) kBlockSize_pos
          rw [blocksFor] at hcover
          omega
        rw [List.take_of_length_le hall] at hlo
        exact Or.inr (Or.inr (Or.inl ⟨hne,hlo,by simp [recordAtLine,hne,hneg,hb,hlast]⟩))
      · have hnext : b+1 < idx.blockSums.length := by
          rw [blocksFor] at hlast
          omega
        rw [hentry (b+1) hnext] at hhi
        simp only [Option.mem_some_iff,forall_eq'] at hhi
        have hin : b*kBlockSize < idx.records.length := by
          have hlt : b≤blocksFor idx.records.length kBlockSize-1 := by omega
          exact Nat.lt_of_le_of_lt (Nat.mul_le_mul_right _ hlt) (last_mul_lt kBlockSize_pos hpos)
        have hstop : idx.records.take ((b+1)*kBlockSize)=
            idx.records.take (b*kBlockSize+(min (b*kBlockSize+kBlockSize) idx.records.length-b*kBlockSize)) := by
          rw [Nat.succ_mul]
          rcases Nat.le_total (b*kBlockSize+kBlockSize) idx.records.length with hfull | hpart
          · rw [Nat.min_eq_left hfull,Nat.add_sub_cancel_left]
          · rw [Nat.min_eq_right hpart,Nat.add_sub_cancel' (Nat.le_of_lt hin),List.take_of_length_le hpart,
              List.take_length]
        rw [hstop] at hhi
        obtain ⟨r,hr,hrn,hrlo,hrhi⟩ := scanBlock_spec (by omega) hlo hhi
        refine Or.inr (Or.inr (Or.inr ⟨r,?_,hrn,hrlo,hrhi⟩))
        simp only [recordAtLine,hb,hentry b hbl]
        rw [if_neg (by omega),if_neg hneg,if_neg hlast]
        exact hr

theorem SumsValid.totalLines (h : idx.SumsValid) : idx.totalLines=total displayLines idx.records := by
  rw [RecordIndex.totalLines,h,BlockPrefixSums.blockSums,scanFrom_eq]
  simp

/-- Lines and records answer one another. -/
structure LineMapping (idx : RecordIndex) : Prop where
  inverse : ∀line : ℤ,0≤line→line < idx.totalLines→∀r : ℕ,idx.recordAtLine line=some (r : ℤ)↔
    ∃rec first,idx.records[r]?=some rec ∧ idx.firstLineOfRecord? r=some first ∧ first≤line ∧
      line<first+displayLines rec
  found : ∀line : ℤ,0≤line→line < idx.totalLines→∃r : ℕ,idx.recordAtLine line=some (r : ℤ) ∧ r < idx.records.length
  before : ∀line : ℤ,line<0→idx.records≠[]→idx.recordAtLine line=some 0
  past : ∀line : ℤ,idx.totalLines≤line→idx.recordAtLine line=some ((idx.records.length : ℤ)-1)
  none : idx.records=[]→∀line : ℤ,idx.recordAtLine line=some (-1)
  first : ∀r : ℤ,r≤0→idx.firstLineOfRecord? r=some 0
  last : idx.firstLineOfRecord? idx.records.length=some idx.totalLines
  recordMono : ∀line line' r r' : ℤ,line≤line'→idx.recordAtLine line=some r→idx.recordAtLine line'=some r' → r≤r'
  lineMono : ∀(r r' : ℤ) (k k' : ℕ),r≤r' → r' ≤ idx.records.length→idx.firstLineOfRecord? r=some k→
    idx.firstLineOfRecord? r'=some k'→k≤k'
  recordReads : ∀line : ℤ,(idx.recordAtLine line).isSome
  lineReads : ∀r : ℤ,r ≤ idx.records.length→(idx.firstLineOfRecord? r).isSome

/-- Which record a line is in, said of the heights. -/
theorem SumsValid.recordAtLine_iff (h : idx.SumsValid) {line : ℤ} (hlo : 0≤line)
    (hhi : line<(total displayLines idx.records : ℤ)) (r : ℕ) : idx.recordAtLine line=some (r : ℤ)↔
      r < idx.records.length ∧ (total displayLines (idx.records.take r) : ℤ)≤line ∧
        line<(total displayLines (idx.records.take (r+1)) : ℤ) := by
  rcases h.recordAtLine_cases line with ⟨hnil,-⟩ | ⟨-,hneg,-⟩ | ⟨-,hpast,-⟩ | ⟨q,hq,hqn,hqlo,hqhi⟩
  · simp [hnil] at hhi
    omega
  · omega
  · omega
  · rw [hq]
    constructor
    · intro heq
      obtain rfl : q=r := by exact_mod_cast Option.some_inj.mp heq
      exact ⟨hqn,hqlo,hqhi⟩
    · rintro ⟨hrn,hrlo,hrhi⟩
      rcases Nat.lt_trichotomy q r with hlt | rfl | hgt
      · have := total_take_mono displayLines idx.records (show q+1≤r from hlt)
        omega
      · rfl
      · have := total_take_mono displayLines idx.records (show r+1≤q from hgt)
        omega

theorem SumsValid.recordAtLine_mono (h : idx.SumsValid) {line line' r r' : ℤ} (hle : line≤line')
    (hr : idx.recordAtLine line=some r) (hr' : idx.recordAtLine line'=some r') : r≤r' := by
  rcases h.recordAtLine_cases line with ⟨hnil,ha⟩ | ⟨hne,hneg,ha⟩ | ⟨hne,hpast,ha⟩ | ⟨q,ha,hqn,hqlo,hqhi⟩ <;>
    rw [ha,Option.some_inj] at hr <;>
    rcases h.recordAtLine_cases line' with
      ⟨hnil',hb⟩ | ⟨hne',hneg',hb⟩ | ⟨hne',hpast',hb⟩ | ⟨q',hb,hqn',hqlo',hqhi'⟩ <;>
    rw [hb,Option.some_inj] at hr'
  all_goals try (exact absurd hnil hne')
  all_goals try (exact absurd hnil' hne)
  all_goals try (rw [hnil] at hqn'; exact absurd hqn' (Nat.not_lt_zero _))
  all_goals try (rw [hnil'] at hqn; exact absurd hqn (Nat.not_lt_zero _))
  all_goals try omega
  · have := List.length_pos_of_ne_nil hne
    omega
  · have := total_take_mono displayLines idx.records (show q'+1 ≤ idx.records.length from hqn')
    rw [List.take_length] at this
    omega
  · by_contra hgt
    have := total_take_mono displayLines idx.records (show q'+1≤q by omega)
    omega

theorem SumsValid.lineMapping (h : idx.SumsValid) : LineMapping idx where
  inverse := by
    intro line hlo hhi r
    rw [h.totalLines] at hhi
    rw [h.recordAtLine_iff hlo hhi]
    constructor
    · rintro ⟨hrn,hrlo,hrhi⟩
      have hi := List.getElem?_eq_getElem hrn
      rw [total_take_succ hi] at hrhi
      exact ⟨_,_,hi,h.firstLineOfRecord?_eq (by omega),by simpa using hrlo,by simpa using hrhi⟩
    · rintro ⟨rec,k,hi,hk,hrlo,hrhi⟩
      have hrn := (List.getElem?_eq_some_iff.mp hi).1
      rw [h.firstLineOfRecord?_eq (by omega),Option.some_inj,Int.toNat_natCast] at hk
      rw [total_take_succ hi,hk]
      exact ⟨hrn,hrlo,by exact_mod_cast hrhi⟩
  found := by
    intro line hlo hhi
    rw [h.totalLines] at hhi
    rcases h.recordAtLine_cases line with ⟨hnil,-⟩ | ⟨-,hneg,-⟩ | ⟨-,hpast,-⟩ | ⟨q,hq,hqn,-⟩
    · simp [hnil] at hhi
      omega
    · omega
    · omega
    · exact ⟨q,hq,hqn⟩
  before := by
    intro line hneg hne
    simp [recordAtLine,hne,hneg]
  past := by
    intro line hle
    rw [h.totalLines] at hle
    rcases h.recordAtLine_cases line with ⟨hnil,ha⟩ | ⟨-,hneg,-⟩ | ⟨-,-,ha⟩ | ⟨q,-,hqn,-,hqhi⟩
    · rw [ha,hnil]
      rfl
    · omega
    · exact ha
    · have := total_take_mono displayLines idx.records (show q+1 ≤ idx.records.length from hqn)
      rw [List.take_length] at this
      omega
  none := by
    intro hnil line
    simp [recordAtLine,hnil]
  first := by
    intro r hr
    simp [firstLineOfRecord?,hr]
  last := by
    rw [h.firstLineOfRecord?_eq le_rfl,h.totalLines]
    simp
  recordMono := fun _ _ _ _ => h.recordAtLine_mono
  lineMono := by
    intro r r' k k' hle hn hk hk'
    rw [h.firstLineOfRecord?_eq (hle.trans hn),Option.some_inj] at hk
    rw [h.firstLineOfRecord?_eq hn,Option.some_inj] at hk'
    rw [← hk,← hk']
    exact total_take_mono _ _ (Int.toNat_le_toNat hle)
  recordReads := by
    intro line
    rcases h.recordAtLine_cases line with ⟨-,ha⟩ | ⟨-,-,ha⟩ | ⟨-,-,ha⟩ | ⟨q,ha,-⟩ <;> rw [ha] <;> rfl
  lineReads := by
    intro r hr
    rw [h.firstLineOfRecord?_eq hr]
    rfl

end Lookups

/-! ## Edits between the builds -/

/-- What happens to the records and their sums. -/
inductive Edit
  | append (rec : Record)
  | pop
  | change (rec : Record)
  | rebuild
  | extend (validCount : ℤ)

/-- An index under edit, and how many leading records are as the last build saw them. -/
structure Edited where
  idx : RecordIndex
  unchanged : ℕ

namespace Edited

def start : Edited := ⟨.empty,0⟩

def step (s : Edited) : Edit→Edited
  | .append rec => {s with idx := {s.idx with records := s.idx.records++[rec]}}
  | .pop => ⟨{s.idx with records := s.idx.records.dropLast},min s.unchanged (s.idx.records.length-1)⟩
  | .change rec =>
    if s.idx.records=[] then s else
      ⟨{s.idx with records := s.idx.records.dropLast++[rec]},min s.unchanged (s.idx.records.length-1)⟩
  | .rebuild => ⟨s.idx.rebuildBlockSums,s.idx.records.length⟩
  | .extend validCount => ⟨s.idx.extendBlockSums validCount,s.idx.records.length⟩

def run (s : Edited) (edits : List Edit) : Edited := edits.foldl step s

/-- An extension is told a count no record below which has changed since the last build. -/
def Follows (s : Edited) : Edit→Prop
  | .extend validCount => s.idx.blockSums=[] ∨ min (max validCount 0).toNat s.idx.records.length ≤ s.unchanged
  | _ => True

instance (s : Edited) : DecidablePred s.Follows := fun
  | .extend validCount => inferInstanceAs (Decidable (s.idx.blockSums=[] ∨
      min (max validCount 0).toNat s.idx.records.length ≤ s.unchanged))
  | .append _ | .pop | .change _ | .rebuild => isTrue trivial

def Followed (s : Edited) : List Edit→Prop
  | [] => True
  | e::es => s.Follows e ∧ (s.step e).Followed es

/-- The sums are those of records that agree with these on the unchanged ones. -/
def Kept (s : Edited) : Prop :=
  s.idx.blockSums=[] ∨ ∃built : List Record,
    s.idx.blockSums=BlockPrefixSums.blockSums displayLines kBlockSize built ∧
    s.unchanged≤built.length ∧ s.unchanged ≤ s.idx.records.length ∧
    built.take s.unchanged=s.idx.records.take s.unchanged

variable {s : Edited}

theorem Kept.extend (h : s.Kept) {v : ℤ} (hv : s.Follows (.extend v)) : (s.idx.extendBlockSums v).SumsValid := by
  by_cases hnil : s.idx.blockSums=[]
  · rw [extendBlockSums]
    simp only [if_pos hnil]
    exact rebuildBlockSums_valid _
  · obtain ⟨built,hsums,hb,hr,heq⟩ := h.resolve_left hnil
    have hle := hv.resolve_left hnil
    have hvalid := @extendBlockSums_valid s.idx built
      (min (max v 0).toNat s.idx.records.length) hsums (hle.trans hb)
      (hle.trans hr) (by
        have hcut := congrArg (List.take (min (max v 0).toNat s.idx.records.length)) heq
        rwa [List.take_take,List.take_take,Nat.min_eq_left hle] at hcut)
    have hsame : min (max ((min (max v 0).toNat s.idx.records.length : ℕ) : ℤ) 0).toNat s.idx.records.length=
        min (max v 0).toNat s.idx.records.length := by omega
    unfold extendBlockSums at hvalid ⊢
    rwa [hsame] at hvalid

theorem kept_of_valid {idx : RecordIndex} (h : idx.SumsValid) : Kept ⟨idx,idx.records.length⟩ :=
  Or.inr ⟨idx.records,h,le_rfl,le_rfl,rfl⟩

/-- Records that agree on fewer leading ones still agree on those. -/
theorem Kept.shrink (h : s.Kept) {records : List Record} {k : ℕ} (hk : k ≤ s.unchanged) (hlen : k≤records.length)
    (heq : records.take k=s.idx.records.take k) : Kept ⟨{s.idx with records := records},k⟩ := by
  rcases h with hnil | ⟨built,hsums,hb,-,hsame⟩
  · exact Or.inl hnil
  · refine Or.inr ⟨built,hsums,hk.trans hb,hlen,?_⟩
    have hcut := congrArg (List.take k) hsame
    rw [List.take_take,List.take_take,Nat.min_eq_left hk] at hcut
    exact hcut.trans heq.symm

theorem Kept.step (h : s.Kept) {e : Edit} (he : s.Follows e) : (s.step e).Kept := by
  cases e with
  | append rec =>
    rcases h with hnil | ⟨built,hsums,hb,hr,heq⟩
    · exact Or.inl hnil
    · exact Or.inr ⟨built,hsums,hb,by simp [Edited.step]; omega,by
        simp only [Edited.step]
        rw [List.take_append_of_le_length hr,heq]⟩
  | pop =>
    apply h.shrink (Nat.min_le_left _ _)
    · simp
    · rw [List.dropLast_eq_take,List.take_take]
      congr 1
      omega
  | change rec =>
    by_cases hnil : s.idx.records=[]
    · rwa [show s.step (.change rec)=s from if_pos hnil]
    · rw [show s.step (.change rec)=_ from if_neg hnil]
      apply h.shrink (Nat.min_le_left _ _)
      · simp
      · rw [List.take_append_of_le_length (by simp),List.dropLast_eq_take,List.take_take]
        congr 1
        omega
  | rebuild => exact kept_of_valid (rebuildBlockSums_valid s.idx)
  | extend validCount =>
    have hv := h.extend he
    have hk := kept_of_valid hv
    rwa [extendBlockSums_records] at hk

theorem Kept.run (h : s.Kept) {edits : List Edit} (he : s.Followed edits) : (s.run edits).Kept := by
  induction edits generalizing s with
  | nil => exact h
  | cons e es ih => exact ih (h.step he.1) he.2

theorem kept_start : start.Kept := Or.inl rfl

end Edited

/-- An extension that is told of every change leaves what a rebuild leaves; and wherever the
sums are those of the records, lines and records answer one another. -/
theorem edited_line_mapping {edits : List Edit} {v : ℤ} (he : Edited.start.Followed edits)
    (hv : (Edited.start.run edits).Follows (.extend v)) :
    (Edited.start.run edits).idx.extendBlockSums v=(Edited.start.run edits).idx.rebuildBlockSums ∧
      ((Edited.start.run edits).idx.extendBlockSums v).LineMapping ∧ ∀idx : RecordIndex,idx.SumsValid→
      idx.LineMapping := by
  have hvalid := (Edited.kept_start.run he).extend hv
  refine ⟨?_,hvalid.lineMapping,fun idx h => h.lineMapping⟩
  rw [extendBlockSums_eq,hvalid,extendBlockSums_records]
  rfl

/-- Two records; the second goes, another comes in its place, and the sums follow from one on. -/
theorem edited_line_mapping_regrown :
    let edits := [.append {(default : Record) with lineCount := 2},.append default,.rebuild,.pop,
      .append {(default : Record) with lineCount := 3}]
    (Edited.start.run edits).idx.extendBlockSums 1=(Edited.start.run edits).idx.rebuildBlockSums ∧
      ((Edited.start.run edits).idx.extendBlockSums 1).LineMapping ∧ ∀idx : RecordIndex,idx.SumsValid→
        idx.LineMapping :=
  edited_line_mapping ⟨trivial,trivial,trivial,trivial,trivial,trivial⟩ (Or.inr (by decide))

/-- One record with its sums built, asked where the record after next begins: `records.at(1)`. -/
theorem firstLineOfRecord_past_end :
    let idx := (Edited.start.run [.append {(default : Record) with lineCount := 1},.rebuild]).idx
    idx.SumsValid ∧ idx.firstLineOfRecord? 2=none := ⟨rfl,by decide⟩

end RecordIndex

end Loftail
