import Loftail.EstimatedGeometry
import Mathlib.Tactic.Linarith
import Mathlib.Tactic.FieldSimp
import Mathlib.Algebra.Order.BigOperators.Group.List

/-! # Rows measured up to a point and scaled behind it

A row's line is exact among the measured rows. Behind them it is the row's share of an
estimate, rounded to the nearest line; a line is mapped back by the inverse share, rounded down. -/
namespace Loftail

/-- The cast of a floating-point number to an integer: towards zero. -/
def truncated (q : ℚ) : ℤ := if q < 0 then -⌊-q⌋ else ⌊q⌋

/-- The loop over some heights: the first whose running total passes `x`. -/
def scanHeights (x : ℤ) : List ℕ→ℤ→ℕ→Option ℕ
  | [],_,_ => none
  | h::hs,acc,i => if x < acc+h then some i else scanHeights x hs (acc+h) (i+1)

section Rounding
variable {a P : ℤ}

theorem floor_div (hP : 0 < P) : ⌊(a : ℚ)/P⌋=a/P := by
  have hq : (0 : ℚ) < P := by exact_mod_cast hP
  rw [Int.floor_eq_iff,le_div_iff₀ hq,div_lt_iff₀ hq]
  have hdiv := Int.mul_ediv_add_emod a P
  have hnonneg := Int.emod_nonneg a hP.ne'
  have hlt := Int.emod_lt_of_pos a hP
  constructor
  · have hle : a/P*P≤a := by rw [mul_comm]; omega
    exact_mod_cast hle
  · have hgt : a < (a/P+1)*P := by rw [add_mul,mul_comm]; omega
    exact_mod_cast hgt

private theorem truncated_div (ha : 0≤a) (hP : 0 < P) : truncated ((a : ℚ)/P)=a/P := by
  have hq : (0 : ℚ)≤(a : ℚ)/P := div_nonneg (by exact_mod_cast ha) (by exact_mod_cast hP.le)
  rw [truncated,if_neg (not_lt.mpr hq),floor_div hP]

/-- To the nearest: one more than the quotient from half a divisor on. -/
theorem llround_div (ha : 0≤a) (hP : 0 < P) : llround ((a : ℚ)/P)=a/P+if P≤2*(a%P) then 1 else 0 := by
  have hq : (0 : ℚ)≤(a : ℚ)/P := div_nonneg (by exact_mod_cast ha) (by exact_mod_cast hP.le)
  have hne : (P : ℚ)≠0 := by exact_mod_cast hP.ne'
  have hsum : (a : ℚ)/P+1/2=((2*a+P : ℤ) : ℚ)/((2*P : ℤ) : ℚ) := by
    push_cast
    field_simp
  rw [llround,if_neg (not_lt.mpr hq),hsum,floor_div (by omega)]
  have hdiv := Int.mul_ediv_add_emod a P
  have hnonneg := Int.emod_nonneg a hP.ne'
  have hlt := Int.emod_lt_of_pos a hP
  have hsplit : 2*a+P=2*(a%P)+P+2*P*(a/P) := by
    rw [mul_assoc]
    omega
  rw [hsplit,Int.add_mul_ediv_left _ _ (by omega),add_comm]
  congr 1
  split
  · rename_i hhalf
    rw [Int.ediv_eq_iff_of_pos (by omega)]
    omega
  · rename_i hhalf
    exact Int.ediv_eq_zero_of_lt (by omega) (by omega)

theorem llround_mono {b : ℤ} (ha : 0≤a) (hab : a≤b) (hP : 0 < P) : llround ((a : ℚ)/P)≤llround ((b : ℚ)/P) := by
  rw [llround_div ha hP,llround_div (ha.trans hab) hP]
  have hle := Int.ediv_le_ediv hP hab
  have ha' := Int.mul_ediv_add_emod a P
  have hb' := Int.mul_ediv_add_emod b P
  rcases hle.eq_or_lt with heq | hlt
  · rw [heq] at ha' ⊢
    split <;> split <;> omega
  · split <;> split <;> omega

/-- A rounded quotient is no more than half over. -/
theorem llround_le (ha : 0≤a) (hP : 0 < P) : 2*(llround ((a : ℚ)/P)*P)≤2*a+P := by
  have hdiv := Int.mul_ediv_add_emod a P
  have hnonneg := Int.emod_nonneg a hP.ne'
  rw [llround_div ha hP,add_mul,mul_comm (a/P)]
  split
  · omega
  · omega

/-- It is no less than the quotient where that is whole or the remainder makes a half. -/
theorem le_llround_iff (ha : 0≤a) (hP : 0 < P) : a≤llround ((a : ℚ)/P)*P↔a%P=0 ∨ P≤2*(a%P) := by
  have hdiv := Int.mul_ediv_add_emod a P
  have hnonneg := Int.emod_nonneg a hP.ne'
  have hlt := Int.emod_lt_of_pos a hP
  rw [llround_div ha hP,add_mul,mul_comm (a/P)]
  split
  · omega
  · omega

end Rounding

section Scans
variable {x acc : ℤ} {hs : List ℕ} {i m : ℕ}

/-- The row that `x` falls on. -/
theorem scanHeights_at (hm : m < hs.length) (hlo : acc+(hs.take m).sum≤x) (hhi : x < acc+(hs.take (m+1)).sum) :
    scanHeights x hs acc i=some (i+m) := by
  induction hs generalizing acc i m with
  | nil => simp at hm
  | cons h hs ih =>
    cases m with
    | zero =>
      simp at hhi
      exact if_pos hhi
    | succ m =>
      simp only [List.take_succ_cons,List.sum_cons,Nat.cast_add,List.length_cons] at hlo hhi hm
      have hpast : ¬x < acc+h := by omega
      rw [scanHeights,if_neg hpast,@ih (acc+h) (i+1) m (by omega) (by omega) (by omega),
        Nat.add_right_comm,Nat.add_assoc]

private theorem scanHeights_past (hx : acc+hs.sum≤x) : scanHeights x hs acc i=none := by
  induction hs generalizing acc i with
  | nil => rfl
  | cons h hs ih =>
    simp only [List.sum_cons,Nat.cast_add] at hx
    have hpast : ¬x < acc+h := by omega
    rw [scanHeights,if_neg hpast,ih (by omega)]

/-- Rows counted from another number on. -/
theorem scanHeights_shift (x acc : ℤ) (hs : List ℕ) (s i : ℕ) :
    scanHeights x hs acc (s+i)=(scanHeights x hs acc i).map (s+·) := by
  induction hs generalizing acc i with
  | nil => rfl
  | cons h hs ih =>
    rw [scanHeights,scanHeights]
    split
    · rfl
    · exact ih (acc+h) (i+1)

/-- A line under the rows falls on one of them. -/
theorem exists_row (hlo : acc≤x) (hhi : x < acc+hs.sum) :
    ∃m<hs.length,acc+(hs.take m).sum≤x ∧ x < acc+(hs.take (m+1)).sum := by
  induction hs generalizing acc with
  | nil =>
    simp at hhi
    omega
  | cons h hs ih =>
    by_cases hx : x < acc+h
    · exact ⟨0,by simp,by simpa using hlo,by simpa using hx⟩
    · simp only [List.sum_cons,Nat.cast_add] at hhi
      obtain ⟨m,hm,hle,hlt⟩ := @ih (acc+h) (by omega) (by omega)
      refine ⟨m+1,by simpa using hm,?_,?_⟩ <;> simp only [List.take_succ_cons,List.sum_cons,Nat.cast_add] <;> omega

theorem take_sum_mono {m' : ℕ} (h : m ≤ m') : (hs.take m).sum≤(hs.take m').sum := by
  have hsplit := congrArg List.sum (List.take_append_drop m (hs.take m'))
  rw [List.sum_append,List.take_take,Nat.min_eq_left h] at hsplit
  omega

theorem take_sum_le (m : ℕ) : (hs.take m).sum≤hs.sum := by
  have hsplit := congrArg List.sum (List.take_append_drop m hs)
  rw [List.sum_append] at hsplit
  omega

/-- Heights of a line or more. -/
theorem take_sum_succ (hpos : ∀h∈hs,0 < h) (hm : m < hs.length) : (hs.take m).sum < (hs.take (m+1)).sum := by
  rw [List.take_add_one,List.getElem?_eq_getElem hm,List.sum_append]
  have h := hpos _ (List.getElem_mem hm)
  simp
  omega

theorem take_sum_lt (hpos : ∀h∈hs,0 < h) (hm : m < hs.length) : (hs.take m).sum < hs.sum :=
  (take_sum_succ hpos hm).trans_le (take_sum_le (m+1))

/-- A scan that ends at a row ends at the one that holds `x`. -/
theorem scanHeights_some {n : ℕ} (hlo : acc≤x) (h : scanHeights x hs acc i=some n) :
    ∃m<hs.length,n=i+m ∧ acc+(hs.take m).sum≤x ∧ x < acc+(hs.take (m+1)).sum := by
  by_cases hx : x < acc+hs.sum
  · obtain ⟨m,hm,hle,hlt⟩ := exists_row hlo hx
    rw [scanHeights_at hm hle hlt,Option.some.injEq] at h
    exact ⟨m,hm,h.symm,hle,hlt⟩
  · rw [scanHeights_past (by omega)] at h
    exact absurd h (by simp)

/-- Where the scan ends, the last row standing for what lies past them. -/
theorem scanHeights_getD_lt (hlo : acc≤x) (hne : hs≠[]) :
    i≤(scanHeights x hs acc i).getD (i+hs.length-1) ∧ (scanHeights x hs acc i).getD
    (i+hs.length-1) < i+hs.length := by
  have hpos := List.length_pos_iff.mpr hne
  cases h : scanHeights x hs acc i with
  | none =>
    simp only [Option.getD_none]
    omega
  | some n =>
    obtain ⟨m,hm,rfl,-⟩ := scanHeights_some hlo h
    simp only [Option.getD_some]
    omega

private theorem scanHeights_getD_mono {y : ℤ} (hlo : acc≤x) (hxy : x≤y) :
    (scanHeights x hs acc i).getD (i+hs.length-1)≤(scanHeights y hs acc i).getD (i+hs.length-1) := by
  cases hy : scanHeights y hs acc i with
  | none =>
    cases hx : scanHeights x hs acc i with
    | none => exact le_rfl
    | some n =>
      obtain ⟨m,hm,rfl,-⟩ := scanHeights_some hlo hx
      simp only [Option.getD_some,Option.getD_none]
      omega
  | some n' =>
    obtain ⟨m',hm',rfl,-,hlt'⟩ := scanHeights_some (hlo.trans hxy) hy
    have hsum := @take_sum_le hs (m'+1)
    obtain ⟨m,hm,hle,hlt⟩ := @exists_row x acc hs hlo (by omega)
    rw [scanHeights_at hm hle hlt]
    simp only [Option.getD_some]
    by_contra hgt
    have hmono := @take_sum_mono hs (m'+1) m (by omega)
    omega

end Scans

/-- Rows of known heights, rows behind them, and an estimate of the lines these take. -/
structure ScaledBlock where
  measured : List ℕ
  rest : List ℕ
  estimate : ℤ
  enough : (rest.sum : ℤ)≤estimate

namespace ScaledBlock
variable (B : ScaledBlock)

def exact : ℤ := B.measured.sum

/-- The physical lines of the rows that are not measured. -/
def physRest : ℤ := B.rest.sum

def lineOf (i : ℕ) : ℤ :=
  if i≤B.measured.length then (B.measured.take i).sum
  else if B.physRest≤0 then B.exact
  else B.exact+llround ((((B.rest.take (i-B.measured.length)).sum*B.estimate : ℤ) : ℚ)/B.physRest)

def recordAt (x : ℤ) : ℕ :=
  match if x < B.exact then scanHeights x B.measured 0 0 else none with
  | some i => i
  | none =>
    if B.rest=[] then B.measured.length-1
    else if B.physRest≤0 ∨ B.estimate≤0 then B.measured.length
    else (scanHeights (truncated (((max 0 (x-B.exact)*B.physRest : ℤ) : ℚ)/B.estimate)) B.rest 0
      B.measured.length).getD
      (B.measured.length+B.rest.length-1)

/-- The share of the first `p` of the unmeasured lines is a whole number, or at least half a line over one. -/
def RoundsUp (p : ℤ) : Prop := p*B.estimate%B.physRest=0 ∨ B.physRest≤2*(p*B.estimate%B.physRest)

variable {B : ScaledBlock} {i j : ℕ} {x y : ℤ}

theorem physRest_nonneg : 0≤B.physRest := Int.natCast_nonneg _

theorem share_nonneg (hP : 0 < B.physRest) (m : ℕ) : 0≤((B.rest.take m).sum : ℤ)*B.estimate :=
  mul_nonneg (Int.natCast_nonneg _) (hP.le.trans B.enough)

/-- Rows that take a line each leave some behind any but the last. -/
theorem share_lt (hr : ∀d∈B.rest,0 < d) {m : ℕ} (hm : m < B.rest.length) :
    ((B.rest.take m).sum : ℤ) < B.physRest := by
  rw [physRest]
  exact_mod_cast take_sum_lt hr hm

theorem lineOf_inside (h : i≤B.measured.length) : B.lineOf i=(B.measured.take i).sum := if_pos h

/-- Behind the measured rows; at the first of them the share is nothing. -/
theorem lineOf_behind (h : B.measured.length ≤ i) (hP : 0 < B.physRest) :
    B.lineOf i=B.exact+llround ((((B.rest.take (i-B.measured.length)).sum*B.estimate : ℤ) : ℚ)/B.physRest) := by
  rcases h.eq_or_lt with rfl | hlt
  · rw [lineOf_inside le_rfl,List.take_length,Nat.sub_self,List.take_zero,List.sum_nil,exact]
    norm_num [llround]
  · rw [lineOf,if_neg (by omega),if_neg (by omega)]

theorem exact_le_lineOf (h : B.measured.length ≤ i) : B.exact≤B.lineOf i := by
  rcases physRest_nonneg.eq_or_lt with hz | hP
  · rw [lineOf]
    split
    · have hi : i=B.measured.length := by omega
      rw [hi,List.take_length,exact]
    · rw [if_pos hz.symm.le]
  · rw [lineOf_behind h hP,llround_div (share_nonneg hP _) hP]
    have hq := Int.ediv_nonneg (share_nonneg hP (i-B.measured.length)) hP.le
    split <;> omega

theorem lineOf_mono (h : i≤j) : B.lineOf i≤B.lineOf j := by
  rcases Nat.le_total j B.measured.length with hj | hj
  · rw [lineOf_inside hj,lineOf_inside (h.trans hj)]
    exact_mod_cast take_sum_mono h
  rcases Nat.le_total i B.measured.length with hi | hi
  · have hle : ((B.measured.take i).sum : ℤ)≤B.exact := by
      rw [exact]
      exact_mod_cast take_sum_le i
    rw [lineOf_inside hi]
    exact hle.trans (exact_le_lineOf hj)
  rcases physRest_nonneg.eq_or_lt with hz | hP
  · have hflat (k : ℕ) (hk : B.measured.length≤k) : B.lineOf k=B.exact := by
      rw [lineOf]
      split
      · have hk' : k=B.measured.length := by omega
        rw [hk',List.take_length,exact]
      · rw [if_pos hz.symm.le]
    rw [hflat i hi,hflat j hj]
  · rw [lineOf_behind hi hP,lineOf_behind hj hP]
    have hsum : ((B.rest.take (i-B.measured.length)).sum : ℤ)≤(B.rest.take (j-B.measured.length)).sum := by
      exact_mod_cast take_sum_mono (Nat.sub_le_sub_right h _)
    have hshare := llround_mono (share_nonneg hP _) (mul_le_mul_of_nonneg_right hsum (hP.le.trans B.enough)) hP
    omega

theorem lineOf_nonneg (i : ℕ) : 0≤B.lineOf i := by
  have hmono := B.lineOf_mono (Nat.zero_le i)
  rw [lineOf_inside (Nat.zero_le _)] at hmono
  simpa using hmono

/-- No row begins past the lines of the block. -/
theorem lineOf_le (i : ℕ) : B.lineOf i≤B.exact+B.estimate := by
  have hE : 0≤B.estimate := physRest_nonneg.trans B.enough
  rcases Nat.le_total i B.measured.length with hi | hi
  · have hle : ((B.measured.take i).sum : ℤ)≤B.exact := by
      rw [exact]
      exact_mod_cast take_sum_le i
    rw [lineOf_inside hi]
    omega
  rcases physRest_nonneg.eq_or_lt with hz | hP
  · rw [lineOf]
    split
    · have hi : i=B.measured.length := by omega
      rw [hi,List.take_length,← exact]
      omega
    · rw [if_pos hz.symm.le]
      omega
  · have hsum : ((B.rest.take (i-B.measured.length)).sum : ℤ)≤B.physRest := by
      rw [physRest]
      exact_mod_cast take_sum_le _
    have hshare := llround_mono (share_nonneg hP _) (mul_le_mul_of_nonneg_right hsum hE) hP
    have hwhole : llround (((B.physRest*B.estimate : ℤ) : ℚ)/B.physRest)=B.estimate := by
      rw [llround_div (mul_nonneg hP.le hE) hP,Int.mul_ediv_cancel_left _ hP.ne',Int.mul_emod_right,
        if_neg (by omega),add_zero]
    rw [lineOf_behind hi hP]
    omega

/-- A line of the measured rows is on the row that holds it. -/
theorem recordAt_inside (hlo : 0≤x) (hx : x < B.exact) : ∃m<B.measured.length,B.recordAt x=m ∧
    ((B.measured.take m).sum : ℤ)≤x ∧ x < (B.measured.take (m+1)).sum := by
  rw [exact] at hx
  obtain ⟨m,hm,hle,hlt⟩ := @exists_row x 0 B.measured hlo (by omega)
  refine ⟨m,hm,?_,by omega,by omega⟩
  rw [recordAt,exact,if_pos hx,scanHeights_at hm hle hlt]
  simp

/-- A line behind them. -/
theorem recordAt_behind (hx : B.exact≤x) (hP : 0 < B.physRest) : B.recordAt x=
    (scanHeights ((x-B.exact)*B.physRest/B.estimate) B.rest 0 B.measured.length).getD
    (B.measured.length+B.rest.length-1) := by
  have hE : 0 < B.estimate := hP.trans_le B.enough
  have hrest : B.rest≠[] := fun hnil => by simp [physRest,hnil] at hP
  have hor : ¬(B.physRest≤0 ∨ B.estimate≤0) := by omega
  rw [recordAt,if_neg (by omega)]
  simp only [if_neg hrest,if_neg hor]
  rw [max_eq_right (by omega),truncated_div (mul_nonneg (by omega) hP.le) hE]

/-- Where no physical line is left unmeasured, it is the first row that is not measured, or the last one. -/
theorem recordAt_flat (hx : B.exact≤x) (hP : B.physRest≤0) :
    B.recordAt x=if B.rest=[] then B.measured.length-1 else B.measured.length := by
  rw [recordAt,if_neg (by omega)]
  simp only []
  split
  · rfl
  · rw [if_pos (Or.inl hP)]

theorem recordAt_lt (hlo : 0≤x) (hne : 0 < B.measured.length+B.rest.length) :
    B.recordAt x < B.measured.length+B.rest.length := by
  rcases Int.lt_or_le x B.exact with hx | hx
  · obtain ⟨m,hm,heq,-⟩ := recordAt_inside hlo hx
    omega
  rcases Int.lt_or_le 0 B.physRest with hP | hP
  · have hrest : B.rest≠[] := fun hnil => by simp [physRest,hnil] at hP
    have ht : 0≤(x-B.exact)*B.physRest/B.estimate :=
      Int.ediv_nonneg (mul_nonneg (by omega) hP.le) (hP.le.trans B.enough)
    rw [recordAt_behind hx hP]
    exact (scanHeights_getD_lt ht hrest).2
  · rw [recordAt_flat hx hP]
    split
    · omega
    · rename_i hrest
      have hpos := List.length_pos_iff.mpr hrest
      omega

theorem recordAt_mono (hlo : 0≤x) (hxy : x≤y) : B.recordAt x≤B.recordAt y := by
  rcases Int.lt_or_le y B.exact with hy | hy
  · obtain ⟨m,hm,heq,hle,hlt⟩ := recordAt_inside hlo (hxy.trans_lt hy)
    obtain ⟨m',hm',heq',hle',hlt'⟩ := recordAt_inside (hlo.trans hxy) hy
    rw [heq,heq']
    by_contra hgt
    have hmono := @take_sum_mono B.measured (m'+1) m (by omega)
    omega
  rcases Int.lt_or_le x B.exact with hx | hx
  · obtain ⟨m,hm,heq,-⟩ := recordAt_inside hlo hx
    rcases Int.lt_or_le 0 B.physRest with hP | hP
    · have hrest : B.rest≠[] := fun hnil => by simp [physRest,hnil] at hP
      have ht : 0≤(y-B.exact)*B.physRest/B.estimate :=
        Int.ediv_nonneg (mul_nonneg (by omega) hP.le) (hP.le.trans B.enough)
      have hge := (scanHeights_getD_lt (i:=B.measured.length) ht hrest).1
      rw [recordAt_behind hy hP]
      omega
    · rw [recordAt_flat hy hP]
      split <;> omega
  rcases Int.lt_or_le 0 B.physRest with hP | hP
  · have hE : 0≤B.estimate := hP.le.trans B.enough
    have ht : 0≤(x-B.exact)*B.physRest/B.estimate := Int.ediv_nonneg (mul_nonneg (by omega) hP.le) hE
    have hmul : (x-B.exact)*B.physRest≤(y-B.exact)*B.physRest := mul_le_mul_of_nonneg_right (by omega) hP.le
    rw [recordAt_behind hx hP,recordAt_behind hy hP]
    exact scanHeights_getD_mono ht (Int.ediv_le_ediv (hP.trans_le B.enough) hmul)
  · rw [recordAt_flat hx hP,recordAt_flat hy hP]

/-- Rows that take a line each begin inside the block. -/
theorem lineOf_lt (hm : ∀h∈B.measured,0 < h) (hr : ∀d∈B.rest,0 < d) (hi : i < B.measured.length+B.rest.length) :
    B.lineOf i < B.exact+B.estimate := by
  have hE : 0≤B.estimate := physRest_nonneg.trans B.enough
  rcases Nat.lt_or_ge i B.measured.length with hlt | hge
  · have hsum : (B.measured.take i).sum < B.measured.sum := take_sum_lt hm hlt
    rw [lineOf_inside hlt.le,exact]
    omega
  · have hP : 0 < B.physRest := by
      have hfirst := share_lt hr (show 0 < B.rest.length by omega)
      simpa using hfirst
    have hshare := share_lt hr (show i-B.measured.length < B.rest.length by omega)
    have hle := llround_le (share_nonneg hP (i-B.measured.length)) hP
    rw [lineOf_behind hge hP]
    by_contra hpast
    have hmul : B.estimate*B.physRest≤
        llround ((((B.rest.take (i-B.measured.length)).sum*B.estimate : ℤ) : ℚ)/B.physRest)*B.physRest :=
      mul_le_mul_of_nonneg_right (by omega) hP.le
    have hless : ((B.rest.take (i-B.measured.length)).sum : ℤ)*B.estimate≤(B.physRest-1)*B.estimate :=
      mul_le_mul_of_nonneg_right (by omega) hE
    have henough : B.physRest≤B.estimate := B.enough
    rw [sub_mul,one_mul,mul_comm B.physRest] at hless
    omega

theorem lineOf_pos (hm : ∀h∈B.measured,0 < h) (hr : ∀d∈B.rest,0 < d) (hi : 0 < i)
    (hlt : i < B.measured.length+B.rest.length) : 0 < B.lineOf i := by
  rcases Nat.eq_zero_or_pos B.measured.length with hz | hpos
  · have hP : 0 < B.physRest := by
      have hshare := share_lt hr (show 0 < B.rest.length by omega)
      simpa using hshare
    have hp : 0 < (B.rest.take i).sum := by
      have hsum := take_sum_succ hr (show 0 < B.rest.length by omega)
      have hmono := @take_sum_mono B.rest (0+1) i hi
      omega
    have hexact : 0≤B.exact := Int.natCast_nonneg _
    have hquot : 1≤((B.rest.take i).sum : ℤ)*B.estimate/B.physRest := by
      rw [Int.le_ediv_iff_mul_le hP,one_mul]
      exact B.enough.trans (le_mul_of_one_le_left (hP.le.trans B.enough) (by omega))
    rw [lineOf_behind (by omega) hP,hz,Nat.sub_zero,llround_div (share_nonneg hP i) hP]
    split <;> omega
  · have hmono := B.lineOf_mono (show 1 ≤ i from hi)
    have hsum : (B.measured.take 0).sum < (B.measured.take 1).sum := take_sum_succ hm hpos
    rw [lineOf_inside (show 1≤B.measured.length from hpos)] at hmono
    omega

/-- Among rows that take a line each, the one found where a row begins is that row exactly where
the row is measured or its share does not round down. -/
theorem recordAt_lineOf (hm : ∀h∈B.measured,0 < h) (hr : ∀d∈B.rest,0 < d)
    (hi : i < B.measured.length+B.rest.length) :
    B.recordAt (B.lineOf i)=i↔
      (B.measured.length < i→B.RoundsUp (B.rest.take (i-B.measured.length)).sum) := by
  rcases Nat.lt_or_ge i B.measured.length with hlt | hge
  · refine ⟨fun _ hgt => absurd hgt (by omega),fun _ => ?_⟩
    have hsum : (B.measured.take i).sum < B.measured.sum := take_sum_lt hm hlt
    obtain ⟨m,hml,heq,hle,hgt⟩ := @recordAt_inside B (B.lineOf i)
      (by rw [lineOf_inside hlt.le]; exact Int.natCast_nonneg _) (by rw [lineOf_inside hlt.le,exact]; omega)
    rw [lineOf_inside hlt.le] at hle hgt
    rw [heq]
    rcases Nat.lt_trichotomy m i with hless | heq | hmore
    · have hmono := @take_sum_mono B.measured (m+1) i (by omega)
      omega
    · exact heq
    · have hmono := @take_sum_mono B.measured (i+1) m (by omega)
      have hstep := take_sum_succ hm hlt
      omega
  have hP : 0 < B.physRest := by
    have hfirst := share_lt hr (show 0 < B.rest.length by omega)
    simpa using hfirst
  obtain ⟨m,rfl⟩ := Nat.exists_eq_add_of_le hge
  have hml : m < B.rest.length := by omega
  rw [Nat.add_sub_cancel_left]
  have hE : 0 < B.estimate := hP.trans_le B.enough
  have hnonneg := share_nonneg hP m
  have hline : B.lineOf (B.measured.length+m)-B.exact=
      llround ((((B.rest.take m).sum*B.estimate : ℤ) : ℚ)/B.physRest) := by
    rw [lineOf_behind hge hP,Nat.add_sub_cancel_left]
    omega
  rw [recordAt_behind (exact_le_lineOf hge) hP,hline]
  have hle := llround_le hnonneg hP
  have hiff := le_llround_iff hnonneg hP
  have henough : B.physRest≤B.estimate := B.enough
  have hup : llround ((((B.rest.take m).sum*B.estimate : ℤ) :
    ℚ)/B.physRest)*B.physRest/B.estimate≤(B.rest.take m).sum := by
    refine Int.le_of_lt_add_one (Int.ediv_lt_of_lt_mul hE ?_)
    rw [add_mul]
    omega
  have hdown : (B.rest.take m).sum≤llround
    ((((B.rest.take m).sum*B.estimate : ℤ) : ℚ)/B.physRest)*B.physRest/B.estimate↔
      B.RoundsUp (B.rest.take m).sum := by
    rw [Int.le_ediv_iff_mul_le hE,hiff,RoundsUp]
  have hpos : 0≤llround ((((B.rest.take m).sum*B.estimate : ℤ) : ℚ)/B.physRest)*B.physRest/B.estimate := by
    refine Int.ediv_nonneg (mul_nonneg ?_ hP.le) hE.le
    have hexact := @exact_le_lineOf B (B.measured.length+m) hge
    omega
  generalize llround ((((B.rest.take m).sum*B.estimate : ℤ) : ℚ)/B.physRest)*B.physRest/B.estimate=
    t at hup hdown hpos ⊢
  have hstep := take_sum_succ hr hml
  constructor
  · intro h hgt
    rw [← hdown]
    by_contra hless
    have hsum := @take_sum_le B.rest m
    obtain ⟨m',hm',hle',hlt'⟩ := @exists_row t 0 B.rest hpos (by omega)
    rw [scanHeights_at hm' hle' hlt',Option.getD_some] at h
    have hmono := @take_sum_mono B.rest m m' (by omega)
    omega
  · intro h
    rcases Nat.eq_zero_or_pos m with rfl | hmpos
    · rw [scanHeights_at hml (by simpa using hpos) (by simp at hup; omega),Option.getD_some]
    · have hge' := hdown.mpr (h (by omega))
      rw [scanHeights_at hml (by omega) (by omega),Option.getD_some]

end ScaledBlock

end Loftail
