import Mathlib.Algebra.BigOperators.Group.List.Basic
import Mathlib.Algebra.GroupWithZero.Nat
import Mathlib.Data.List.TakeDrop

/-! # Prefix sums kept once a block

A running total is written down before every `B`-th element and once more at the end.
The sums of a sequence that changed from some element on are those of the unchanged
blocks, rescanned from the last boundary at or before the change. -/
namespace Loftail.BlockPrefixSums

/-- How many blocks `n` elements take. -/
def blocksFor (n B : ℕ) : ℕ := (n+B-1)/B

section Counts
variable {m n B : ℕ}

theorem blocksFor_mono (h : m≤n) : blocksFor m B≤blocksFor n B :=
  Nat.div_le_div_right (by omega)

theorem blocksFor_zero (hB : 0<B) : blocksFor 0 B=0 := Nat.div_eq_of_lt (by omega)

/-- Blocks joined in pairs are the blocks of twice the size. -/
theorem blocksFor_double (m : ℕ) (hB : 0<B) : blocksFor m (B*2)=(blocksFor m B+1)/2 := by
  rw [blocksFor,blocksFor,← Nat.div_div_eq_div_mul]
  congr 1
  rw [← Nat.add_div_right _ hB]
  congr 1
  omega

theorem blocksFor_le_one (hB : 0<B) (h : m≤B) : blocksFor m B≤1 :=
  Nat.le_of_lt_succ ((Nat.div_lt_iff_lt_mul hB).mpr (by omega))

theorem div_lt_blocksFor {i : ℕ} (hB : 0<B) (h : i < m) : i/B<blocksFor m B := by
  rw [← Nat.succ_le_iff,Nat.succ_eq_add_one,← Nat.add_div_right _ hB]
  exact Nat.div_le_div_right (by omega)

/-- The last block begins at one of the elements. -/
theorem last_mul_lt (hB : 0<B) (h : 0 < m) : (blocksFor m B-1)*B < m := by
  have hlast : blocksFor m B-1=(m-1)/B := by
    rw [blocksFor,show m+B-1=m-1+B by omega,Nat.add_div_right _ hB,Nat.add_sub_cancel]
  rw [hlast]
  have := Nat.div_mul_le_self (m-1) B
  omega

theorem last_le_div {i : ℕ} (hB : 0<B) (h : m ≤ i) : blocksFor m B-1 ≤ i/B := by
  refine Nat.sub_le_of_le_add ?_
  rw [← Nat.add_div_right _ hB]
  exact Nat.div_le_div_right (by omega)

end Counts

variable {α : Type*} (h : α→ℕ) (B : ℕ)

def total (xs : List α) : ℕ := (xs.map h).sum

@[simp] theorem total_nil : total h []=0 := rfl

@[simp] theorem total_cons (x : α) (xs : List α) : total h (x::xs)=h x+total h xs := by simp [total]

@[simp] theorem total_append (xs ys : List α) : total h (xs++ys)=total h xs+total h ys := by simp [total]

theorem total_take_add_drop (n : ℕ) (xs : List α) : total h (xs.take n)+total h (xs.drop n)=total h xs := by
  rw [← total_append,List.take_append_drop]

theorem total_take_mono (xs : List α) {m n : ℕ} (hmn : m≤n) : total h (xs.take m)≤total h (xs.take n) := by
  have hs := total_take_add_drop h m (xs.take n)
  rw [List.take_take,Nat.min_eq_left hmn] at hs
  omega

/-- The loop both builds share: a boundary entry before every `B`-th element, the total last. -/
def scanFrom : List ℕ→ℕ→ℕ→List α→List ℕ
  | sums,acc,_,[] => sums++[acc]
  | sums,acc,i,x::xs => scanFrom (if i%B=0 then sums++[acc] else sums) (acc+h x) (i+1) xs

def blockSums (xs : List α) : List ℕ := scanFrom h B [] 0 0 xs

/-- The boundary entries alone. -/
def boundsFrom : ℕ→ℕ→List α→List ℕ
  | _,_,[] => []
  | acc,i,x::xs => (if i%B=0 then [acc] else [])++boundsFrom (acc+h x) (i+1) xs

theorem scanFrom_eq (sums : List ℕ) (acc i : ℕ) (xs : List α) :
    scanFrom h B sums acc i xs=sums++boundsFrom h B acc i xs++[acc+total h xs] := by
  induction xs generalizing sums acc i with
  | nil => simp [scanFrom,boundsFrom]
  | cons x xs ih =>
    rw [scanFrom,ih,boundsFrom,total_cons,Nat.add_assoc]
    split <;> simp

theorem boundsFrom_append (acc i : ℕ) (xs ys : List α) :
    boundsFrom h B acc i (xs++ys)=
      boundsFrom h B acc i xs++boundsFrom h B (acc+total h xs) (i+xs.length) ys := by
  induction xs generalizing acc i with
  | nil => simp [boundsFrom]
  | cons x xs ih =>
    simp only [List.cons_append,boundsFrom,ih,total_cons,List.length_cons,List.append_assoc]
    rw [Nat.add_assoc acc,show i+1+xs.length=i+(xs.length+1) by omega]

variable {h} in
/-- Sums see the heights alone. -/
theorem blockSums_congr {β : Type*} {k : β→ℕ} {xs : List α} {ys : List β} (hxy : xs.map h=ys.map k) :
    blockSums h B xs=blockSums k B ys := by
  have hscan : ∀(xs : List α) (ys : List β) sums acc i,xs.map h=ys.map k→
      scanFrom h B sums acc i xs=scanFrom k B sums acc i ys := by
    intro xs
    induction xs with
    | nil =>
      intro ys sums acc i hxy
      have hn : ys=[] := by simpa using hxy.symm
      subst hn
      rfl
    | cons x xs ih =>
      intro ys sums acc i hxy
      cases ys with
      | nil => simp at hxy
      | cons y ys =>
        simp only [List.map_cons,List.cons.injEq] at hxy
        rw [scanFrom,scanFrom,hxy.1,ih ys _ _ _ hxy.2]
  exact hscan xs ys [] 0 0 hxy

section Positive
variable {B} (hB : 0<B)
include hB

private theorem boundsFrom_length_add (acc i : ℕ) (xs : List α) :
    (boundsFrom h B acc i xs).length+(i+B-1)/B=(i+xs.length+B-1)/B := by
  induction xs generalizing acc i with
  | nil => simp [boundsFrom]
  | cons x xs ih =>
    have hi := ih (acc+h x) (i+1)
    have hs : (i+1+B-1)/B=(i+B-1)/B+(if i%B=0 then 1 else 0) := by
      obtain ⟨q,r,hr,rfl⟩ : ∃q r,r<B ∧ i=B*q+r := ⟨i/B,i%B,Nat.mod_lt _ hB,(Nat.div_add_mod _ _).symm⟩
      have hm : (B*q+r)%B=r := by rw [Nat.mul_add_mod,Nat.mod_eq_of_lt hr]
      rw [hm]
      by_cases hz : r=0
      · subst hz
        have h₁ : (B*q+0+1+B-1)/B=q+1 := by
          rw [show B*q+0+1+B-1=B*(q+1)+0 by rw [Nat.mul_add]; omega]
          simp [hB]
        have h₂ : (B*q+0+B-1)/B=q := by
          rw [show B*q+0+B-1=B*q+(B-1) by omega,Nat.mul_add_div hB,Nat.div_eq_of_lt (by omega)]
          rfl
        simp only [h₁,h₂,if_true]
      · have h₁ : (B*q+r+1+B-1)/B=q+1 := by
          rw [show B*q+r+1+B-1=B*(q+1)+r by rw [Nat.mul_add]; omega,Nat.mul_add_div hB,Nat.div_eq_of_lt hr]
        have h₂ : (B*q+r+B-1)/B=q+1 := by
          rw [show B*q+r+B-1=B*(q+1)+(r-1) by rw [Nat.mul_add]; omega,Nat.mul_add_div hB,
            Nat.div_eq_of_lt (by omega)]
        simp only [h₁,h₂,if_neg hz]
    rw [boundsFrom,List.length_append,List.length_cons]
    rw [show i+(xs.length+1)+B-1=i+1+xs.length+B-1 by omega,← hi,hs]
    split
    · simp only [List.length_singleton]
      omega
    · simp

theorem boundsFrom_length (xs : List α) : (boundsFrom h B 0 0 xs).length=(xs.length+B-1)/B := by
  have hl := boundsFrom_length_add h hB 0 0 xs
  rw [Nat.div_eq_of_lt (show 0+B-1<B by omega)] at hl
  simpa using hl

theorem blockSums_length (xs : List α) : (blockSums h B xs).length=(xs.length+B-1)/B+1 := by
  simp [blockSums,scanFrom_eq,boundsFrom_length h hB]

/-- A whole number of blocks has as many boundaries. -/
theorem boundsFrom_blocks {s : ℕ} {xs : List α} (hs : xs.length=s*B) : (boundsFrom h B 0 0 xs).length=s := by
  rw [boundsFrom_length h hB,hs,show s*B+B-1=B*s+(B-1) by rw [Nat.mul_comm]; omega,Nat.mul_add_div hB,
    Nat.div_eq_of_lt (by omega)]
  rfl

omit hB in
/-- The sums of a sequence, cut at a block boundary. -/
theorem blockSums_cut (xs : List α) {s : ℕ} (hs : s*B≤xs.length) :
    ∃rest,blockSums h B xs=boundsFrom h B 0 0 (xs.take (s*B))++total h (xs.take (s*B))::rest := by
  have hl : (xs.take (s*B)).length=s*B := by simp [hs]
  have hx : blockSums h B xs=boundsFrom h B 0 0 (xs.take (s*B))++
      (boundsFrom h B (total h (xs.take (s*B))) (s*B) (xs.drop (s*B))++[total h xs]) := by
    conv_lhs => rw [← List.take_append_drop (s*B) xs]
    rw [blockSums,scanFrom_eq,boundsFrom_append,hl,total_append,total_take_add_drop]
    simp
  cases hd : xs.drop (s*B) with
  | nil =>
    have ht := total_take_add_drop h (s*B) xs
    rw [hd,total_nil,Nat.add_zero] at ht
    exact ⟨[],by rw [hx,hd,ht]; simp [boundsFrom]⟩
  | cons y ys =>
    exact ⟨boundsFrom h B (total h (xs.take (s*B))+h y) (s*B+1) ys++[total h xs],by
      rw [hx,hd]
      simp [boundsFrom]⟩

private theorem blockSums_take (xs : List α) {s : ℕ} (hs : s*B≤xs.length) :
    (blockSums h B xs).take s=boundsFrom h B 0 0 (xs.take (s*B)) := by
  obtain ⟨rest,hr⟩ := blockSums_cut h xs hs
  have hl := @boundsFrom_blocks _ h B hB s (xs.take (s*B)) (by simp [hs])
  rw [hr,List.take_left' hl]

/-- Entry `s` is the total before the `s`-th block. -/
theorem blockSums_getElem? (xs : List α) {s : ℕ} (hs : s*B≤xs.length) :
    (blockSums h B xs)[s]?=some (total h (xs.take (s*B))) := by
  obtain ⟨rest,hr⟩ := blockSums_cut h xs hs
  have hl := @boundsFrom_blocks _ h B hB s (xs.take (s*B)) (by simp [hs])
  rw [hr,List.getElem?_append_right (by omega),hl,Nat.sub_self]
  rfl

/-- Every entry, the total at the end included. -/
theorem blockSums_entry (xs : List α) {s : ℕ} (hs : s<(blockSums h B xs).length) :
    (blockSums h B xs)[s]?=some (total h (xs.take (s*B))) := by
  rcases Nat.le_total (s*B) xs.length with hle | hge
  · exact blockSums_getElem? h hB xs hle
  · have hlen := boundsFrom_length h hB xs
    rw [blockSums_length h hB] at hs
    have hlast : xs.length+B-1<(s+1)*B := by
      rw [Nat.succ_mul]
      omega
    have hsl : s=(xs.length+B-1)/B :=
      Nat.le_antisymm (by omega) (Nat.le_of_lt_succ (Nat.div_lt_of_lt_mul (by rwa [Nat.mul_comm])))
    rw [blockSums,scanFrom_eq,List.nil_append,List.getElem?_append_right (by omega),hlen,← hsl,Nat.sub_self,
      List.take_of_length_le hge]
    simp

/-- Rescanning from a boundary both sequences share rebuilds the new sums. -/
theorem scanFrom_resume {xs ys : List α} {s : ℕ} (hx : s*B≤xs.length) (hy : s*B≤ys.length)
    (hxy : xs.take (s*B)=ys.take (s*B)) :
    scanFrom h B ((blockSums h B xs).take s) (total h (xs.take (s*B))) (s*B) (ys.drop (s*B))=
      blockSums h B ys := by
  have hl : (ys.take (s*B)).length=s*B := by simp [hy]
  rw [blockSums_take h hB xs hx,hxy,scanFrom_eq]
  conv_rhs => rw [blockSums,scanFrom_eq,← List.take_append_drop (s*B) ys,boundsFrom_append,hl]
  simp only [List.take_append_drop,List.nil_append,Nat.zero_add,List.append_assoc,total_take_add_drop]

end Positive

section Search
variable {sums : List ℕ} {x : ℤ}

/-- The binary search for the last entry at most `x`, its reads in sight: `none` when one
leaves the sequence. -/
def lastAtMost (sums : List ℕ) (x : ℤ) (lo hi : ℕ) : Option ℕ :=
  if lo<hi then
    match sums[(lo+hi+1)/2]? with
    | none => none
    | some s => if (s : ℤ)≤x then lastAtMost sums x ((lo+hi+1)/2) hi else lastAtMost sums x lo ((lo+hi+1)/2-1)
  else some lo
termination_by hi-lo

/-- It stays in bounds and ends at an entry that is at most `x`, the next one past `x`. -/
theorem lastAtMost_spec {lo hi : ℕ} (hle : lo≤hi) (hin : hi<sums.length) (hlo : ∀s∈sums[lo]?,(s : ℤ)≤x)
    (hhi : ∀s∈sums[hi+1]?,x<(s : ℤ)) :
    ∃b,lastAtMost sums x lo hi=some b ∧ b≤hi ∧ (∀s∈sums[b]?,(s : ℤ)≤x) ∧ ∀s∈sums[b+1]?,x<(s : ℤ) := by
  induction hd : hi-lo using Nat.strongRecOn generalizing lo hi with
  | ind d ih =>
    rw [lastAtMost]
    by_cases hlt : lo<hi
    · have hmid : (lo+hi+1)/2<sums.length := by omega
      rw [if_pos hlt,List.getElem?_eq_getElem hmid]
      simp only []
      split
      · rename_i hs
        apply ih _ (by omega) (by omega) hin _ hhi rfl
        intro s hmem
        rw [List.getElem?_eq_getElem hmid,Option.mem_some_iff] at hmem
        exact hmem ▸ hs
      · rename_i hs
        obtain ⟨b,hb,hle',hrest⟩ := @ih ((lo+hi+1)/2-1-lo) (by omega) lo ((lo+hi+1)/2-1) (by omega) (by omega) hlo
          (by
            intro s hmem
            rw [show (lo+hi+1)/2-1+1=(lo+hi+1)/2 by omega,List.getElem?_eq_getElem hmid,Option.mem_some_iff] at hmem
            exact hmem ▸ Int.not_le.mp hs) rfl
        exact ⟨b,hb,by omega,hrest⟩
    · have heq : lo=hi := by omega
      subst heq
      rw [if_neg hlt]
      exact ⟨lo,rfl,Nat.le_refl lo,hlo,hhi⟩

end Search

end Loftail.BlockPrefixSums
