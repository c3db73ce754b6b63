import Loftail.ContextEmitter
import Mathlib.Algebra.Order.Ring.Int
import Mathlib.Data.List.Induction

/-! # An emission taken up where rows were taken back

The emitter's state can be read off what it has emitted. Taking trailing rows back, from any
row on, and emitting again from that row gives what one pass gives: rows that stay below it
are leading context of a match to come, which then only asks for the rows above them. -/
namespace Loftail
namespace ContextEmitter

/-- The row emitted last, or -1. -/
def lastRow (out : List Emitted) : ℤ :=
  match out.getLast? with
  | some e => e.1
  | none => -1

/-- The match emitted last, or -1. -/
def lastMatchRow (out : List Emitted) : ℤ :=
  match out.reverse.find? (fun e => !e.2) with
  | some e => e.1
  | none => -1

/-- How many trailing rows are at or past one. -/
def rowsFrom (out : List Emitted) (row : ℤ) : ℕ := (out.reverse.takeWhile (fun e => decide (row≤(e.1 : ℤ)))).length

/-- The emitter's state, read off what it has emitted. -/
def readBack (out : List Emitted) : ContextState :=
  ⟨lastRow out,lastMatchRow out,if 0≤lastMatchRow out then rowsFrom out (lastMatchRow out+1) else 0⟩

theorem lastMatchRow_lt {out : List Emitted} {r : ℕ} (h : ∀e∈out,e.1<r) : lastMatchRow out<r := by
  unfold lastMatchRow
  split
  · rename_i e he
    have hm := List.mem_of_find?_eq_some he
    have := h e (List.mem_reverse.mp hm)
    omega
  · omega

private theorem readBack_match (out : List Emitted) (r : ℕ) : readBack (out++[(r,false)])=⟨r,r,0⟩ := by
  have hm : lastMatchRow (out++[(r,false)])=r := by simp [lastMatchRow]
  rw [readBack,hm]
  simp [lastRow,rowsFrom]

theorem readBack_context {out : List Emitted} {r : ℕ} (h : ∀e∈out,e.1<r) : readBack (out++[(r,true)])=
    ⟨r,lastMatchRow out,if 0≤lastMatchRow out then (readBack out).sinceMatch+1 else 0⟩ := by
  have hlt := lastMatchRow_lt h
  have hm : lastMatchRow (out++[(r,true)])=lastMatchRow out := by simp [lastMatchRow]
  rw [readBack,hm]
  congr 1
  · simp [lastRow]
  · split
    · rename_i hnn
      have hle : lastMatchRow out+1≤(r : ℤ) := by omega
      have hrows : rowsFrom (out++[(r,true)]) (lastMatchRow out+1)=rowsFrom out (lastMatchRow out+1)+1 := by
        rw [rowsFrom,List.reverse_append,List.reverse_singleton,List.singleton_append,
          List.takeWhile_cons_of_pos (by simpa using hle)]
        rfl
      simp only [readBack,if_pos hnn,hrows]
    · rfl

section Emission
variable {inBound isMatch : ℕ→Bool} {before after : ℕ}

/-- Emission over rows one after another. -/
theorem emitRows_append (st : ContextState) (xs ys : List ℕ) :
    emitRows inBound isMatch before after st (xs++ys)=
      ((emitRows inBound isMatch before after (emitRows inBound isMatch before after st xs).1 ys).1,
        (emitRows inBound isMatch before after st xs).2++
          (emitRows inBound isMatch before after (emitRows inBound isMatch before after st xs).1 ys).2) := by
  induction xs generalizing st with
  | nil => simp [emitRows]
  | cons x xs ih => simp [emitRows,ih]

/-! The leading window. -/

theorem mem_leadWindow {e : ℤ} {r q : ℕ} (h : q∈leadWindow inBound e before r) :
    e<q ∧ q<r ∧ inBound q=true := by
  induction r generalizing before with
  | zero => cases before <;> simp [leadWindow] at h
  | succ p ih =>
    rw [leadWindow] at h
    split at h
    · split at h
      · rcases List.mem_append.mp h with h | h
        · obtain ⟨h₁,h₂,h₃⟩ := ih h
          exact ⟨h₁,by omega,h₃⟩
        · rw [List.mem_singleton.mp h]
          exact ⟨by omega,by omega,by assumption⟩
      · obtain ⟨h₁,h₂,h₃⟩ := ih h
        exact ⟨h₁,by omega,h₃⟩
    · simp at h

private theorem leadWindow_ascend (e : ℤ) (before r : ℕ) : (leadWindow inBound e before r).Pairwise (·<·) := by
  induction r generalizing before with
  | zero => cases before <;> simp [leadWindow]
  | succ p ih =>
    rw [leadWindow]
    split
    · split
      · exact List.pairwise_append.mpr ⟨ih _,by simp,fun a ha b hb => by
          rw [List.mem_singleton.mp hb]
          exact (mem_leadWindow ha).2.1⟩
      · exact ih _
    · simp

private theorem leadWindow_nil {e : ℤ} {r : ℕ} (h : ∀q : ℕ,e<q→q<r→inBound q=false) :
    leadWindow inBound e before r=[] := by
  refine List.eq_nil_iff_forall_not_mem.mpr fun q hq => ?_
  obtain ⟨h₁,h₂,h₃⟩ := mem_leadWindow hq
  simp [h q h₁ h₂] at h₃

/-- Nothing in bound lies between a window and the row it leads to. -/
theorem leadWindow_last {e : ℤ} {r x : ℕ} (h : (leadWindow inBound e before r).getLast?=some x) {q : ℕ}
    (hx : x<q) (hq : q<r) : inBound q=false := by
  induction r generalizing before with
  | zero => omega
  | succ p ih =>
    rw [leadWindow] at h
    split at h
    · split at h
      · simp only [List.getLast?_append,List.getLast?_singleton,Option.some_or,Option.some.injEq] at h
        omega
      · rename_i hp
        rcases Nat.lt_succ_iff_lt_or_eq.mp hq with hlt | rfl
        · exact ih h hlt
        · simpa using hp
    · simp at h

/-- The part of a window from some row on is the window above the last row before it. -/
theorem leadWindow_split {e : ℤ} {c r x : ℕ} (hc : c≤r)
    (hx : ((leadWindow inBound e before r).filter (·<c)).getLast?=some x) :
    leadWindow inBound e before r=(leadWindow inBound e before r).filter (·<c)++leadWindow inBound x before r := by
  induction r generalizing before with
  | zero =>
    cases before <;> simp [leadWindow] at hx
  | succ p ih =>
    rcases Nat.le_or_eq_of_le_succ hc with hcp | rfl
    · by_cases hcond : (p : ℤ)>e ∧ 0<before
      · by_cases hp : inBound p=true
        · have hl : leadWindow inBound e before (p+1)=leadWindow inBound e (before-1) p++[p] := by
            rw [leadWindow,if_pos hcond,if_pos hp]
          have hdrop : ([p].filter (·<c))=[] := by simp [hcp]
          rw [hl,List.filter_append,hdrop,List.append_nil] at hx ⊢
          have hxlt : (x : ℤ)<p := by
            have := (mem_leadWindow (List.mem_filter.mp (List.mem_of_getLast? hx)).1).2.1
            omega
          rw [leadWindow,if_pos ⟨hxlt,hcond.2⟩,if_pos hp,← List.append_assoc,← ih hcp hx]
        · have hl : leadWindow inBound e before (p+1)=leadWindow inBound e before p := by
            rw [leadWindow,if_pos hcond,if_neg hp]
          rw [hl] at hx ⊢
          have hxlt : (x : ℤ)<p := by
            have := (mem_leadWindow (List.mem_filter.mp (List.mem_of_getLast? hx)).1).2.1
            omega
          rw [leadWindow,if_pos ⟨hxlt,hcond.2⟩,if_neg hp]
          exact ih hcp hx
      · rw [leadWindow,if_neg hcond] at hx
        simp at hx
    · have hall : (leadWindow inBound e before (p+1)).filter (·<p+1)=leadWindow inBound e before (p+1) :=
        List.filter_eq_self.mpr fun q hq => by simpa using (mem_leadWindow hq).2.1
      rw [hall] at hx ⊢
      rw [leadWindow_nil (e:=x) fun q h₁ h₂ => leadWindow_last hx (by omega) h₂,List.append_nil]

/-! One pass. -/

/-- What is emitted lies above what was, and only leading rows below the rows walked. -/
theorem mem_emitRows {st : ContextState} {rows : List ℕ} (h : ∀r∈rows,st.lastEmitted<r) (hr : rows.Pairwise (·<·))
    {e : Emitted} (he : e∈(emitRows inBound isMatch before after st rows).2) :
    st.lastEmitted<e.1 ∧ inBound e.1=true ∧ (e.2=false→e.1∈rows) ∧ (e.1∈rows ∨ e.2=true) ∧ ∃r∈rows,e.1≤r := by
  induction rows generalizing st with
  | nil => simp [emitRows] at he
  | cons r rs ih =>
    obtain ⟨hrs,hr'⟩ := List.pairwise_cons.mp hr
    have hlt := h r (by simp)
    rw [emitRows] at he
    rcases List.mem_append.mp he with he | he
    · unfold emitRow at he
      split at he
      · simp at he
      rename_i hin
      have hin : inBound r=true := by simpa using hin
      split at he
      · rcases List.mem_append.mp he with he | he
        · obtain ⟨q,hq,rfl⟩ := List.mem_map.mp he
          obtain ⟨h₁,h₂,h₃⟩ := mem_leadWindow hq
          exact ⟨h₁,h₃,by simp,Or.inr rfl,r,by simp,by omega⟩
        · rw [List.mem_singleton.mp he]
          exact ⟨hlt,hin,by simp,by simp,r,by simp,le_rfl⟩
      · split at he
        · rw [List.mem_singleton.mp he]
          exact ⟨hlt,hin,by simp,by simp,r,by simp,le_rfl⟩
        · simp at he
    · -- The state moves up to `r` at most, which the rows left are above.
      have hst : st.lastEmitted≤(emitRow inBound isMatch before after st r).1.lastEmitted ∧
          (emitRow inBound isMatch before after st r).1.lastEmitted≤r := by
        unfold emitRow
        split
        · exact ⟨le_rfl,hlt.le⟩
        split
        · exact ⟨hlt.le,le_rfl⟩
        split
        · exact ⟨hlt.le,le_rfl⟩
        · exact ⟨le_rfl,hlt.le⟩
      obtain ⟨h₁,h₂,h₃,h₄,q,hq,hle⟩ := ih (fun q hq => by have := hrs q hq; omega) hr' he
      exact ⟨by omega,h₂,fun hf => by simp [h₃ hf],by simpa [or_assoc] using Or.inr h₄,q,by simp [hq],hle⟩

/-- What holds of a pass over the first `n` rows. -/
structure Passed (inBound : ℕ→Bool) (after n : ℕ) (st : ContextState) (out : List Emitted) : Prop where
  state : readBack out=st
  below : ∀e∈out,e.1<n
  ascend : out.Pairwise (fun e e' => e.1<e'.1)
  opened : 0 ≤ st.lastMatch→st.sinceMatch<after→∀q : ℕ,st.lastEmitted<q→q<n→inBound q=false

theorem Passed.lastEmitted {n : ℕ} {st : ContextState} {out : List Emitted} (h : Passed inBound after n st out) :
    st.lastEmitted<n ∧ ∀e∈out,(e.1 : ℤ) ≤ st.lastEmitted := by
  have hst : st.lastEmitted=lastRow out := by rw [← h.state]; rfl
  rw [hst]
  rcases List.eq_nil_or_concat' out with rfl | ⟨es,l,rfl⟩
  · exact ⟨by simp [lastRow]; omega,by simp⟩
  · have hlast : lastRow (es++[l])=l.1 := by simp [lastRow]
    rw [hlast]
    refine ⟨by exact_mod_cast h.below l (by simp),fun e he => ?_⟩
    rcases List.mem_append.mp he with he | he
    · have := (List.pairwise_append.mp h.ascend).2.2 e he l (by simp)
      omega
    · rw [List.mem_singleton.mp he]

private theorem passed_initial : Passed inBound after 0 .initial [] :=
    ⟨rfl,by simp,.nil,by simp [ContextState.initial]⟩

private theorem passed_step {n : ℕ} {st : ContextState} {out : List Emitted} (h : Passed inBound after n st out) :
    Passed inBound after (n+1) (emitRow inBound isMatch before after st n).1
      (out++(emitRow inBound isMatch before after st n).2) := by
  have hlast := h.lastEmitted
  unfold emitRow
  split
  · rename_i hin
    refine ⟨by simpa using h.state,fun e he => ?_,by simpa using h.ascend,fun h₁ h₂ q h₃ h₄ => ?_⟩
    · rw [List.append_nil] at he
      exact (h.below e he).trans (Nat.lt_succ_self n)
    · rcases Nat.lt_succ_iff_lt_or_eq.mp h₄ with hlt | rfl
      · exact h.opened h₁ h₂ q h₃ hlt
      · simpa using hin
  rename_i hin
  split
  · refine ⟨by rw [← List.append_assoc,readBack_match],fun e he => ?_,?_,fun h₁ h₂ q h₃ h₄ => by
      simp only at h₃
      omega⟩
    · rcases List.mem_append.mp he with he | he
      · exact (h.below e he).trans (Nat.lt_succ_self n)
      · rcases List.mem_append.mp he with he | he
        · obtain ⟨q,hq,rfl⟩ := List.mem_map.mp he
          exact (mem_leadWindow hq).2.1.trans (Nat.lt_succ_self n)
        · rw [List.mem_singleton.mp he]
          exact Nat.lt_succ_self n
    · refine List.pairwise_append.mpr ⟨h.ascend,List.pairwise_append.mpr ⟨?_,by simp,?_⟩,?_⟩
      · rw [List.pairwise_map]
        exact leadWindow_ascend _ _ _
      · intro e he e' he'
        obtain ⟨q,hq,rfl⟩ := List.mem_map.mp he
        rw [List.mem_singleton.mp he']
        exact (mem_leadWindow hq).2.1
      · intro e he e' he'
        have hle := hlast.2 e he
        rcases List.mem_append.mp he' with he' | he'
        · obtain ⟨q,hq,rfl⟩ := List.mem_map.mp he'
          have := (mem_leadWindow hq).1
          simp only
          omega
        · rw [List.mem_singleton.mp he']
          exact h.below e he
  split
  · rename_i hopen
    refine ⟨?_,fun e he => ?_,?_,fun h₁ h₂ q h₃ h₄ => by
      simp only at h₃
      omega⟩
    · have hm : lastMatchRow out=st.lastMatch := by rw [← h.state]; rfl
      rw [readBack_context h.below,hm,h.state,if_pos hopen.1]
    · rcases List.mem_append.mp he with he | he
      · exact (h.below e he).trans (Nat.lt_succ_self n)
      · rw [List.mem_singleton.mp he]
        exact Nat.lt_succ_self n
    · refine List.pairwise_append.mpr ⟨h.ascend,by simp,fun e he e' he' => ?_⟩
      rw [List.mem_singleton.mp he']
      exact h.below e he
  · rename_i hclosed
    refine ⟨by simpa using h.state,fun e he => ?_,by simpa using h.ascend,fun h₁ h₂ => absurd ⟨h₁,h₂⟩ hclosed⟩
    rw [List.append_nil] at he
    exact (h.below e he).trans (Nat.lt_succ_self n)

/-- The pass over the first `n` rows. -/
def pass (inBound isMatch : ℕ→Bool) (before after n : ℕ) : ContextState×List Emitted :=
  emitWithContext 0 n before after .initial inBound isMatch

theorem pass_add {c n : ℕ} (h : c≤n) : pass inBound isMatch before after n=
    ((emitRows inBound isMatch before after (pass inBound isMatch before after c).1 (List.range' c (n-c))).1,
      (pass inBound isMatch before after c).2++
        (emitRows inBound isMatch before after (pass inBound isMatch before after c).1
          (List.range' c (n-c))).2) := by
  have hrange : List.range' 0 (n-0)=List.range' 0 (c-0)++List.range' c (n-c) := by
    have happ := List.range'_append_1 (s:=0) (m:=c) (n:=n-c)
    rw [Nat.zero_add,Nat.add_sub_cancel' h] at happ
    exact happ.symm
  rw [pass,emitWithContext,hrange,emitRows_append]
  rfl

theorem pass_passed (n : ℕ) : Passed inBound after n (pass inBound isMatch before after n).1
    (pass inBound isMatch before after n).2 := by
  induction n with
  | zero => exact passed_initial
  | succ n ih =>
    have hs := @passed_step inBound isMatch before after _ _ _ ih
    rw [pass_add (Nat.le_succ n),show n+1-n=1 by omega]
    simpa [emitRows] using hs

/-! Taken up again. -/

/-- Two states with no trailing window open emit alike from row `r` on, but for the leading
rows under `c`: the one that has emitted those only lacks them. -/
theorem emitRows_lead {st st' : ContextState} {c r k x : ℕ} (hc : c≤r) (hst : st.lastEmitted<r)
    (hclosed : ¬(st.lastMatch≥0 ∧ st.sinceMatch<after)) (hclosed' : ¬(st'.lastMatch≥0 ∧ st'.sinceMatch<after))
    (hx : (((emitRows inBound isMatch before after st (List.range' r k)).2.filter
      (·.1<c)).map Prod.fst).getLast?=some x) (hst' : st'.lastEmitted=x) :
    emitRows inBound isMatch before after st (List.range' r k)=
      ((emitRows inBound isMatch before after st' (List.range' r k)).1,
        (emitRows inBound isMatch before after st (List.range' r k)).2.filter (·.1<c)++
          (emitRows inBound isMatch before after st' (List.range' r k)).2) := by
  induction k generalizing r with
  | zero => simp [emitRows] at hx
  | succ k ih =>
    rw [List.range'_succ] at hx ⊢
    simp only [emitRows] at hx ⊢
    by_cases hin : inBound r=true
    · by_cases hm : isMatch r=true
      · -- The match: its window holds all the rows under `c` there are.
        have hrow (s : ContextState) : emitRow inBound isMatch before after s r=
            (⟨r,r,0⟩,(leadWindow inBound s.lastEmitted before r).map (fun q => (q,true))++[(r,false)]) := by
          simp [emitRow,hin,hm]
        simp only [hrow] at hx ⊢
        have hrest : (emitRows inBound isMatch before after ⟨r,r,0⟩ (List.range' (r+1) k)).2.filter (·.1<c)=[] := by
          refine List.filter_eq_nil_iff.mpr fun e he => ?_
          have := (mem_emitRows (fun q hq => by have := (List.mem_range'_1.mp hq).1; simp only; omega)
            List.pairwise_lt_range' he).1
          simp only [decide_eq_true_eq]
          simp only at this
          omega
        have hself : [(r,false)].filter (fun e : Emitted => decide (e.1<c))=[] := by simp [hc]
        have hfilter : ((leadWindow inBound st.lastEmitted before r).map (fun q => ((q,true) : Emitted))).filter
            (fun e => decide (e.1<c))=((leadWindow inBound st.lastEmitted before r).filter (·<c)).map
              (fun q => (q,true)) := by
          rw [List.filter_map]
          rfl
        rw [List.filter_append,List.filter_append,hrest,hself,List.append_nil,List.append_nil,hfilter] at hx ⊢
        have hsplit := @leadWindow_split inBound before st.lastEmitted _ _ x hc (by
          rw [List.map_map] at hx
          simpa [Function.comp_def] using hx)
        rw [hst']
        conv_lhs => rw [hsplit]
        simp
      · have hrow : emitRow inBound isMatch before after st r=(st,[]) := by
          simp only [emitRow,hin,hm]
          simp only [Bool.not_true,Bool.false_eq_true,if_false]
          rw [if_neg hclosed]
        have hrow' : emitRow inBound isMatch before after st' r=(st',[]) := by
          simp only [emitRow,hin,hm]
          simp only [Bool.not_true,Bool.false_eq_true,if_false]
          rw [if_neg hclosed']
        rw [hrow] at hx ⊢
        rw [hrow']
        exact ih (by omega) (by omega) hx
    · have hrow (s : ContextState) : emitRow inBound isMatch before after s r=(s,[]) := by simp [emitRow,hin]
      rw [hrow] at hx ⊢
      rw [hrow]
      exact ih (by omega) (by omega) hx

/-- Leading rows behind what has been emitted leave its last match and do not open its window. -/
theorem readBack_append_context {out rows : List Emitted} (hctx : ∀e∈rows,e.2=true)
    (hasc : (out++rows).Pairwise (fun e e' => e.1<e'.1)) :
    (readBack (out++rows)).lastMatch=(readBack out).lastMatch ∧
      (0≤(readBack out).lastMatch→(readBack out).sinceMatch≤(readBack (out++rows)).sinceMatch) := by
  induction rows using List.reverseRecOn with
  | nil => simp
  | append_singleton rows l ih =>
    have hl : l=(l.1,true) := Prod.ext rfl (hctx l (by simp))
    rw [← List.append_assoc] at hasc ⊢
    have hbelow : ∀e∈out++rows,e.1<l.1 := fun e he => (List.pairwise_append.mp hasc).2.2 e he l (by simp)
    obtain ⟨ih₁,ih₂⟩ := ih (fun e he => hctx e (by simp [he])) (List.pairwise_append.mp hasc).1
    rw [hl,readBack_context hbelow]
    refine ⟨ih₁,fun hnn => ?_⟩
    have hm : lastMatchRow (out++rows)=(readBack out).lastMatch := ih₁
    dsimp only
    rw [hm,if_pos hnn]
    exact (ih₂ hnn).trans (Nat.le_succ _)

/-- Rows from `c` on taken back from what a pass had emitted, and emitted again: the pass goes on. -/
theorem pass_resume {c b n : ℕ} (hcb : c≤b) (hbn : b≤n) :
    (pass inBound isMatch before after b).2.filter (·.1<c)++
      (emitWithContext c n before after (readBack ((pass inBound isMatch before after b).2.filter (·.1<c)))
        inBound isMatch).2=(pass inBound isMatch before after n).2 := by
  have hc := @pass_passed inBound isMatch before after c
  have hkept : (pass inBound isMatch before after c).2.filter (·.1<c)=(pass inBound isMatch before after c).2 :=
    List.filter_eq_self.mpr fun e he => by simpa using hc.below e he
  have hrows : ∀r∈List.range' c (b-c),(pass inBound isMatch before after c).1.lastEmitted<r := fun r hr => by
    have := (List.mem_range'_1.mp hr).1
    have := hc.lastEmitted.1
    omega
  have hb := @pass_add inBound isMatch before after _ _ hcb
  have hbout := congrArg Prod.snd hb
  have hn := congrArg Prod.snd (@pass_add inBound isMatch before after _ _ (hcb.trans hbn))
  simp only at hbout hn
  rw [hbout,List.filter_append,hkept,hn]
  obtain ⟨X,hX⟩ : ∃X,X=emitRows inBound isMatch before after (pass inBound isMatch before after c).1
    (List.range' c (b-c)) := ⟨_,rfl⟩
  rw [← hX]
  by_cases hL : X.2.filter (·.1<c)=[]
  · rw [hL,List.append_nil,hc.state]
    rfl
  · obtain ⟨es,l,hes⟩ := (List.eq_nil_or_concat' _).resolve_left hL
    have hlX : l∈X.2 ∧ l.1<c := by
      have hm : l∈X.2.filter (·.1<c) := by simp [hes]
      simpa using List.mem_filter.mp hm
    -- A row under `c` that had not been emitted: no window was open there.
    have hclosed : ¬((pass inBound isMatch before after c).1.lastMatch≥0 ∧
        (pass inBound isMatch before after c).1.sinceMatch<after) := by
      rintro ⟨h₁,h₂⟩
      obtain ⟨h₃,h₄,-⟩ := mem_emitRows hrows List.pairwise_lt_range' (hX ▸ hlX.1)
      rw [hc.opened h₁ h₂ l.1 h₃ hlX.2] at h₄
      cases h₄
    have hctx : ∀e∈X.2.filter (·.1<c),e.2=true := by
      intro e he
      obtain ⟨he,hlt⟩ := List.mem_filter.mp he
      rcases (mem_emitRows hrows List.pairwise_lt_range' (hX ▸ he)).2.2.2.1 with hr | ht
      · have := (List.mem_range'_1.mp hr).1
        simp only [decide_eq_true_eq] at hlt
        omega
      · exact ht
    have hasc : ((pass inBound isMatch before after c).2++X.2.filter (·.1<c)).Pairwise (fun e e' => e.1<e'.1) := by
      have hp := (@pass_passed inBound isMatch before after b).ascend
      rw [hbout,← hX] at hp
      exact hp.sublist (List.filter_sublist.append_left _)
    obtain ⟨hlm,hsm⟩ := readBack_append_context hctx hasc
    rw [hc.state] at hlm hsm
    have hclosed' : ¬((readBack ((pass inBound isMatch before after c).2++X.2.filter (·.1<c))).lastMatch≥0 ∧
        (readBack ((pass inBound isMatch before after c).2++X.2.filter (·.1<c))).sinceMatch<after) := by
      rw [hlm]
      exact fun ⟨h₁,h₂⟩ => hclosed ⟨h₁,(hsm h₁).trans_lt h₂⟩
    have hlast : (readBack ((pass inBound isMatch before after c).2++X.2.filter (·.1<c))).lastEmitted=l.1 := by
      simp [readBack,lastRow,hes]
    have hlead := @emitRows_lead _ _ _ _ (pass inBound isMatch before after c).1 _ _ _ (b-c) l.1 le_rfl
      hc.lastEmitted.1 hclosed hclosed' (by rw [← hX,hes]; simp) hlast
    have hrange : List.range' c (n-c)=List.range' c (b-c)++List.range' b (n-b) := by
      have happ := List.range'_append_1 (s:=c) (m:=b-c) (n:=n-b)
      rw [show c+(b-c)=b by omega,show b-c+(n-b)=n-c by omega] at happ
      exact happ.symm
    rw [emitWithContext,hrange,emitRows_append,emitRows_append,← hX]
    rw [← hX] at hlead
    have h₁ := congrArg Prod.fst hlead
    have h₂ := congrArg Prod.snd hlead
    simp only at h₁ h₂
    rw [← h₁]
    conv_rhs => rw [h₂]
    simp only [List.append_assoc]

private theorem leadWindow_congr {inBound' : ℕ→Bool} {r : ℕ} (h : ∀q<r,inBound' q=inBound q) (before : ℕ) (e : ℤ) :
    leadWindow inBound' e before r=leadWindow inBound e before r := by
  induction r generalizing before with
  | zero => cases before <;> rfl
  | succ p ih =>
    have hp : ∀q<p,inBound' q=inBound q := fun q hq => h q (hq.trans (Nat.lt_succ_self p))
    rw [leadWindow,leadWindow,h p (Nat.lt_succ_self p),ih hp,ih hp]

/-- A pass sees its rows alone. -/
theorem pass_congr {inBound' isMatch' : ℕ→Bool} {n : ℕ} (hin : ∀q<n,inBound' q=inBound q)
    (hm : ∀q<n,isMatch' q=isMatch q) :
    pass inBound' isMatch' before after n=pass inBound isMatch before after n := by
  have hrows : ∀(rows : List ℕ) (st : ContextState),(∀r∈rows,r<n)→
      emitRows inBound' isMatch' before after st rows=emitRows inBound isMatch before after st rows := by
    intro rows
    induction rows with
    | nil => intro st _; rfl
    | cons r rs ih =>
      intro st hr
      have hlt := hr r (by simp)
      have hlead := leadWindow_congr (fun q hq => hin q (hq.trans hlt)) before st.lastEmitted
      have hrow : emitRow inBound' isMatch' before after st r=emitRow inBound isMatch before after st r := by
        simp only [emitRow,hin r hlt,hm r hlt,hlead]
      rw [emitRows,emitRows,hrow,ih _ fun q hq => hr q (by simp [hq])]
  exact hrows _ _ fun r hr => by
    have := (List.mem_range'_1.mp hr).2
    omega

end Emission

end ContextEmitter
end Loftail
