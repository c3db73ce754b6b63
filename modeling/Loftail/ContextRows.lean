import Loftail.ContextResume

/-! # Which rows a context pass emits -/
namespace Loftail
namespace ContextEmitter

/-- The in-bound rows from `a` on and under `b`. -/
def inBoundRows (inBound : ℕ→Bool) (a b : ℕ) : ℕ := (List.range' a (b-a)).countP inBound

section Counting
variable {inBound isMatch : ℕ→Bool} {a b c r q : ℕ}

theorem inBoundRows_add (hab : a≤b) (hbc : b≤c) :
    inBoundRows inBound a c=inBoundRows inBound a b+inBoundRows inBound b c := by
  have hrange := List.range'_append_1 (s:=a) (m:=b-a) (n:=c-b)
  rw [Nat.add_sub_cancel' hab] at hrange
  have hsum : b-a+(c-b)=c-a := by omega
  rw [hsum] at hrange
  rw [inBoundRows,← hrange,List.countP_append]
  rfl

theorem inBoundRows_step (h : a≤b) : inBoundRows inBound a
    (b+1)=inBoundRows inBound a b+if inBound b then 1 else 0 := by
  rw [inBoundRows_add h (Nat.le_succ b)]
  congr 1
  have hone : b+1-b=1 := by omega
  rw [inBoundRows,hone]
  by_cases hb : inBound b <;> simp [hb]

theorem inBoundRows_mono (hab : a≤b) (hbc : b≤c) : inBoundRows inBound a b ≤ inBoundRows inBound a c ∧
    inBoundRows inBound b c ≤ inBoundRows inBound a c := by
  rw [inBoundRows_add hab hbc]
  omega

/-- The leading window is made of the in-bound rows that so many others lie at or past. -/
theorem mem_leadWindow_iff {e : ℤ} {before : ℕ} :
    q∈leadWindow inBound e before r↔e<q ∧ q<r ∧ inBound q ∧ inBoundRows inBound q r≤before := by
  induction r generalizing before with
  | zero => cases before <;> simp [leadWindow]
  | succ p ih =>
    rw [leadWindow]
    split
    case isTrue h =>
      split
      case isTrue hp =>
        rw [List.mem_append,ih,List.mem_singleton]
        constructor
        · rintro (⟨he,hq,hin,hcount⟩|rfl)
          · refine ⟨he,by omega,hin,?_⟩
            rw [inBoundRows_step (by omega),if_pos hp]
            omega
          · refine ⟨h.1,by omega,hp,?_⟩
            rw [inBoundRows_step le_rfl,if_pos hp]
            simp [inBoundRows]
            omega
        · rintro ⟨he,hq,hin,hcount⟩
          rcases Nat.lt_succ_iff_lt_or_eq.mp hq with hlt|rfl
          · rw [inBoundRows_step hlt.le,if_pos hp] at hcount
            exact .inl ⟨he,hlt,hin,by omega⟩
          · exact .inr rfl
      case isFalse hp =>
        rw [ih]
        constructor
        · rintro ⟨he,hq,hin,hcount⟩
          refine ⟨he,by omega,hin,?_⟩
          rwa [inBoundRows_step hq.le,if_neg hp,Nat.add_zero]
        · rintro ⟨he,hq,hin,hcount⟩
          rcases Nat.lt_succ_iff_lt_or_eq.mp hq with hlt|rfl
          · rw [inBoundRows_step hlt.le,if_neg hp,Nat.add_zero] at hcount
            exact ⟨he,hlt,hin,hcount⟩
          · exact absurd hin hp
    case isFalse h =>
      simp only [List.not_mem_nil,false_iff]
      rintro ⟨he,hq,hin,hcount⟩
      rcases Nat.eq_zero_or_pos before with rfl|hpos
      · have hone : inBoundRows inBound q (q+1)=1 := by
          rw [inBoundRows_step le_rfl,if_pos hin]
          simp [inBoundRows]
        have hle : inBoundRows inBound q (q+1) ≤ inBoundRows inBound q (p+1) :=
          (inBoundRows_mono (Nat.le_add_right q 1) (Nat.succ_le_of_lt hq)).1
        omega
      · exact h ⟨by omega,hpos⟩

/-- A row that matches, or that a match is near to: so many in-bound rows after it or before it. -/
def Near (inBound isMatch : ℕ→Bool) (before after n r : ℕ) : Prop :=
  ∃m<n,inBound m ∧ isMatch m ∧
    (m=r ∨ m<r ∧ inBoundRows inBound (m+1) (r+1)≤after ∨ r < m ∧ inBoundRows inBound r m≤before)

/-- The state and the rows of a pass, told from the rows alone. -/
structure Exact (inBound isMatch : ℕ→Bool) (before after n : ℕ) (st : ContextState)
    (out : List Emitted) : Prop where
  rows : ∀r c,(r,c)∈out↔r<n ∧ inBound r ∧ Near inBound isMatch before after n r ∧ c=!isMatch r
  noMatch : st.lastMatch < 0 → ∀m<n,inBound m → isMatch m=false
  lastMatch : ∀m : ℕ,st.lastMatch=m → m<n ∧ inBound m ∧ isMatch m ∧ (∀r,m<r → r<n → inBound r → isMatch r=false) ∧
    st.sinceMatch=min after (inBoundRows inBound (m+1) n) ∧
    m ≤ st.lastEmitted ∧ (∀r : ℕ,m<r → r ≤ st.lastEmitted → inBoundRows inBound (m+1) (r+1)≤after)
  lastEmitted : ∀r c,(r,c)∈out → (r : ℤ) ≤ st.lastEmitted
  unopened : st.lastMatch < 0 → st.lastEmitted=-1 ∧ st.lastMatch=-1

variable {before after n : ℕ} {st : ContextState} {out : List Emitted}

private theorem exact_initial : Exact inBound isMatch before after 0 .initial [] :=
  ⟨by simp,by simp,by simp [ContextState.initial],by simp,by simp [ContextState.initial]⟩

private theorem exact_skip (h : Exact inBound isMatch before after n st out) (hn : inBound n=false) :
    Exact inBound isMatch before after (n+1) st out := by
  have hnear : ∀r,Near inBound isMatch before after (n+1) r↔Near inBound isMatch before after n r := by
    intro r
    constructor
    · rintro ⟨m,hm,hin,hmatch,hdist⟩
      refine ⟨m,?_,hin,hmatch,hdist⟩
      rcases Nat.lt_succ_iff_lt_or_eq.mp hm with hlt|rfl
      · exact hlt
      · simp [hn] at hin
    · rintro ⟨m,hm,hrest⟩
      exact ⟨m,by omega,hrest⟩
  refine ⟨?_,?_,?_,h.lastEmitted,h.unopened⟩
  · intro r c
    rw [h.rows,hnear]
    constructor
    · rintro ⟨hr,hrest⟩
      exact ⟨by omega,hrest⟩
    · rintro ⟨hr,hin,hrest⟩
      refine ⟨?_,hin,hrest⟩
      rcases Nat.lt_succ_iff_lt_or_eq.mp hr with hlt|rfl
      · exact hlt
      · simp [hn] at hin
  · intro hlast m hm hin
    rcases Nat.lt_succ_iff_lt_or_eq.mp hm with hlt|rfl
    · exact h.noMatch hlast m hlt hin
    · simp [hn] at hin
  · intro m hm
    obtain ⟨hlt,hin,hmatch,hafter,hsince,hemitted⟩ := h.lastMatch m hm
    refine ⟨by omega,hin,hmatch,?_,?_,hemitted⟩
    · intro r hr hrn hrin
      rcases Nat.lt_succ_iff_lt_or_eq.mp hrn with hlt'|rfl
      · exact hafter r hr hlt' hrin
      · simp [hn] at hrin
    · rw [inBoundRows_step (by omega),hn]
      simpa using hsince

/-- Rows at or under the last one emitted that a later match is near to are emitted already. -/
theorem exact_covered (h : Exact inBound isMatch before after n st out) {r : ℕ} (hr : r<n) (hin : inBound r)
    (hle : (r : ℤ) ≤ st.lastEmitted) (hcount : inBoundRows inBound r n≤before) :
    Near inBound isMatch before after n r := by
  by_cases hlast : st.lastMatch < 0
  · have hnone := (h.unopened hlast).1
    omega
  · obtain ⟨m,hm⟩ := Int.eq_ofNat_of_zero_le (not_lt.mp hlast)
    obtain ⟨hlt,hinm,hmatch,-,-,-,htrail⟩ := h.lastMatch m hm
    refine ⟨m,hlt,hinm,hmatch,?_⟩
    rcases lt_trichotomy m r with hmr|rfl|hmr
    · exact .inr (.inl ⟨hmr,htrail r hmr hle⟩)
    · exact .inl rfl
    · exact .inr (.inr ⟨hmr,(inBoundRows_mono hmr.le hlt.le).1.trans hcount⟩)

theorem near_succ {r : ℕ} : Near inBound isMatch before after (n+1) r↔Near inBound isMatch before after n r ∨
    inBound n ∧ isMatch n ∧ (n=r ∨ n<r ∧ inBoundRows inBound (n+1) (r+1)≤after ∨ r<n ∧
      inBoundRows inBound r n≤before) := by
  constructor
  · rintro ⟨m,hm,hrest⟩
    rcases Nat.lt_succ_iff_lt_or_eq.mp hm with hlt|rfl
    · exact .inl ⟨m,hlt,hrest⟩
    · exact .inr hrest
  · rintro (⟨m,hm,hrest⟩|hrest)
    · exact ⟨m,by omega,hrest⟩
    · exact ⟨n,Nat.lt_succ_self n,hrest⟩

private theorem exact_match (h : Exact inBound isMatch before after n st out) (hn : inBound n)
    (hmatch : isMatch n) :
    Exact inBound isMatch before after (n+1) ⟨n,n,0⟩
      (out++((leadWindow inBound st.lastEmitted before n).map (fun q => (q,true))++[(n,false)])) := by
  have hself : ∀r,r<n → inBound r → isMatch r → (r : ℤ) ≤ st.lastEmitted := by
    intro r hr hin hm
    exact h.lastEmitted r false ((h.rows r false).mpr ⟨hr,hin,⟨r,hr,hin,hm,.inl rfl⟩,by simp [hm]⟩)
  refine ⟨?_,?_,?_,?_,?_⟩
  · intro r c
    simp only [List.mem_append,List.mem_map,Prod.mk.injEq,List.mem_singleton,mem_leadWindow_iff]
    constructor
    · rintro (hout|⟨q,⟨he,hq,hin,hcount⟩,rfl,rfl⟩|⟨rfl,rfl⟩)
      · obtain ⟨hr,hin,hnear,hc⟩ := (h.rows r c).mp hout
        exact ⟨by omega,hin,near_succ.mpr (.inl hnear),hc⟩
      · refine ⟨by omega,hin,near_succ.mpr (.inr ⟨hn,hmatch,.inr (.inr ⟨hq,hcount⟩)⟩),?_⟩
        cases hm : isMatch q with
        | false => rfl
        | true =>
          have hle := hself q hq hin hm
          omega
      · exact ⟨Nat.lt_succ_self r,hn,near_succ.mpr (.inr ⟨hn,hmatch,.inl rfl⟩),by simp [hmatch]⟩
    · rintro ⟨hr,hin,hnear,rfl⟩
      rcases Nat.lt_succ_iff_lt_or_eq.mp hr with hlt|rfl
      · rcases near_succ.mp hnear with hold|⟨-,-,hdist⟩
        · exact .inl ((h.rows r _).mpr ⟨hlt,hin,hold,rfl⟩)
        · have hcount : inBoundRows inBound r n≤before := by
            rcases hdist with hdist|hdist|hdist
            · omega
            · omega
            · exact hdist.2
          by_cases hle : (r : ℤ) ≤ st.lastEmitted
          · exact .inl ((h.rows r _).mpr ⟨hlt,hin,exact_covered h hlt hin hle hcount,rfl⟩)
          · refine .inr (.inl ⟨r,⟨by omega,hlt,hin,hcount⟩,rfl,?_⟩)
            cases hm : isMatch r with
            | false => rfl
            | true => exact absurd (hself r hlt hin hm) hle
      · exact .inr (.inr ⟨rfl,by simp [hmatch]⟩)
  · intro hneg
    simp only at hneg
    omega
  · intro m hm
    have hsame : (n : ℤ)=m := hm
    obtain rfl : n=m := by exact_mod_cast hsame
    refine ⟨Nat.lt_succ_self n,hn,hmatch,fun r hr hrn => by omega,by simp [inBoundRows],le_rfl,fun r hr hle => ?_⟩
    simp only at hle
    omega
  · intro r c hrc
    simp only [List.mem_append,List.mem_map,Prod.mk.injEq,List.mem_singleton,mem_leadWindow_iff] at hrc
    rcases hrc with hout|⟨q,⟨-,hq,-,-⟩,rfl,-⟩|⟨rfl,-⟩
    · have hlt := ((h.rows r c).mp hout).1
      simp only
      omega
    · simp only
      omega
    · exact le_rfl
  · intro hneg
    simp only at hneg
    omega

/-- Where the row at hand does not match, only its own nearness is new. -/
theorem near_plain (hmatch : isMatch n=false) {r : ℕ} :
    Near inBound isMatch before after (n+1) r↔Near inBound isMatch before after n r := by
  rw [near_succ]
  simp [hmatch]

private theorem exact_trail (h : Exact inBound isMatch before after n st out) (hn : inBound n)
    (hmatch : isMatch n=false) (hlast : 0 ≤ st.lastMatch) (hsince : st.sinceMatch<after) :
    Exact inBound isMatch before after (n+1) ⟨n,st.lastMatch,st.sinceMatch+1⟩ (out++[(n,true)]) := by
  obtain ⟨m,hm⟩ := Int.eq_ofNat_of_zero_le hlast
  obtain ⟨hlt,hin,hmm,hnone,hcount,-,-⟩ := h.lastMatch m hm
  have hstep : inBoundRows inBound (m+1) (n+1)=inBoundRows inBound (m+1) n+1 := by
    rw [inBoundRows_step (by omega),if_pos hn]
  refine ⟨?_,?_,?_,?_,?_⟩
  · intro r c
    simp only [List.mem_append,List.mem_singleton,Prod.mk.injEq]
    rw [near_plain hmatch,h.rows]
    constructor
    · rintro (⟨hr,hrest⟩|⟨rfl,rfl⟩)
      · exact ⟨by omega,hrest⟩
      · exact ⟨Nat.lt_succ_self r,hn,⟨m,hlt,hin,hmm,.inr (.inl ⟨hlt,by omega⟩)⟩,by simp [hmatch]⟩
    · rintro ⟨hr,hrin,hnear,rfl⟩
      rcases Nat.lt_succ_iff_lt_or_eq.mp hr with hrlt|rfl
      · exact .inl ⟨hrlt,hrin,hnear,rfl⟩
      · exact .inr ⟨rfl,by simp [hmatch]⟩
  · intro hneg
    simp only at hneg
    omega
  · intro m' hm'
    obtain rfl : m'=m := by
      simp only [hm] at hm'
      exact_mod_cast hm'.symm
    refine ⟨by omega,hin,hmm,?_,by simp only; omega,by simp only; omega,?_⟩
    · intro r hr hrn hrin
      rcases Nat.lt_succ_iff_lt_or_eq.mp hrn with hrlt|rfl
      · exact hnone r hr hrlt hrin
      · exact hmatch
    · intro r hr hle
      simp only [Nat.cast_le] at hle
      have hmono := (@inBoundRows_mono inBound (m'+1) (r+1) (n+1) (by omega) (by omega)).1
      omega
  · intro r c hrc
    simp only [List.mem_append,List.mem_singleton,Prod.mk.injEq] at hrc
    rcases hrc with hout|⟨rfl,-⟩
    · have hrlt := ((h.rows r c).mp hout).1
      simp only
      omega
    · exact le_rfl
  · intro hneg
    simp only at hneg
    omega

private theorem exact_plain (h : Exact inBound isMatch before after n st out) (hn : inBound n)
    (hmatch : isMatch n=false)
    (hclosed : ¬(0 ≤ st.lastMatch ∧ st.sinceMatch<after)) : Exact inBound isMatch before after (n+1) st out := by
  have hfar : ¬Near inBound isMatch before after n n := by
    rintro ⟨m,hm,hin,hmm,hdist⟩
    have hcount : inBoundRows inBound (m+1) (n+1)≤after := by
      rcases hdist with hdist|hdist|hdist
      · omega
      · exact hdist.2
      · omega
    by_cases hlast : st.lastMatch < 0
    · rw [h.noMatch hlast m hm hin] at hmm
      cases hmm
    · obtain ⟨m',hm'⟩ := Int.eq_ofNat_of_zero_le (not_lt.mp hlast)
      obtain ⟨hlt,-,-,hnone,hsince,-,-⟩ := h.lastMatch m' hm'
      have hle : m ≤ m' := by
        by_contra hgt
        rw [hnone m (by omega) hm hin] at hmm
        cases hmm
      have hmono := (@inBoundRows_mono inBound (m+1) (m'+1) (n+1) (by omega) (by omega)).2
      rw [inBoundRows_step (a:=m'+1) (by omega),if_pos hn] at hmono
      exact hclosed ⟨by omega,by omega⟩
  refine ⟨?_,?_,?_,h.lastEmitted,h.unopened⟩
  · intro r c
    rw [near_plain hmatch,h.rows]
    constructor
    · rintro ⟨hr,hrest⟩
      exact ⟨by omega,hrest⟩
    · rintro ⟨hr,hin,hnear,hc⟩
      rcases Nat.lt_succ_iff_lt_or_eq.mp hr with hlt|rfl
      · exact ⟨hlt,hin,hnear,hc⟩
      · exact absurd hnear hfar
  · intro hlast m hm hin
    rcases Nat.lt_succ_iff_lt_or_eq.mp hm with hlt|rfl
    · exact h.noMatch hlast m hlt hin
    · exact hmatch
  · intro m hm
    obtain ⟨hlt,hin,hmm,hnone,hsince,hemitted⟩ := h.lastMatch m hm
    refine ⟨by omega,hin,hmm,?_,?_,hemitted⟩
    · intro r hr hrn hrin
      rcases Nat.lt_succ_iff_lt_or_eq.mp hrn with hrlt|rfl
      · exact hnone r hr hrlt hrin
      · exact hmatch
    · have hfull : after ≤ st.sinceMatch := by
        by_contra hopen
        exact hclosed ⟨by omega,by omega⟩
      rw [inBoundRows_step (by omega),if_pos hn]
      omega

private theorem exact_step (h : Exact inBound isMatch before after n st out) :
    Exact inBound isMatch before after (n+1) (emitRow inBound isMatch before after st n).1
      (out++(emitRow inBound isMatch before after st n).2) := by
  unfold emitRow
  split
  case isTrue hn =>
    rw [List.append_nil]
    exact exact_skip h (by simpa using hn)
  case isFalse hn =>
    have hin : inBound n := by simpa using hn
    split
    case isTrue hm => exact exact_match h hin hm
    case isFalse hm =>
      have hplain : isMatch n=false := by simpa using hm
      split
      case isTrue hopen => exact exact_trail h hin hplain hopen.1 hopen.2
      case isFalse hclosed =>
        rw [List.append_nil]
        exact exact_plain h hin hplain hclosed

private theorem pass_exact (n : ℕ) : Exact inBound isMatch before after n (pass inBound isMatch before after n).1
    (pass inBound isMatch before after n).2 := by
  induction n with
  | zero => exact exact_initial
  | succ n ih =>
    have hone : List.range' n (n+1-n)=[n] := by simp
    rw [pass_add (Nat.le_succ n),hone]
    simpa [emitRows] using exact_step ih

/-- **A context pass is the in-bound stream with its windows**: the rows emitted are the in-bound rows that
match or that a match is near to, in ascending order, each once, context exactly where they do not match; and
the pass may be cut anywhere. -/
theorem context_rows (inBound isMatch : ℕ→Bool) (before after n : ℕ) :
    ((emitWithContext 0 n before after .initial inBound isMatch).2.map Prod.fst).Pairwise (·<·) ∧
    (∀r c,(r,c)∈(emitWithContext 0 n before after .initial inBound isMatch).2↔
      r<n ∧ inBound r ∧ Near inBound isMatch before after n r ∧ c=!isMatch r) ∧
    ∀k≤n,
      let first := emitWithContext 0 k before after .initial inBound isMatch
      let second := emitWithContext k n before after first.1 inBound isMatch
      emitWithContext 0 n before after .initial inBound isMatch=(second.1,first.2++second.2) := by
  refine ⟨?_,(pass_exact n).rows,fun k hk => pass_add hk⟩
  rw [List.pairwise_map]
  exact (pass_passed n).ascend

end Counting
end ContextEmitter
end Loftail
