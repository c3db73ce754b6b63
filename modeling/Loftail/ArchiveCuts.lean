import Loftail.RemoteRoundTrip

/-! # Where an address is cut into a container and a member -/
namespace Loftail
open QString RemoteLocation ArchiveLocation

section Components
variable {a b s t u w : Text} {c : UInt16} {k n : ℕ}

theorem lastComponent_slash (h : slash∉b) : lastComponent (a++slash::b)=b := by
  rw [lastComponent,lastIndexOf_append h]
  simp only
  rw [← List.drop_drop,List.drop_left]
  rfl

theorem lastComponent_plain (h : slash∉b) : lastComponent b=b := by rw [lastComponent,lastIndexOf_none h]

/-- A path is its last component, or ends in it after a separator. -/
theorem lastComponent_cases (s : Text) : slash∉s ∨ ∃a b,s=a++slash::b ∧ slash∉b := by
  induction s with
  | nil => exact .inl (by simp)
  | cons c s ih =>
    rcases ih with h|⟨a,b,rfl,h⟩
    · by_cases hc : c=slash
      · exact .inr ⟨[],s,by rw [hc]; rfl,h⟩
      · exact .inl (by simp [h,Ne.symm hc])
    · exact .inr ⟨c::a,b,rfl,h⟩

theorem lastComponent_after (h : [slash] <+: s) : lastComponent (a++s)=lastComponent s := by
  obtain ⟨t,rfl⟩ := h
  rcases lastComponent_cases t with ht|⟨x,y,rfl,hy⟩
  · have hone := lastComponent_slash (a:=[]) ht
    rw [List.singleton_append,lastComponent_slash ht]
    exact hone.symm
  · have hone := lastComponent_slash (a:=slash::x) hy
    have htwo := lastComponent_slash (a:=a++slash::x) hy
    rw [List.append_assoc] at htwo
    exact htwo.trans hone.symm

theorem lastComponent_step (h : c≠slash) : lastComponent (w++[c])=lastComponent w++[c] := by
  have hone : ∀{b : Text},slash∉b → slash∉b++[c] := fun {b} hb => by simp [hb,Ne.symm h]
  rcases lastComponent_cases w with hp|⟨a,b,rfl,hb⟩
  · rw [lastComponent_plain hp,lastComponent_plain (hone hp)]
  · rw [lastComponent_slash hb,List.append_assoc,List.cons_append,lastComponent_slash (hone hb)]

theorem lastComponent_separator : lastComponent (w++[slash])=[] := lastComponent_slash (by simp)

/-- A cut is made after a component with an archive extension, and again at the end of what it leaves. -/
theorem archiveCutFrom_cut (h : archiveCutFrom w.length (lastComponent w) t=some k) :
    ∃a r,t=a++r ∧ k=(w++a).length ∧ (r=[] ∨ [slash] <+: r) ∧ isArchiveComponent (lastComponent (w++a)) ∧
      archiveCutFrom w.length (lastComponent w) a=some k := by
  induction t generalizing w with
  | nil =>
    obtain ⟨hcomp,rfl⟩ : isArchiveComponent (lastComponent w) ∧ w.length=k := by simpa [archiveCutFrom] using h
    exact ⟨[],[],rfl,by simp,.inl rfl,by simpa using hcomp,by simp [archiveCutFrom,hcomp]⟩
  | cons c t ih =>
    by_cases hc : c=slash
    · subst hc
      by_cases hcomp : isArchiveComponent (lastComponent w)
      · obtain rfl : w.length=k := by simpa [archiveCutFrom,hcomp] using h
        exact ⟨[],slash::t,rfl,by simp,.inr ⟨t,rfl⟩,by simpa using hcomp,by simp [archiveCutFrom,hcomp]⟩
      · have hnext : archiveCutFrom (w++[slash]).length (lastComponent (w++[slash])) t=some k := by
          rw [lastComponent_separator]
          simpa [archiveCutFrom,hcomp] using h
        obtain ⟨a,r,rfl,hk,hr,harchive,hagain⟩ := ih hnext
        refine ⟨slash::a,r,rfl,by simp at hk ⊢; omega,hr,by simpa using harchive,?_⟩
        rw [lastComponent_separator] at hagain
        simpa [archiveCutFrom,hcomp] using hagain
    · have hnext : archiveCutFrom (w++[c]).length (lastComponent (w++[c])) t=some k := by
        rw [lastComponent_step hc]
        simpa [archiveCutFrom,hc] using h
      obtain ⟨a,r,rfl,hk,hr,harchive,hagain⟩ := ih hnext
      refine ⟨c::a,r,rfl,by simp at hk ⊢; omega,hr,by simpa using harchive,?_⟩
      rw [lastComponent_step hc] at hagain
      simpa [archiveCutFrom,hc] using hagain

/-- A path that ends in an archive extension is cut there or before, whatever follows. -/
theorem archiveCutFrom_le (h : isArchiveComponent (lastComponent (w++b))) (ht : t=[] ∨ [slash] <+: t) :
    ∃k,archiveCutFrom w.length (lastComponent w) (b++t)=some k ∧ k≤(w++b).length := by
  induction b generalizing w with
  | nil =>
    rw [List.append_nil] at h
    refine ⟨w.length,?_,by simp⟩
    rcases ht with rfl|⟨t,rfl⟩ <;> simp [archiveCutFrom,h]
  | cons c b ih =>
    have hnext : isArchiveComponent (lastComponent (w++[c]++b)) := by simpa using h
    by_cases hc : c=slash
    · subst hc
      by_cases hcomp : isArchiveComponent (lastComponent w)
      · exact ⟨w.length,by simp [archiveCutFrom,hcomp],by simp⟩
      · obtain ⟨k,hk,hle⟩ := ih hnext
        rw [lastComponent_separator] at hk
        refine ⟨k,?_,by simpa [Nat.add_comm,Nat.add_left_comm] using hle⟩
        simpa [archiveCutFrom,hcomp] using hk
    · obtain ⟨k,hk,hle⟩ := ih hnext
      rw [lastComponent_step hc] at hk
      refine ⟨k,?_,by simpa [Nat.add_comm,Nat.add_left_comm] using hle⟩
      simpa [archiveCutFrom,hc] using hk

theorem archiveCut_cut (h : archiveCut s=some k) :
    ∃a r,s=a++r ∧ a.length=k ∧ (r=[] ∨ [slash] <+: r) ∧ isArchiveComponent (lastComponent a) ∧
    archiveCut a=some k := by
  obtain ⟨a,r,rfl,hk,hr,harchive,hagain⟩ := archiveCutFrom_cut (w:=[]) h
  exact ⟨a,r,rfl,by simpa using hk.symm,hr,by simpa using harchive,hagain⟩

theorem archiveCut_le (h : isArchiveComponent (lastComponent b)) (ht : t=[] ∨ [slash] <+: t) :
    ∃k,archiveCut (b++t)=some k ∧ k≤b.length := archiveCutFrom_le (w:=[]) h ht

private theorem archiveCutFrom_shift (m : ℕ) : archiveCutFrom (n+m) u t=(archiveCutFrom n u t).map (·+m) := by
  induction t generalizing n u with
  | nil =>
    simp only [archiveCutFrom]
    split <;> rfl
  | cons c t ih =>
    simp only [archiveCutFrom]
    split_ifs
    · rfl
    · rw [Nat.add_right_comm]
      exact ih
    · rw [Nat.add_right_comm]
      exact ih

private theorem archiveCutFrom_component (h : slash∉b) :
    archiveCutFrom n u (b++slash::t)=
      if isArchiveComponent (u++b) then some (n+b.length) else archiveCutFrom (n+b.length+1) [] t := by
  induction b generalizing n u with
  | nil => simp [archiveCutFrom]
  | cons c b ih =>
    rw [List.mem_cons,not_or] at h
    rw [List.cons_append,archiveCutFrom,if_neg (Ne.symm h.1),ih h.2]
    simp [Nat.add_comm,Nat.add_left_comm]

/-- One component before a path takes the cut when it has an archive extension, else the path is cut where it
would be. -/
theorem archiveCut_component (h : slash∉b) :
    archiveCut (slash::(b++slash::t))=
      if isArchiveComponent b then some (b.length+1) else (archiveCut (slash::t)).map (·+(b.length+1)) := by
  have hempty : isArchiveComponent []=false := by decide
  have hstep : ∀t,archiveCut (slash::t)=archiveCutFrom 1 [] t := by
    intro t
    simp [archiveCut,archiveCutFrom,hempty]
  rw [hstep,hstep,archiveCutFrom_component h,List.nil_append,← archiveCutFrom_shift]
  simp only [Nat.add_comm,Nat.add_left_comm]

end Components
end Loftail
