import Mathlib.Data.List.Chain
import Mathlib.Logic.Relation

/-! # Programs that read a state others go on changing

Each read sees the state as it is at that moment; between two reads the others may have done
anything the relation `later` allows. A run tells the states read, in order, and the answer. -/
namespace Loftail

/-- A program over reads of a shared state. -/
inductive Reads (σ : Type) (α : Type) : Type
  | pure (a : α)
  | read (k : σ→Reads σ α)

namespace Reads
variable {σ α β : Type}

def bind : Reads σ α→(α→Reads σ β)→Reads σ β
  | .pure a,f => f a
  | .read k,f => .read fun s => (k s).bind f

instance : Monad (Reads σ) where
  pure := .pure
  bind := bind

/-- One look at the state. -/
def look (f : σ→α) : Reads σ α := .read fun s => .pure (f s)

/-- A run from the state `s` to the state `t`: the states read and the answer. -/
def Runs (later : σ→σ→Prop) : Reads σ α→σ→List σ→α→σ→Prop
  | .pure a,s,seen,b,t => seen=[] ∧ a=b ∧ later s t
  | .read k,s,seen,b,t => ∃s' seen',later s s' ∧ seen=s'::seen' ∧ (k s').Runs later s' seen' b t

@[simp] theorem pure_eq (a : α) : (Pure.pure a : Reads σ α)=.pure a := rfl

@[simp] theorem bind_eq (p : Reads σ α) (f : α→Reads σ β) : p >>= f=p.bind f := rfl

@[simp] theorem pure_bind (a : α) (f : α→Reads σ β) : (Reads.pure a).bind f=f a := rfl

section Runs
variable {later : σ→σ→Prop} {s t : σ} {seen : List σ}

theorem runs_look {f : σ→α} {b : α} (h : (look f).Runs later s seen b t) :
    ∃s',later s s' ∧ seen=[s'] ∧ b=f s' ∧ later s' t := by
  obtain ⟨s',seen',hs,hseen,rfl,hb,ht⟩ := h
  exact ⟨s',hs,hseen,hb.symm,ht⟩

/-- A sequence of two runs one and then the other. -/
theorem runs_bind (htrans : ∀a b c : σ,later a b→later b c→later a c) (hrefl : ∀a : σ,later a a) {p : Reads σ α}
    {f : α→Reads σ β} {b : β} :
    (p.bind f).Runs later s seen b t↔
      ∃a m seen₁ seen₂,p.Runs later s seen₁ a m ∧ (f a).Runs later m seen₂ b t ∧ seen=seen₁++seen₂ := by
  induction p generalizing s seen with
  | pure a =>
    constructor
    · intro h
      exact ⟨a,s,[],seen,⟨rfl,rfl,hrefl s⟩,h,rfl⟩
    · rintro ⟨a',m,seen₁,seen₂,⟨rfl,rfl,hm⟩,h,rfl⟩
      cases hp : f a with
      | pure b' =>
        rw [hp] at h
        obtain ⟨hseen,hb,ht⟩ := h
        rw [bind,hp]
        exact ⟨hseen,hb,htrans _ _ _ hm ht⟩
      | read k =>
        rw [hp] at h
        obtain ⟨s',seen',hs,hseen,hk⟩ := h
        rw [bind,hp]
        exact ⟨s',seen',htrans _ _ _ hm hs,hseen,hk⟩
  | read k ih =>
    constructor
    · rintro ⟨s',seen',hs,rfl,h⟩
      obtain ⟨a,m,seen₁,seen₂,ha,hb,rfl⟩ := (ih s').mp h
      exact ⟨a,m,s'::seen₁,seen₂,⟨s',seen₁,hs,rfl,ha⟩,hb,rfl⟩
    · rintro ⟨a,m,seen₁,seen₂,⟨s',seen',hs,rfl,ha⟩,hb,rfl⟩
      exact ⟨s',seen'++seen₂,hs,rfl,(ih s').mpr ⟨a,m,seen',seen₂,ha,hb,rfl⟩⟩

/-- A run leads to a later state. -/
theorem Runs.onward (htrans : ∀a b c : σ,later a b→later b c→later a c) {p : Reads σ α} {b : α}
    (h : p.Runs later s seen b t) : later s t := by
  induction p generalizing s seen with
  | pure a => exact h.2.2
  | read k ih =>
    obtain ⟨s',seen',hs,-,hk⟩ := h
    exact htrans _ _ _ hs (ih s' hk)

/-- Every state read is later than the start and earlier than the end. -/
theorem Runs.between (htrans : ∀a b c : σ,later a b→later b c→later a c) {p : Reads σ α} {b : α}
    (h : p.Runs later s seen b t) {s' : σ} (hs : s'∈seen) : later s s' ∧ later s' t := by
  induction p generalizing s seen with
  | pure a =>
    obtain ⟨rfl,-,-⟩ := h
    cases hs
  | read k ih =>
    obtain ⟨m,seen',hm,rfl,hk⟩ := h
    rcases List.mem_cons.mp hs with rfl | hs
    · exact ⟨hm,hk.onward htrans⟩
    · obtain ⟨h₁,h₂⟩ := ih m hk hs
      exact ⟨htrans _ _ _ hm h₁,h₂⟩

/-- The others may go on after the last read. -/
theorem Runs.extend (htrans : ∀a b c : σ,later a b→later b c→later a c) {p : Reads σ α} {b : α} {u : σ}
    (h : p.Runs later s seen b t) (hu : later t u) : p.Runs later s seen b u := by
  induction p generalizing s seen with
  | pure a => exact ⟨h.1,h.2.1,htrans _ _ _ h.2.2 hu⟩
  | read k ih =>
    obtain ⟨m,seen',hm,rfl,hk⟩ := h
    exact ⟨m,seen',hm,rfl,ih m hk⟩

/-- What is done with the answer takes no further look. -/
theorem runs_map (htrans : ∀a b c : σ,later a b→later b c→later a c) (hrefl : ∀a : σ,later a a) {p : Reads σ α}
    {f : α→β} {b : β} (h : (p.bind fun a => .pure (f a)).Runs later s seen b t) :
    ∃a,p.Runs later s seen a t ∧ b=f a := by
  obtain ⟨a,m,seen₁,seen₂,ha,⟨rfl,rfl,hmt⟩,rfl⟩ := (runs_bind htrans hrefl).mp h
  rw [List.append_nil]
  exact ⟨a,ha.extend htrans hmt,rfl⟩

theorem Runs.mono {later' : σ→σ→Prop} (hle : ∀a b,later a b→later' a b) {p : Reads σ α} {b : α}
    (h : p.Runs later s seen b t) : p.Runs later' s seen b t := by
  induction p generalizing s seen with
  | pure a => exact ⟨h.1,h.2.1,hle _ _ h.2.2⟩
  | read k ih =>
    obtain ⟨m,seen',hm,rfl,hk⟩ := h
    exact ⟨m,seen',hle _ _ hm,rfl,ih m hk⟩

end Runs

/-- The answer to given states, read one after another. -/
def answer : Reads σ α→List σ→Option α
  | .pure a,[] => some a
  | .pure _,_::_ => none
  | .read _,[] => none
  | .read k,s::seen => (k s).answer seen

/-- States that follow one another give a run. -/
theorem runs_of_answer {later : σ→σ→Prop} (hrefl : ∀a : σ,later a a) {p : Reads σ α} {seen : List σ} {b : α}
    (h : p.answer seen=some b) {s : σ} (hs : List.IsChain later (s::seen)) :
    p.Runs later s seen b ((s::seen).getLast (by simp)) := by
  induction p generalizing s seen with
  | pure a =>
    cases seen with
    | nil =>
      obtain rfl := Option.some_inj.mp h
      exact ⟨rfl,rfl,hrefl s⟩
    | cons x xs => cases h
  | read k ih =>
    cases seen with
    | nil => cases h
    | cons x xs =>
      obtain ⟨hx,hxs⟩ := List.isChain_cons_cons.mp hs
      rw [List.getLast_cons (by simp)]
      exact ⟨x,xs,hx,rfl,ih x h hxs⟩

end Reads

end Loftail
