import Mathlib.Data.Nat.Notation
import Mathlib.Logic.Function.Basic
import Loftail.Interleaving

/-! # The registry of live spools

Spools are acquired on one thread, their handles dropped on any. An entry is weak, and the
deleter that removes it runs after the count has reached zero. -/
namespace Loftail
open Interleaving

/-- A spool as its handles see it: `deleting` from the drop of the last one until the deleter
has been through the registry. -/
structure Spool (κ : Type*) where
  key : κ
  handles : ℕ
  deleting : Bool

/-- The spools made so far, the weak entries, and the acquires that have found no live spool
and are still at work, the innermost first. -/
structure SpoolRegistry (κ : Type*) where
  spools : List (Spool κ)
  entries : κ→Option ℕ
  acquiring : List κ

namespace SpoolRegistry
variable {κ : Type*} [DecidableEq κ]

/-- What threads do to the registry, one locked section or one count at a time. -/
inductive Action (κ : Type*)
  | acquire (key : κ)
  | failed
  | insert
  | copy (spool : ℕ)
  | drop (spool : ℕ)
  | forget (spool : ℕ)

def empty : SpoolRegistry κ := ⟨[],fun _ => none,[]⟩

def live (r : SpoolRegistry κ) (spool : ℕ) : Bool := r.spools[spool]?.any fun s => decide (0<s.handles)

/-- The live spool for `key`: what its weak entry locks to. -/
def find (r : SpoolRegistry κ) (key : κ) : Option ℕ := (r.entries key).filter r.live

def setSpool (r : SpoolRegistry κ) (i : ℕ) (s : Spool κ) : SpoolRegistry κ := {r with spools := r.spools.set i s}

/-- One step: `acquire` looks the key up, and goes on to make a spool when there is none (it
may acquire others on the way); `insert` publishes the innermost one's. -/
def step (r : SpoolRegistry κ) : Action κ→Option (SpoolRegistry κ)
  | .acquire key =>
    match r.find key with
    | some i => r.spools[i]?.map fun s => r.setSpool i {s with handles := s.handles+1}
    | none => some {r with acquiring := key::r.acquiring}
  | .failed => if r.acquiring=[] then none else some {r with acquiring := r.acquiring.tail}
  | .insert =>
    match r.acquiring with
    | [] => none
    | key::outer => some ⟨r.spools++[⟨key,1,false⟩],Function.update r.entries key (some r.spools.length),outer⟩
  | .copy i =>
    match r.spools[i]? with
    | some s => if 0<s.handles then some (r.setSpool i {s with handles := s.handles+1}) else none
    | none => none
  | .drop i =>
    match r.spools[i]? with
    | some s =>
      if 0<s.handles then some (r.setSpool i
        {s with handles := s.handles-1,deleting := decide (s.handles=1)}) else none
    | none => none
  | .forget i =>
    match r.spools[i]? with
    | some s =>
      if s.deleting then
        some {r.setSpool i {s with deleting := false} with entries := Function.update r.entries s.key none}
      else none
    | none => none

/-- No acquire is nested in one of the same key, and none publishes its spool while the deleter
of an earlier one for the key has still to go through the registry. -/
def Settled (r : SpoolRegistry κ) : Action κ→Prop
  | .acquire key => key∉r.acquiring
  | .insert => ∀key∈r.acquiring.head?,∀s∈r.spools,s.key=key→s.deleting=false
  | _ => True

instance (r : SpoolRegistry κ) (a : Action κ) : Decidable (r.Settled a) := by
  cases a <;> unfold Settled <;> infer_instance

/-- A spool that is live, or whose deleter has yet to go through the registry, has its key's
entry, and no acquire is at work on its key while it is live. -/
structure Registered (r : SpoolRegistry κ) : Prop where
  entry : ∀(i : ℕ) (s : Spool κ),r.spools[i]?=some s→0<s.handles ∨ s.deleting=true → r.entries s.key=some i
  known : ∀(key : κ) (i : ℕ),r.entries key=some i→∃s,r.spools[i]?=some s ∧ s.key=key
  one : ∀(i : ℕ) (s : Spool κ),r.spools[i]?=some s→0<s.handles→s.deleting=false
  acquiring : ∀key∈r.acquiring,r.find key=none
  nodup : r.acquiring.Nodup

variable {r r' : SpoolRegistry κ}

omit [DecidableEq κ] in
theorem find_live {i : ℕ} {s : Spool κ} (hs : r.spools[i]?=some s) (he : r.entries s.key=some i)
    (hl : 0<s.handles) :
    r.find s.key=some i := by
  simp [find,he,live,hs,hl]

omit [DecidableEq κ] in
theorem find_eq_some {key : κ} {i : ℕ} (h : r.find key=some i) :
    r.entries key=some i ∧ ∃s,r.spools[i]?=some s ∧ 0<s.handles := by
  rw [find,Option.filter_eq_some_iff] at h
  refine ⟨h.1,?_⟩
  cases hs : r.spools[i]? with
  | none => simp [live,hs] at h
  | some s => exact ⟨s,rfl,by simpa [live,hs] using h.2⟩

omit [DecidableEq κ] in
theorem setSpool_getElem? {i : ℕ} {s : Spool κ} (hs : r.spools[i]?=some s) (s' : Spool κ) (j : ℕ) :
    (r.setSpool i s').spools[j]?=if i=j then some s' else r.spools[j]? := by
  have hlt := (List.getElem?_eq_some_iff.mp hs).1
  simp only [setSpool,List.getElem?_set]
  split <;> simp_all

omit [DecidableEq κ] in
/-- A spool changed in place, its key kept, its entry still the one it needs. -/
theorem Registered.setSpool (h : r.Registered) {i : ℕ} {s s' : Spool κ} (hs : r.spools[i]?=some s)
    (hkey : s'.key=s.key) (hbusy : 0<s.handles) (hone : 0<s'.handles→s'.deleting=false) :
    (r.setSpool i s').Registered := by
  have hget := setSpool_getElem? hs s'
  constructor
  · intro j q hq hb
    rw [hget] at hq
    split at hq
    · rename_i hij
      obtain rfl := Option.some_inj.mp hq
      exact hkey ▸ hij ▸ h.entry i s hs (Or.inl hbusy)
    · exact h.entry j q hq hb
  · intro key j he
    obtain ⟨q,hq,hk⟩ := h.known key j he
    rw [hget]
    split
    · rename_i hij
      subst hij
      rw [hs,Option.some_inj] at hq
      exact ⟨s',rfl,hkey.trans (hq ▸ hk)⟩
    · exact ⟨q,hq,hk⟩
  · intro j q hq hl
    rw [hget] at hq
    split at hq
    · obtain rfl := Option.some_inj.mp hq
      exact hone hl
    · exact h.one j q hq hl
  · intro key hkey'
    have hnone := h.acquiring key hkey'
    cases hf : (r.setSpool i s').find key with
    | none => rfl
    | some j =>
      obtain ⟨he,q,hq,hl⟩ := find_eq_some hf
      rw [hget] at hq
      have he' : r.entries key=some j := he
      split at hq
      · rename_i hij
        subst hij
        simp [find,he',live,hs,hbusy] at hnone
      · simp [find,he',live,hq,hl] at hnone
  · exact h.nodup

/-- A new spool takes its key's entry: nobody who still needs that entry is left. -/
theorem Registered.insert (h : r.Registered) (ha : r.Settled .insert) (hs : r.step .insert=some r') :
    r'.Registered := by
  rw [SpoolRegistry.step] at hs
  cases hq : r.acquiring with
  | nil => simp [hq] at hs
  | cons key outer =>
    simp only [hq,Option.some_inj] at hs
    subst hs
    have hnodup := h.nodup
    rw [hq,List.nodup_cons] at hnodup
    have hidle : ∀(j : ℕ) (q : Spool κ),r.spools[j]?=some q→0<q.handles ∨ q.deleting=true→q.key≠key := by
      intro j q hj hb heq
      rcases hb with hl | hd
      · have hf := find_live hj (h.entry j q hj (Or.inl hl)) hl
        rw [heq,h.acquiring key (by simp [hq])] at hf
        cases hf
      · have hfalse := ha key (by simp [hq]) q (List.mem_of_getElem? hj) heq
        rw [hfalse] at hd
        cases hd
    constructor
    · intro j q hj hb
      rw [List.getElem?_append] at hj
      split at hj
      · have hne := hidle j q hj hb
        simp only [Function.update_of_ne hne]
        exact h.entry j q hj hb
      · have hz : j-r.spools.length=0 := by
          have := (List.getElem?_eq_some_iff.mp hj).1
          simp only [List.length_singleton] at this
          omega
        rw [hz,List.getElem?_cons_zero,Option.some_inj] at hj
        subst hj
        simp only [Function.update_self,Option.some_inj]
        omega
    · intro k j he
      by_cases hk : k=key
      · subst hk
        simp only [Function.update_self,Option.some_inj] at he
        subst he
        exact ⟨_,List.getElem?_concat_length,rfl⟩
      · simp only [Function.update_of_ne hk] at he
        obtain ⟨q,hj,hkey⟩ := h.known k j he
        exact ⟨q,by rw [List.getElem?_append_left (List.getElem?_eq_some_iff.mp hj).1,hj],hkey⟩
    · intro j q hj hl
      rw [List.getElem?_append] at hj
      split at hj
      · exact h.one j q hj hl
      · have := List.mem_of_getElem? hj
        rw [List.mem_singleton] at this
        subst this
        rfl
    · intro k hk
      have hne : k≠key := fun heq => hnodup.1 (heq ▸ hk)
      have hnone := h.acquiring k (by simp [hq,hk])
      cases hf : (SpoolRegistry.mk (r.spools++[⟨key,1,false⟩])
        (Function.update r.entries key (some r.spools.length))
          outer).find k with
      | none => rfl
      | some j =>
        obtain ⟨he,q,hj,hl⟩ := find_eq_some hf
        simp only [Function.update_of_ne hne] at he
        obtain ⟨s,hs,-⟩ := h.known k j he
        rw [List.getElem?_append_left (List.getElem?_eq_some_iff.mp hs).1] at hj
        simp [find,he,live,hj,hl] at hnone
    · exact hnodup.2

/-- The deleter removes its own spool's entry. -/
theorem Registered.forget (h : r.Registered) {i : ℕ} (hs : r.step (.forget i)=some r') : r'.Registered := by
  rw [SpoolRegistry.step] at hs
  cases hi : r.spools[i]? with
  | none => simp [hi] at hs
  | some s =>
    simp only [hi] at hs
    split at hs
    · rename_i hd
      obtain rfl := Option.some_inj.mp hs
      have hown := h.entry i s hi (Or.inr hd)
      have hget := setSpool_getElem? hi {s with deleting := false}
      have hidle : ¬0<s.handles := fun hl => by simp [h.one i s hi hl] at hd
      -- whoever else is busy holds another key's entry
      have hother : ∀(j : ℕ) (q : Spool κ),i≠j → r.spools[j]?=some q→0<q.handles ∨ q.deleting=true→q.key≠s.key := by
        intro j q hij hj hb heq
        have he := h.entry j q hj hb
        rw [heq,hown,Option.some_inj] at he
        exact hij he
      constructor
      · intro j q hj hb
        simp only [hget] at hj
        split at hj
        · obtain rfl := Option.some_inj.mp hj
          simp [hidle] at hb
        · rename_i hij
          simp only [Function.update_of_ne (hother j q hij hj hb)]
          exact h.entry j q hj hb
      · intro k j he
        by_cases hk : k=s.key
        · subst hk
          simp at he
        · simp only [Function.update_of_ne hk] at he
          obtain ⟨q,hj,hkey⟩ := h.known k j he
          refine ⟨q,?_,hkey⟩
          simp only [hget]
          rw [if_neg]
          · exact hj
          · intro hij
            subst hij
            rw [hi,Option.some_inj] at hj
            exact hk (hkey ▸ hj ▸ rfl)
      · intro j q hj hl
        simp only [hget] at hj
        split at hj
        · obtain rfl := Option.some_inj.mp hj
          rfl
        · exact h.one j q hj hl
      · intro k hk
        have hnone := h.acquiring k hk
        cases hf : SpoolRegistry.find {r.setSpool i {s with deleting := false} with
            entries := Function.update r.entries s.key none} k with
        | none => rfl
        | some j =>
          obtain ⟨he,q,hj,hl⟩ := find_eq_some hf
          by_cases hks : k=s.key
          · subst hks
            simp at he
          · simp only [Function.update_of_ne hks] at he
            simp only [hget] at hj
            split at hj
            · obtain rfl := Option.some_inj.mp hj
              exact absurd hl hidle
            · simp [find,he,live,hj,hl] at hnone
      · exact h.nodup
    · cases hs

theorem Registered.step (h : r.Registered) {a : Action κ} (ha : r.Settled a) (hs : r.step a=some r') :
    r'.Registered := by
  cases a with
  | acquire key =>
    rw [SpoolRegistry.step] at hs
    cases hf : r.find key with
    | some i =>
      obtain ⟨-,s,hi,hl⟩ := find_eq_some hf
      simp only [hf,hi,Option.map_some,Option.some_inj] at hs
      subst hs
      exact h.setSpool hi rfl hl fun _ => h.one i s hi hl
    | none =>
      simp only [hf,Option.some_inj] at hs
      subst hs
      refine ⟨h.entry,h.known,h.one,?_,List.nodup_cons.mpr ⟨ha,h.nodup⟩⟩
      intro k hk
      rcases List.mem_cons.mp hk with rfl | hk
      · exact hf
      · exact h.acquiring k hk
  | failed =>
    rw [SpoolRegistry.step] at hs
    split at hs
    · cases hs
    · obtain rfl := Option.some_inj.mp hs
      refine ⟨h.entry,h.known,h.one,?_,h.nodup.tail⟩
      intro k hk
      exact h.acquiring k (List.mem_of_mem_tail hk)
  | insert => exact h.insert ha hs
  | copy i =>
    rw [SpoolRegistry.step] at hs
    cases hi : r.spools[i]? with
    | none => simp [hi] at hs
    | some s =>
      simp only [hi] at hs
      split at hs
      · rename_i hl
        obtain rfl := Option.some_inj.mp hs
        exact h.setSpool hi rfl hl fun _ => h.one i s hi hl
      · cases hs
  | drop i =>
    rw [SpoolRegistry.step] at hs
    cases hi : r.spools[i]? with
    | none => simp [hi] at hs
    | some s =>
      simp only [hi] at hs
      split at hs
      · rename_i hl
        obtain rfl := Option.some_inj.mp hs
        refine h.setSpool hi rfl hl ?_
        intro hleft
        simp only at hleft ⊢
        rw [decide_eq_false_iff_not]
        omega
      · cases hs
  | forget i => exact h.forget hs

omit [DecidableEq κ] in
private theorem registered_empty : (empty : SpoolRegistry κ).Registered :=
  ⟨by simp [empty],by simp [empty],by simp [empty],by simp [empty],by simp [empty]⟩

private theorem reached_registered (h : Reaches step Settled empty r) : r.Registered :=
  h.invariant registered_empty fun _ _ _ hr ha hs => hr.step ha hs

/-- The registry answers with the live spool, there is one for a key, and a deleter leaves
the entries of the live ones alone. -/
theorem reached_registry (h : Reaches step Settled empty r) :
    (∀(i : ℕ) (s : Spool κ),r.spools[i]?=some s→0<s.handles → r.find s.key=some i) ∧
      (∀(i j : ℕ) (s q : Spool κ),r.spools[i]?=some s → r.spools[j]?=some q→0<s.handles→0<q.handles→
        s.key=q.key→i=j) ∧
      ∀(i : ℕ) (r' : SpoolRegistry κ),r.step (.forget i)=some r'→
        ∀(j : ℕ) (q : Spool κ),r'.spools[j]?=some q→0<q.handles → r'.find q.key=some j := by
  have hr := reached_registered h
  have hfind (r' : SpoolRegistry κ) (h' : r'.Registered) (i : ℕ) (s : Spool κ) (hs : r'.spools[i]?=some s)
      (hl : 0<s.handles) : r'.find s.key=some i := find_live hs (h'.entry i s hs (Or.inl hl)) hl
  refine ⟨hfind r hr,?_,?_⟩
  · intro i j s q hs hq hl hl' hkey
    have hi := hfind r hr i s hs hl
    rw [hkey,hfind r hr j q hq hl',Option.some_inj] at hi
    exact hi.symm
  · intro i r' hs
    exact hfind r' (hr.forget hs)

/-- A spool is acquired, let go and forgotten, and one for the same key acquired after it. -/
theorem reached_registry_again : ∃r : SpoolRegistry ℕ,
    run step Settled empty [.acquire 7,.insert,.drop 0,.forget 0,.acquire 7,.insert,.acquire 7]=some r ∧
      (∀(i : ℕ) (s : Spool ℕ),r.spools[i]?=some s→0<s.handles → r.find s.key=some i) ∧
      (∀(i j : ℕ) (s q : Spool ℕ),r.spools[i]?=some s → r.spools[j]?=some q→0<s.handles→0<q.handles→
        s.key=q.key→i=j) ∧
      ∀(i : ℕ) (r' : SpoolRegistry ℕ),r.step (.forget i)=some r'→
        ∀(j : ℕ) (q : Spool ℕ),r'.spools[j]?=some q→0<q.handles → r'.find q.key=some j := by
  have h : run step Settled (empty : SpoolRegistry ℕ)
      [.acquire 7,.insert,.drop 0,.forget 0,.acquire 7,.insert,.acquire 7]=some _ := rfl
  exact ⟨_,h,reached_registry (reaches_of_run h)⟩

/-- The last handle goes on another thread; before its deleter gets to the registry a second
spool is made for the key, and the deleter then removes the second one's entry: it is live,
`find` answers nothing, and the next acquire makes a third. -/
theorem registry_forgets_newer :
    ((run step (fun _ _ => True) (empty : SpoolRegistry ℕ)
      [.acquire 7,.insert,.drop 0,.acquire 7,.insert,.forget 0]).map fun r =>
      (r.live 1,r.find 7))=some (true,none) ∧
    ((run step (fun _ _ => True) (empty : SpoolRegistry ℕ)
      [.acquire 7,.insert,.drop 0,.acquire 7,.insert,.forget 0,.acquire 7,.insert]).map fun r =>
      (r.live 1,r.live 2))=
        some (true,true) := by
  decide

end SpoolRegistry

end Loftail
