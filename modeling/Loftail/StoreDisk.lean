import Loftail.StoreOperations

/-! # The disk under the store, and what a store holds on it -/
namespace Loftail

/-- The files of the store. -/
structure StoreDisk (P F H : Type) where
  map : Option MapDoc
  slots : ℕ→Option (SlotDoc P F H)

variable {P F H : Type}

namespace StoreDisk

def empty : StoreDisk P F H := ⟨none,fun _ => none⟩

/-- Each file is written whole or left as it was. -/
def Does (d : StoreDisk P F H) : (o : StoreOp P F H)→StoreAnswer P F H o→StoreDisk P F H→Prop
  | .readMap,x,d' => x=d.map ∧ d'=d
  | .listSlots,x,d' => (∃l : List ℕ,x=l ∧ l.Nodup ∧ ∀n,n∈l↔n < LogFileStore.kSlots ∧ (d.slots n).isSome) ∧ d'=d
  | .readSlot n,x,d' => x=d.slots n ∧ d'=d
  | .writeSlot n doc,(none : Option String),d' => d'={d with slots := Function.update d.slots n (some doc)}
  | .writeSlot _ _,(some _ : Option String),d' => d'=d
  | .writeMap doc,(none : Option String),d' => d'={d with map := some doc}
  | .writeMap _,(some _ : Option String),d' => d'=d
  | .removeSlot n,_,d' => d'={d with slots := Function.update d.slots n none} ∨ d'=d

end StoreDisk

/-- What the slot file of an entry says about the address. -/
def recordAt (slots : ℕ→Option (SlotDoc P F H)) (key : String) (slot : ℕ) : Option (LogFileSettings P F H) :=
  ((slots slot).bind SlotDoc.fromJson).filter fun r => r.address=key

theorem recordAt_some {slots : ℕ→Option (SlotDoc P F H)} {key : String} {slot : ℕ} {r : LogFileSettings P F H} :
    recordAt slots key slot=some r↔r.address=key ∧ ∃doc,slots slot=some doc ∧ doc.fromJson=some r := by
  simp [recordAt,Option.filter_eq_some_iff,Option.bind_eq_some_iff,and_comm]

namespace LogFileStore
variable {st : LogFileStore} {d : StoreDisk P F H} {key : String} {r : LogFileSettings P F H}

/-- The record that the entry of an address leads to. -/
def held (st : LogFileStore) (d : StoreDisk P F H) (key : String) : Option (LogFileSettings P F H) :=
  (st.indexOf key).bind fun v => recordAt d.slots key v.2.slot

theorem indexOf_of_mem (hone : OneToOne st.entries) {e : StoreEntry} (he : e∈st.entries) (ha : e.address=key) :
    ∃i,st.indexOf key=some (i,e) := by
  cases hi : st.indexOf key with
  | none => exact absurd ha (indexOf_none.mp hi e he)
  | some v =>
    have hv := hone.eq_of_address (indexOf_mem hi) he ((indexOf_get hi).2.trans ha.symm)
    exact ⟨v.1,by rw [← hv]⟩

theorem held_some (hone : OneToOne st.entries) :
    st.held d key=some r↔∃e∈st.entries,e.address=key ∧ recordAt d.slots key e.slot=some r := by
  simp only [held,Option.bind_eq_some_iff]
  constructor
  · rintro ⟨v,hi,hr⟩
    exact ⟨v.2,indexOf_mem hi,(indexOf_get hi).2,hr⟩
  · rintro ⟨e,he,ha,hr⟩
    obtain ⟨i,hi⟩ := indexOf_of_mem hone he ha
    exact ⟨(i,e),hi,hr⟩

end LogFileStore

end Loftail
