import Loftail.StoreOperations

/-! # Runs of the store

A run is one operation after another, on a disk that answers each question as it likes: a slot file may
hold anything, a write may fail, and another instance may have written in between. -/
namespace Loftail.LogFileStore
variable {P F H : Type} [DecidableEq P] [DecidableEq F] [DecidableEq H]

/-- Every slot file is named once, and a map file that is read is `clear`. -/
def Answers (P F H : Type) (clear : MapDoc→Prop) (_ : Unit) (o : StoreOp P F H) (x : StoreAnswer P F H o)
    (_ : Unit) : Prop :=
  Gives (fun _ => True) clear o x

/-- The stores that the operations lead to. -/
inductive Reached (keys : StoreKeys) (rules : SectionRules F H) (P : Type) [DecidableEq P] (clear : MapDoc→Prop) :
    LogFileStore→Prop
  | initial : Reached keys rules P clear initial
  | call {st st' : LogFileStore} {answer : Option (LogFileSettings P F H)} (c : StoreCall P F H)
      (h : Reached keys rules P clear st) (hr : (c.perform keys rules st).Runs (Answers P F H clear) ()
        (st',answer) ()) :
      Reached keys rules P clear st'

theorem Reached.invariant {keys : StoreKeys} {rules : SectionRules F H} {st : LogFileStore}
    (h : Reached keys rules P ClearMap st) : OneToOne st.entries := by
  induction h with
  | initial => exact .nil
  | call c _ hr ih =>
    have hk : (c.perform keys rules _).Keeps (Gives (fun _ => True) ClearMap) (Asks fun _ => True) _ :=
      perform_keeps ih (fun _ h => h) (fun _ _ _ _ _ _ _ => trivial) (fun _ _ => trivial) (fun _ _ _ _ => trivial)
    exact (hk.runs (fun _ _ _ _ hx => hx) hr).1

/-- In a run whose map files are clear no two entries have one address, no two have one slot, and every slot is
one of the pool. -/
theorem reached_oneToOne {keys : StoreKeys} {rules : SectionRules F H} {st : LogFileStore}
    (h : Reached keys rules P ClearMap st) :
    (st.entries.map StoreEntry.address).Nodup ∧ (st.entries.map StoreEntry.slot).Nodup ∧
      ∀e∈st.entries,e.slot < kSlots :=
  ⟨h.invariant.addresses,h.invariant.slots,h.invariant.range⟩

/-- Rules for settings that hold a profile and nothing else. -/
def plainRules : SectionRules Unit Unit := ⟨(),fun _ => true,fun _ => true,fun _ => false⟩

def plainKeys : StoreKeys := ⟨id,fun _ => ""⟩

/-- The third entry takes the place of the first, and beside it stands another. -/
def takenOver : MapDoc := ⟨1,0,[⟨"a",0,1⟩,⟨"b",1,1⟩,⟨"a",2,5⟩]⟩

theorem reached_takenOver : ∃st : LogFileStore,st.entries=[⟨"a",2,5⟩,⟨"b",1,1⟩] ∧
    (st.entries.map StoreEntry.address).Nodup ∧ (st.entries.map StoreEntry.slot).Nodup ∧
    ∀e∈st.entries,e.slot < kSlots :=
  ⟨_,rfl,reached_oneToOne (.call .load .initial ⟨(some takenOver : Option MapDoc),(),
    fun _ hd _ => by cases hd; rfl,rfl,rfl⟩ : Reached plainKeys plainRules Unit ClearMap _)⟩

/-- The third entry claims the address of the first and the slot of the second. -/
def contested : MapDoc := ⟨1,0,[⟨"a",0,1⟩,⟨"b",1,1⟩,⟨"a",1,5⟩]⟩

/-- Two entries on one slot, from a map file that is no clear one. -/
theorem reached_contested :
    ∃st,Reached plainKeys plainRules Unit (fun _ => True) st ∧ st.entries=[⟨"a",1,5⟩,⟨"b",1,1⟩] ∧
      ¬(st.entries.map StoreEntry.slot).Nodup :=
  ⟨_,.call .load .initial ⟨(some contested : Option MapDoc),(),fun _ _ => trivial,rfl,rfl⟩,rfl,by decide⟩

end Loftail.LogFileStore
