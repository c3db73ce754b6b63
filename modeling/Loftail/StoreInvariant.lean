import Loftail.LogFileStore
import Mathlib.Data.List.Nodup

/-! # Addresses and slots are one-to-one -/
namespace Loftail

/-- No two entries claim one address or one slot, and every slot is one of the pool. -/
structure OneToOne (entries : List StoreEntry) : Prop where
  addresses : (entries.map StoreEntry.address).Nodup
  slots : (entries.map StoreEntry.slot).Nodup
  range : ∀e∈entries,e.slot < LogFileStore.kSlots

namespace OneToOne
open LogFileStore
variable {l l' : List StoreEntry} {e x y : StoreEntry}

theorem conflicts_eq_false : conflicts x e=false↔x.address≠e.address ∧ x.slot≠e.slot := by simp [conflicts]

private theorem conflicts_comm : conflicts x e=conflicts e x := by simp [conflicts,eq_comm]

private theorem iff_pairwise : OneToOne l↔l.Pairwise (fun x y => conflicts x y=false) ∧ ∀e∈l,e.slot < kSlots := by
  have hp : l.Pairwise (fun x y => conflicts x y=false)↔
      (l.map StoreEntry.address).Nodup ∧ (l.map StoreEntry.slot).Nodup := by
    simp only [conflicts_eq_false,List.Nodup,List.pairwise_map,List.pairwise_and_iff]
  rw [hp]
  constructor
  · intro h
    exact ⟨⟨h.addresses,h.slots⟩,h.range⟩
  · intro h
    exact ⟨h.1.1,h.1.2,h.2⟩

theorem nil : OneToOne [] := ⟨List.nodup_nil,List.nodup_nil,by simp⟩

theorem sublist (h : OneToOne l) (hs : l'.Sublist l) : OneToOne l' where
  addresses := h.addresses.sublist (hs.map _)
  slots := h.slots.sublist (hs.map _)
  range e he := h.range e (hs.subset he)

/-- An entry that conflicts with none may stand between the others. -/
theorem insert_iff : OneToOne (l++e::l')↔OneToOne (l++l') ∧ (∀x∈l++l',conflicts x e=false) ∧ e.slot < kSlots := by
  simp only [iff_pairwise,List.pairwise_append,List.pairwise_cons,List.mem_append,List.mem_cons,or_imp,forall_and,
    forall_eq]
  have hc' : (∀x∈l',conflicts e x=false)↔∀x∈l',conflicts x e=false := by simp only [conflicts_comm (e:=e)]
  rw [hc']
  tauto

theorem append_one (h : OneToOne l) (hl : ∀x∈l,conflicts x e=false) (he : e.slot < kSlots) : OneToOne (l++[e]) := by
  apply insert_iff.mpr
  rw [List.append_nil]
  exact ⟨h,hl,he⟩

/-- One slot has one entry. -/
theorem eq_of_slot (h : OneToOne l) (hx : x∈l) (hy : y∈l) (hs : x.slot=y.slot) : x=y :=
  List.inj_on_of_nodup_map h.slots hx hy hs

/-- One address has one entry. -/
theorem eq_of_address (h : OneToOne l) (hx : x∈l) (hy : y∈l) (ha : x.address=y.address) : x=y :=
  List.inj_on_of_nodup_map h.addresses hx hy ha

/-- Only its tick moves. -/
theorem set_used (h : OneToOne l) {i : ℕ} (hi : l[i]?=some e) (used : ℤ) : OneToOne
    (l.set i {e with used := used}) := by
  obtain ⟨hlt,hget⟩ := List.getElem?_eq_some_iff.mp hi
  have hset {β : Type} (f : StoreEntry→β) (hf : f {e with used := used}=f e) :
      (l.set i {e with used := used}).map f=l.map f := by
    rw [List.map_set,hf,← hget]
    apply List.ext_getElem
    · simp
    · intro n hn _
      rw [List.getElem_set]
      split
      · subst n
        simp
      · rfl
  constructor
  · rw [hset _ rfl]
    exact h.addresses
  · rw [hset _ rfl]
    exact h.slots
  · intro x hx
    rcases List.mem_or_eq_of_mem_set hx with hx | rfl
    · exact h.range x hx
    · exact h.range e (List.mem_of_getElem? hi)

end OneToOne

namespace LogFileStore
variable {st st' : LogFileStore} {key : String} {i slot : ℕ} {e x : StoreEntry}

/-! ## Where entries are found -/

theorem indexOf_get (h : st.indexOf key=some (i,e)) : st.entries[i]?=some e ∧ e.address=key := by
  simp only [indexOf,Option.map_eq_some_iff,Prod.mk.injEq] at h
  obtain ⟨⟨x,n⟩,hx,rfl,rfl⟩ := h
  have hm := List.mem_zipIdx_iff_getElem?.mp (List.mem_of_find?_eq_some hx)
  have ha := List.find?_some hx
  simp only [decide_eq_true_eq] at ha
  exact ⟨hm,ha⟩

theorem indexOf_mem (h : st.indexOf key=some (i,e)) : e∈st.entries := List.mem_of_getElem? (indexOf_get h).1

theorem indexOf_none : st.indexOf key=none↔∀x∈st.entries,x.address≠key := by
  simp only [indexOf,Option.map_eq_none_iff,List.find?_eq_none,decide_eq_true_eq]
  constructor
  · intro h x hx
    obtain ⟨n,hn⟩ := List.getElem?_of_mem hx
    exact h (x,n) (List.mem_zipIdx_iff_getElem?.mpr hn)
  · intro h x hx
    exact h x.1 (List.mem_of_getElem? (List.mem_zipIdx_iff_getElem?.mp hx))

@[simp] theorem dropEntry_entries : (st.dropEntry i).entries=st.entries.eraseIdx i := rfl

theorem dropEntry_sublist : (st.dropEntry i).entries.Sublist st.entries := List.eraseIdx_sublist ..

/-- What is left when one entry is dropped claims nothing that the entry claimed. -/
theorem dropEntry_apart (h : OneToOne st.entries) (hi : st.entries[i]?=some e) (hx : x∈(st.dropEntry i).entries) :
    conflicts x e=false := by
  obtain ⟨hlt,rfl⟩ := List.getElem?_eq_some_iff.mp hi
  have hsplit : st.entries=st.entries.take i++st.entries[i]::st.entries.drop (i+1) := by
    rw [List.getElem_cons_drop,List.take_append_drop]
  rw [hsplit] at h
  apply (OneToOne.insert_iff.mp h).2.1 x
  rw [dropEntry_entries,List.eraseIdx_eq_take_drop_succ] at hx
  exact hx

@[simp] theorem addEntry_entries : (st.addEntry key slot).entries=st.entries++[⟨key,slot,st.tick+1⟩] := rfl

/-! ## Slots -/

section Victim
variable {eligible : StoreEntry→Bool}

private theorem consider_some {v : Option (StoreEntry×ℕ)} {w z : StoreEntry×ℕ} (h : consider eligible v z=some w) :
    v=some w ∨ w=z ∧ eligible z.1 := by
  simp only [consider] at h
  split at h
  · rename_i hz
    cases v with
    | none => exact .inr ⟨(Option.some_inj.mp h).symm,hz⟩
    | some v =>
      simp only at h
      split at h
      · exact .inr ⟨(Option.some_inj.mp h).symm,hz⟩
      · exact .inl h
  · exact .inl h

private theorem consider_none {v : Option (StoreEntry×ℕ)} {z : StoreEntry×ℕ} :
    consider eligible v z=none↔v=none ∧ eligible z.1=false := by
  cases v with
  | none => simp [consider]
  | some v =>
    simp only [consider,reduceCtorEq,false_and,iff_false]
    split
    · split <;> simp
    · simp

private theorem foldl_consider_some {zs : List (StoreEntry×ℕ)} {v : Option (StoreEntry×ℕ)} {w : StoreEntry×ℕ}
    (h : zs.foldl (consider eligible) v=some w) : v=some w ∨ w∈zs ∧ eligible w.1 := by
  induction zs generalizing v with
  | nil => exact .inl h
  | cons z zs ih =>
    rcases ih h with h | ⟨hw,he⟩
    · rcases consider_some h with h | ⟨rfl,he⟩
      · exact .inl h
      · exact .inr ⟨List.mem_cons_self,he⟩
    · exact .inr ⟨List.mem_cons_of_mem _ hw,he⟩

private theorem foldl_consider_none {zs : List (StoreEntry×ℕ)} {v : Option (StoreEntry×ℕ)} :
    zs.foldl (consider eligible) v=none↔v=none ∧ ∀z∈zs,eligible z.1=false := by
  induction zs generalizing v with
  | nil => simp
  | cons z zs ih => simp [ih,consider_none,and_assoc]

theorem leastUsed_some {l : List StoreEntry} (h : leastUsed eligible l=some (e,i)) : l[i]?=some e ∧ eligible e := by
  rcases foldl_consider_some h with h | ⟨hm,he⟩
  · cases h
  · exact ⟨List.mem_zipIdx_iff_getElem?.mp hm,he⟩

theorem leastUsed_none {l : List StoreEntry} (h : leastUsed eligible l=none) (hx : x∈l) : eligible x=false := by
  obtain ⟨n,hn⟩ := List.getElem?_of_mem hx
  exact (foldl_consider_none.mp h).2 (x,n) (List.mem_zipIdx_iff_getElem?.mpr hn)

end Victim

/-- The victim is never pinned, and it is a later build's record only where nothing else may be taken. -/
theorem victim_some (h : st.victim=some (e,i)) :
    st.entries[i]?=some e ∧ st.pinned e.address=false ∧
      (st.fromFuture e.address → ∀x∈st.entries,st.pinned x.address ∨ st.fromFuture x.address) := by
  rw [victim] at h
  split at h
  · rename_i v hv
    obtain rfl := Option.some_inj.mp h
    obtain ⟨hi,he⟩ := leastUsed_some hv
    simp only [Bool.and_eq_true,Bool.not_eq_true'] at he
    exact ⟨hi,he.1,fun hf => by simp [he.2] at hf⟩
  · rename_i hn
    obtain ⟨hi,he⟩ := leastUsed_some h
    refine ⟨hi,by simpa using he,fun _ x hx => ?_⟩
    have hnone := leastUsed_none hn hx
    cases hp : st.pinned x.address with
    | true => exact .inl rfl
    | false => simpa [hp] using hnone

private theorem firstFree_some {l : List StoreEntry} {left n : ℕ} (h : firstFree l left n=some slot) :
    slot < n+left ∧ ∀x∈l,x.slot≠slot := by
  induction left generalizing n with
  | zero => cases h
  | succ left ih =>
    rw [firstFree] at h
    split at h
    · have hs := ih h
      exact ⟨by omega,hs.2⟩
    · rename_i hn
      obtain rfl := Option.some_inj.mp h
      exact ⟨by omega,by simpa using hn⟩

private theorem freeSlot_some (h : st.freeSlot=some slot) : slot < kSlots ∧ ∀x∈st.entries,x.slot≠slot := by
  have hs := firstFree_some h
  rwa [Nat.zero_add] at hs

/-- What an allocation does to the store: nothing, or one victim is dropped. -/
theorem allocateSlot_some (h : st.allocateSlot=some (slot,st')) :
    st.freeSlot=some slot ∧ st'=st ∨
      st.freeSlot=none ∧ ∃e i,st.victim=some (e,i) ∧ slot=e.slot ∧ st'=st.dropEntry i := by
  rw [allocateSlot] at h
  cases hf : st.freeSlot with
  | some n =>
    rw [hf] at h
    obtain ⟨rfl,rfl⟩ := Prod.mk.inj (Option.some_inj.mp h)
    exact .inl ⟨rfl,rfl⟩
  | none =>
    rw [hf] at h
    cases hv : st.victim with
    | none => simp [hv] at h
    | some v =>
      simp only [hv,Option.some_inj,Prod.mk.injEq] at h
      exact .inr ⟨rfl,v.1,v.2,rfl,h.1.symm,h.2.symm⟩

/-- The slot allocated is one of the pool, and no entry that is left has it. -/
theorem allocateSlot_apart (hone : OneToOne st.entries) (h : st.allocateSlot=some (slot,st')) :
    slot < kSlots ∧ st'.entries.Sublist st.entries ∧ ∀x∈st'.entries,x.slot≠slot := by
  rcases allocateSlot_some h with ⟨hf,rfl⟩ | ⟨-,e,i,hv,rfl,rfl⟩
  · obtain ⟨hlt,hn⟩ := freeSlot_some hf
    exact ⟨hlt,List.Sublist.refl _,hn⟩
  · have hi := (victim_some hv).1
    refine ⟨hone.range e (List.mem_of_getElem? hi),dropEntry_sublist,fun x hx => ?_⟩
    exact (OneToOne.conflicts_eq_false.mp (dropEntry_apart hone hi hx)).2

/-- The new entry of an address that has none fits beside the others. -/
theorem allocate_oneToOne (hone : OneToOne st.entries) (h : st.allocateSlot=some (slot,st'))
    (hk : ∀x∈st.entries,x.address≠key) :
    OneToOne (st'.addEntry key slot).entries := by
  obtain ⟨hlt,hs,hn⟩ := allocateSlot_apart hone h
  apply (hone.sublist hs).append_one ?_ hlt
  intro x hx
  exact OneToOne.conflicts_eq_false.mpr ⟨hk x (hs.subset hx),hn x hx⟩

/-- The slot of an address is its entry's, and it is the address's alone. -/
theorem slotFor_some (hone : OneToOne st.entries) (h : st.slotFor key=some (slot,st')) :
    OneToOne st'.entries ∧ slot < kSlots ∧ ∃used,⟨key,slot,used⟩∈st'.entries := by
  rw [slotFor] at h
  cases hi : st.indexOf key with
  | some v =>
    obtain ⟨i,e⟩ := v
    simp only [hi,Option.some_inj,Prod.mk.injEq] at h
    obtain ⟨rfl,rfl⟩ := h
    have he := indexOf_mem hi
    refine ⟨hone,hone.range e he,e.used,?_⟩
    rw [← (indexOf_get hi).2]
    exact he
  | none =>
    simp only [hi,Option.map_eq_some_iff,Prod.mk.injEq] at h
    obtain ⟨⟨n,mid⟩,ha,rfl,rfl⟩ := h
    refine ⟨allocate_oneToOne hone ha (indexOf_none.mp hi),(allocateSlot_apart hone ha).1,mid.tick+1,?_⟩
    simp

/-! ## Loading -/

/-- An entry of the map file that takes the place of a kept one claims nothing of any other kept one. -/
def settlesAlone (e : StoreEntry) : List StoreEntry→Bool
  | [] => true
  | x::entries =>
    if conflicts x e then !decide (x.used < e.used) || entries.all
      (fun y => !conflicts y e) else settlesAlone e entries

def loadsClear (st : LogFileStore) (raw : RawEntry) : Bool :=
  match claim raw with
  | none => true
  | some e => settlesAlone e st.entries

/-- Every entry of the map file in turn. -/
def allClear : LogFileStore→List RawEntry→Bool
  | _,[] => true
  | st,raw::raws => st.loadsClear raw && allClear (st.loadEntry raw) raws

theorem settleEntry_none {l : List StoreEntry} : settleEntry e l=none↔∀x∈l,conflicts x e=false := by
  induction l with
  | nil => simp [settleEntry]
  | cons x l ih =>
    rw [settleEntry]
    cases hx : conflicts x e with
    | true => simp [hx]
    | false => simp [hx,ih]

private theorem settleEntry_some {l l' : List StoreEntry} (h : settleEntry e l=some l') :
    ∃before x after,l=before++x::after ∧ (∀y∈before,conflicts y e=false) ∧ conflicts x e ∧
      l'=before++(if x.used < e.used then e else x)::after := by
  induction l generalizing l' with
  | nil => cases h
  | cons x l ih =>
    rw [settleEntry] at h
    cases hx : conflicts x e with
    | true =>
      rw [if_pos hx] at h
      obtain rfl := Option.some_inj.mp h
      exact ⟨[],x,l,rfl,by simp,hx,rfl⟩
    | false =>
      rw [if_neg (by simp [hx])] at h
      obtain ⟨m,hm,rfl⟩ := Option.map_eq_some_iff.mp h
      obtain ⟨before,y,after,rfl,hb,hy,rfl⟩ := ih hm
      exact ⟨x::before,y,after,rfl,by simpa [hx] using hb,hy,rfl⟩

private theorem settlesAlone_split {before after : List StoreEntry} (hb : ∀y∈before,conflicts y e=false)
    (hx : conflicts x e) :
    settlesAlone e (before++x::after)↔x.used < e.used→∀y∈after,conflicts y e=false := by
  induction before with
  | nil => simp [settlesAlone,hx,or_iff_not_imp_left]
  | cons y before ih =>
    rw [List.cons_append,settlesAlone,if_neg (by simp [hb y (by simp)])]
    exact ih fun z hz => hb z (by simp [hz])

theorem settlesAlone_none {l : List StoreEntry} (h : ∀x∈l,conflicts x e=false) : settlesAlone e l := by
  induction l with
  | nil => rfl
  | cons x l ih =>
    rw [settlesAlone,if_neg (by simp [h x (by simp)])]
    exact ih fun y hy => h y (by simp [hy])

theorem claim_slot {raw : RawEntry} (h : claim raw=some e) : e.slot < kSlots := by
  rw [claim] at h
  split at h
  · cases h
  · rename_i hn
    obtain rfl := Option.some_inj.mp h
    simp only [not_or,Int.not_lt,Int.not_le] at hn
    exact (Int.toNat_lt hn.2.1).mpr hn.2.2

/-- One entry of the map file is settled exactly when it takes no place beside another that it conflicts with. -/
theorem loadEntry_iff (h : OneToOne st.entries) (raw : RawEntry) :
    OneToOne (st.loadEntry raw).entries↔st.loadsClear raw := by
  rw [loadEntry,loadsClear]
  cases hc : claim raw with
  | none => simpa using h
  | some e =>
    cases hs : settleEntry e st.entries with
    | none =>
      have hl := settleEntry_none.mp hs
      simp only [hs,settlesAlone_none hl,iff_true]
      exact h.append_one hl (claim_slot hc)
    | some entries =>
      obtain ⟨before,x,after,hl,hb,hx,rfl⟩ := settleEntry_some hs
      simp only [hs]
      rw [hl,settlesAlone_split hb hx]
      rw [hl] at h
      by_cases hu : x.used < e.used
      · have hrest : OneToOne (before++after) := (OneToOne.insert_iff.mp h).1
        simp only [hu,if_true,forall_const,OneToOne.insert_iff,hrest,claim_slot hc,and_true,true_and,
          List.mem_append,or_imp,forall_and]
        exact ⟨And.right,And.intro hb⟩
      · simpa [hu] using h

theorem load_oneToOne (raws : List RawEntry) (h : OneToOne st.entries) (hc : st.allClear raws) :
    OneToOne (raws.foldl loadEntry st).entries := by
  induction raws generalizing st with
  | nil => exact h
  | cons raw raws ih =>
    rw [allClear,Bool.and_eq_true] at hc
    exact ih ((loadEntry_iff h raw).mpr hc.1) hc.2

end LogFileStore

end Loftail
