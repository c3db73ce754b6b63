import Loftail.StoreDisk

/-! # What an operation leaves of the entries

An entry goes because the operation is about its address, or because it was evicted. -/
namespace Loftail
variable {P F H : Type}

/-- The addresses that an operation may take out of the store; a load, a sweep and the drain are about all of
them. -/
def StoreCall.about (keys : StoreKeys) : StoreCall P F H→String→Prop
  | .read address,k => k=keys.logSettingsKey address ∨ k=keys.legacyLogSettingsKey address
  | .save s _,k => k=keys.logSettingsKey s.address ∨ k=keys.logSettingsKey (keys.logSettingsKey s.address)
  | .remove address,k => k=keys.logSettingsKey address
  | .load,_ => True
  | .pruneAgainst _,_ => True
  | .adoptLegacy _ _,_ => True
  | _,_ => False

/-- The record that an adoption copies is not evicted for the copy. -/
def StoreCall.protects (keys : StoreKeys) : StoreCall P F H→String→Prop
  | .read address,k => k=keys.legacyLogSettingsKey address
  | _,_ => False

namespace LogFileStore
variable {st st' after : LogFileStore} {keys : StoreKeys} {rules : SectionRules F H} {about protects : String→Prop}
  {x : StoreEntry} {slot : ℕ} {gives : (o : StoreOp P F H)→StoreAnswer P F H o→Prop}

def Kept (st' : LogFileStore) (x : StoreEntry) : Prop := ∃used,⟨x.address,x.slot,used⟩∈st'.entries

/-- A record that is not pinned, and a later build's record only where every other is pinned, protected or a
later build's as well. -/
def MayEvict (st : LogFileStore) (protects : String→Prop) (x : StoreEntry) : Prop :=
  st.pinned x.address=false ∧
    (st.fromFuture x.address → ∀y∈st.entries,st.pinned y.address ∨ st.fromFuture y.address ∨ protects y.address)

/-- Every entry is kept, or the operation is about its address, or it was to be evicted. -/
def Leaves (st : LogFileStore) (about protects : String→Prop) (st' : LogFileStore) : Prop :=
  ∀x∈st.entries,st'.Kept x ∨ about x.address ∨ st.MayEvict protects x

theorem kept_of_mem (h : x∈st'.entries) : st'.Kept x := ⟨x.used,h⟩

theorem leaves_refl : st.Leaves about protects st := fun _ hx => .inl (kept_of_mem hx)

theorem leaves_of_entries (h : st'.entries=st.entries) : st.Leaves about protects st' :=
  fun _ hx => .inl (kept_of_mem (h ▸ hx))

theorem mem_dropEntry {i : ℕ} {e : StoreEntry} (hi : st.entries[i]?=some e) (hx : x∈st.entries) (hne : x≠e) :
    x∈(st.dropEntry i).entries := by
  obtain ⟨n,hn⟩ := List.getElem?_of_mem hx
  rw [dropEntry_entries]
  refine List.mem_eraseIdx_iff_getElem?.mpr ⟨n,?_,hn⟩
  rintro rfl
  exact hne (Option.some_inj.mp (hn.symm.trans hi))

/-- One entry is dropped, and the operation is about its address. -/
theorem leaves_dropEntry {i : ℕ} {e : StoreEntry} (hi : st.entries[i]?=some e) (ha : about e.address) :
    st.Leaves about protects (st.dropEntry i) := by
  intro x hx
  by_cases hxe : x=e
  · subst hxe
    exact .inr (.inl ha)
  · exact .inl (kept_of_mem (mem_dropEntry hi hx hxe))

/-- An allocation evicts as it may. -/
theorem leaves_allocateSlot (h : st.allocateSlot=some (slot,after)) : st.Leaves about (fun _ => False) after := by
  rcases allocateSlot_some h with ⟨-,rfl⟩ | ⟨-,e,i,hv,-,rfl⟩
  · exact leaves_refl
  · obtain ⟨hi,hp,hf⟩ := victim_some hv
    intro x hx
    by_cases hxe : x=e
    · subst hxe
      refine .inr (.inr ⟨hp,fun hfx y hy => ?_⟩)
      exact (hf hfx y hy).imp_right .inl
    · exact .inl (kept_of_mem (mem_dropEntry hi hx hxe))

private theorem kept_addEntry {key : String} {n : ℕ} (h : st'.Kept x) : (st'.addEntry key n).Kept x := by
  obtain ⟨used,hu⟩ := h
  exact ⟨used,List.mem_append_left _ hu⟩

theorem Leaves.addEntry {key : String} {n : ℕ} (h : st.Leaves about protects st') :
    st.Leaves about protects (st'.addEntry key n) := fun x hx => (h x hx).imp_left kept_addEntry

theorem Leaves.of_entries (h : st.Leaves about protects st') (he : after.entries=st'.entries) :
    st.Leaves about protects after := by
  intro x hx
  refine (h x hx).imp_left ?_
  rintro ⟨used,hu⟩
  exact ⟨used,he ▸ hu⟩

theorem flush_entries {asks : StoreOp P F H→Prop} (hm : asks (.writeMap st.mapDoc)) :
    (st.flush).Keeps gives asks fun r => r.1.entries=st.entries := flush_keeps hm fun _ _ => rfl

theorem remove_leaves (address : String) :
    (st.remove keys address).Keeps gives (fun _ => True) fun r =>
      st.Leaves (fun k => k=keys.logSettingsKey address) protects r.1 := by
  rw [remove]
  split
  · exact Program.keeps_return.mpr leaves_refl
  cases hi : st.indexOf (keys.logSettingsKey address) with
  | none => exact Program.keeps_return.mpr leaves_refl
  | some v =>
    obtain ⟨hget,ha⟩ := indexOf_get hi
    apply (flush_entries trivial).bind
    intro r hr
    have hdrop : st.Leaves (fun k => k=keys.logSettingsKey address) protects (st.dropEntry v.1) :=
      leaves_dropEntry hget ha
    exact ⟨trivial,fun _ _ => Program.keeps_return.mpr (hdrop.of_entries hr)⟩

private theorem save_leaves [DecidableEq P] (s : LogFileSettings P F H) (inherited : P) :
    (st.save keys rules s inherited).Keeps gives (fun _ => True) fun r =>
      st.Leaves ((StoreCall.save s inherited).about keys) (fun _ => False) r.1 := by
  rw [save]
  dsimp only [LogFileSettings.reduce_address]
  split
  · exact Program.keeps_return.mpr leaves_refl
  split
  · exact Program.keeps_return.mpr leaves_refl
  split
  · apply (remove_leaves _).bind
    intro r hr x hx
    exact (hr x hx).imp_right fun h => h.imp_left .inr
  · cases hf : st.slotFor (keys.logSettingsKey s.address) with
    | none => exact Program.keeps_return.mpr leaves_refl
    | some v =>
      have hleaves : st.Leaves ((StoreCall.save s inherited).about keys) (fun _ => False) v.2 := by
        rw [slotFor] at hf
        cases hi : st.indexOf (keys.logSettingsKey s.address) with
        | some u =>
          rw [hi] at hf
          obtain rfl := Option.some_inj.mp hf
          exact leaves_refl
        | none =>
          rw [hi] at hf
          obtain ⟨⟨n,mid⟩,ha,rfl⟩ := Option.map_eq_some_iff.mp hf
          exact (leaves_allocateSlot ha).addEntry
      apply Program.keeps_ask.mpr
      refine ⟨trivial,fun failed _ => ?_⟩
      cases (failed : Option String) with
      | some error => exact hleaves
      | none =>
        apply (flush_entries trivial).bind
        exact fun r hr => hleaves.of_entries hr

/-! ## The legacy record -/

/-- The file that the entry names is not written, and a map that is written names it still. -/
def SparesEntry (e : StoreEntry) : StoreOp P F H→Prop
  | .writeSlot n _ => n≠e.slot
  | .writeMap doc => ⟨e.address,e.slot,e.used⟩∈doc.entries
  | .removeSlot _ => False
  | _ => True

/-- The entry under the legacy key of an address, where that is another key. -/
def IsLegacy (keys : StoreKeys) (address : String) (e : StoreEntry) : Prop :=
  e.address=keys.legacyLogSettingsKey address ∧ e.address≠keys.logSettingsKey address

private theorem mem_mapDoc {e : StoreEntry} (he : e∈st.entries) : ⟨e.address,e.slot,e.used⟩∈st.mapDoc.entries :=
  List.mem_map_of_mem (f:=fun e : StoreEntry => (⟨e.address,e.slot,e.used⟩ : RawEntry)) he

/-- A protected record stays where it is, and the slot allocated is another. -/
theorem allocate_beside {legacy : String} (hone : OneToOne st.entries)
    (h : (st.beside legacy).allocateSlot=some (slot,after)) :
    st.Leaves about (fun k => k=legacy) after ∧ (∀x∈after.entries,x.slot≠slot) ∧
      ∀e∈st.entries,e.address=legacy → e∈after.entries := by
  have hone : OneToOne (st.beside legacy).entries := hone
  refine ⟨fun x hx => ?_,(allocateSlot_apart hone h).2.2,fun e he hea => ?_⟩
  · have hleaves : (st.beside legacy).Leaves about _ after := leaves_allocateSlot h
    rcases hleaves x hx with hk | ha | ⟨hp,hf⟩
    · exact .inl hk
    · exact .inr (.inl ha)
    refine .inr (.inr ⟨?_,fun hfx y hy => ?_⟩)
    · by_cases hxl : x.address=legacy
      · simp [beside,hxl] at hp
      · simpa [beside,Function.update_of_ne hxl] using hp
    · rcases hf hfx y hy with hy | hy | hy
      · by_cases hyl : y.address=legacy
        · exact .inr (.inr hyl)
        · exact .inl (by simpa [beside,Function.update_of_ne hyl] using hy)
      · exact .inr (.inl hy)
      · cases hy
  · rcases allocateSlot_some h with ⟨-,rfl⟩ | ⟨-,v,i,hv,-,rfl⟩
    · exact he
    · obtain ⟨hi,hp,-⟩ := victim_some hv
      apply mem_dropEntry hi he
      rintro rfl
      simp [beside,hea] at hp

/-- What the lookup of an address leaves, with the entry it has found. -/
def Finds (keys : StoreKeys) (address : String) (st : LogFileStore)
    (r : LogFileStore×Option (ℕ×StoreEntry)) : Prop :=
  st.Leaves ((StoreCall.read address : StoreCall P F H).about keys)
    ((StoreCall.read address : StoreCall P F H).protects keys)
    r.1 ∧
  (∀v,r.2=some v → r.1.entries[v.1]?=some v.2 ∧ v.2.address=keys.logSettingsKey address) ∧
  ∀e∈st.entries,IsLegacy keys address e → e∈r.1.entries ∨ r.2=none ∧
    ∀x∈r.1.entries,x.address≠keys.logSettingsKey address

private theorem legacyRecord_none {legacy : String} {i : ℕ} {doc : Option (SlotDoc P F H)}
    (h : st.legacyRecord legacy i doc=(st',none)) :
    st'.entries=st.entries ∨ st'=st.dropEntry i := by
  cases doc with
  | none =>
    obtain ⟨rfl,-⟩ := Prod.mk.inj h
    exact .inr rfl
  | some d =>
    rw [legacyRecord] at h
    cases hd : d.fromJson with
    | none =>
      rw [hd] at h
      obtain ⟨rfl,-⟩ := Prod.mk.inj h
      exact .inl rfl
    | some s =>
      rw [hd] at h
      dsimp only at h
      split at h
      · cases h
      · obtain ⟨rfl,-⟩ := Prod.mk.inj h
        exact .inr rfl

private theorem adoptLegacyKey_finds (hone : OneToOne st.entries) {address : String}
    (hk : st.indexOf (keys.logSettingsKey address)=none) :
    (st.adoptLegacyKey (P:=P) (F:=F) (H:=H) keys address (keys.logSettingsKey address)).Keeps gives
      (fun o => ∀e∈st.entries,IsLegacy keys address e → SparesEntry e o)
      (Finds (P:=P) (F:=F) (H:=H) keys address st) := by
  have hnokey := indexOf_none.mp hk
  have hsame : ∀mid : LogFileStore,mid.entries=st.entries → Finds (P:=P) (F:=F) (H:=H) keys address st (mid,none) :=
    fun mid hmid => ⟨leaves_of_entries hmid,fun v hv => (by cases hv),fun e he _ => .inl (hmid ▸ he)⟩
  rw [adoptLegacyKey]
  split
  · exact Program.keeps_return.mpr (hsame st rfl)
  rename_i hlegacy
  rw [not_or] at hlegacy
  cases hi : st.indexOf (keys.legacyLogSettingsKey address) with
  | none => exact Program.keeps_return.mpr (hsame st rfl)
  | some v =>
    obtain ⟨hget,hva⟩ := indexOf_get hi
    apply Program.keeps_ask.mpr
    refine ⟨fun _ _ _ => trivial,fun doc _ => ?_⟩
    cases hl : st.legacyRecord (keys.legacyLogSettingsKey address) v.1 (doc : Option (SlotDoc P F H)) with
    | mk mid record =>
    cases record with
    | none =>
      apply Program.keeps_return.mpr
      rcases legacyRecord_none hl with hmid | rfl
      · exact hsame mid hmid
      · refine ⟨leaves_dropEntry hget (.inr hva),fun v hv => (by cases hv),fun e _ _ => .inr ⟨rfl,fun x hx => ?_⟩⟩
        exact hnokey x (dropEntry_sublist.subset hx)
    | some r =>
      obtain ⟨rfl,-⟩ := legacyRecord_some hl
      dsimp only
      cases hb : mid.allocateBeside (keys.legacyLogSettingsKey address) with
      | none => exact Program.keeps_return.mpr (hsame mid rfl)
      | some w =>
        obtain ⟨after,hafter,hw⟩ := allocateBeside_some hb
        obtain ⟨hleaves,hslots,hstay⟩ := allocate_beside hone hafter
        apply Program.keeps_ask.mpr
        refine ⟨fun e he hel hes => hslots e (hstay e he hel.1) hes.symm,fun failed _ => ?_⟩
        cases (failed : Option String) with
        | some error =>
          apply Program.keeps_return.mpr
          refine ⟨hleaves.of_entries (by rw [hw]),fun v hv => (by cases hv),fun e he hel => .inl ?_⟩
          rw [hw]
          exact hstay e he hel.1
        | none =>
          have hadd : (w.2.addEntry (keys.logSettingsKey address) w.1).entries=
              after.entries++[⟨keys.logSettingsKey address,w.1,after.tick+1⟩] := by rw [hw]; rfl
          have hstays : ∀e∈mid.entries,IsLegacy keys address e →
              e∈(w.2.addEntry (keys.logSettingsKey address) w.1).entries := by
            intro e he hel
            rw [hadd]
            exact List.mem_append_left _ (hstay e he hel.1)
          have hasks : ∀e∈mid.entries,IsLegacy keys address e → SparesEntry e
              (.writeMap (w.2.addEntry (keys.logSettingsKey address) w.1).mapDoc : StoreOp P F H) :=
            fun e he hel => mem_mapDoc (hstays e he hel)
          have hflush : ((w.2.addEntry (keys.logSettingsKey address) w.1).flush (P:=P) (F:=F) (H:=H)).Keeps gives
              (fun o => ∀e∈mid.entries,IsLegacy keys address e → SparesEntry e o) fun r =>
                r.1.entries=(w.2.addEntry (keys.logSettingsKey address) w.1).entries ∧ r.1.tick=after.tick+1 :=
            flush_keeps hasks fun _ _ => ⟨rfl,by rw [hw]; rfl⟩
          apply hflush.bind
          rintro ⟨last,failed⟩ ⟨hlast,htick⟩
          dsimp only at hlast htick
          apply Program.keeps_return.mpr
          have hw2 : w.2.entries=after.entries := by rw [hw]
          refine ⟨(hleaves.of_entries hw2).addEntry.of_entries hlast,fun v hv => ?_,fun e he hel => .inl ?_⟩
          · obtain rfl := Option.some_inj.mp hv
            refine ⟨?_,rfl⟩
            dsimp only
            rw [hlast,hadd,htick]
            simp
          · rw [hlast]
            exact hstays e he hel

private theorem entryFor_finds (hone : OneToOne st.entries) (address : String) :
    (st.entryFor (P:=P) (F:=F) (H:=H) keys address (keys.logSettingsKey address)).Keeps gives
      (fun o => ∀e∈st.entries,IsLegacy keys address e → SparesEntry e o)
      (Finds (P:=P) (F:=F) (H:=H) keys address st) := by
  rw [entryFor]
  cases hi : st.indexOf (keys.logSettingsKey address) with
  | none => exact adoptLegacyKey_finds hone hi
  | some v =>
    apply Program.keeps_return.mpr
    refine ⟨leaves_refl,fun u hu => ?_,fun e he _ => .inl he⟩
    obtain rfl := Option.some_inj.mp hu
    exact indexOf_get hi

private theorem readEntry_drops (st : LogFileStore) (rules : SectionRules F H) (key : String) (i : ℕ)
    (doc : Option (SlotDoc P F H)) :
    (st.readEntry rules key i doc).1.entries=st.entries ∨ (st.readEntry rules key i doc).1=st.dropEntry i := by
  cases doc with
  | none => exact .inr rfl
  | some d =>
    rw [readEntry]
    cases hd : d.fromJson with
    | none => exact .inl rfl
    | some s =>
      dsimp only
      split
      · exact .inl rfl
      · exact .inr rfl

/-- A read spares the legacy record on the disk, in the map and in memory, and takes out nothing else that it
may not. -/
theorem read_leaves (hone : OneToOne st.entries) (address : String) :
    (st.read keys rules address).Keeps gives (fun o : StoreOp P F H => ∀e∈st.entries,IsLegacy keys address e →
      SparesEntry e o)
      fun r => st.Leaves ((StoreCall.read address : StoreCall P F H).about keys)
          ((StoreCall.read address : StoreCall P F H).protects keys) r.1 ∧
        ∀e∈st.entries,IsLegacy keys address e → e∈r.1.entries ∨
        ∀x∈r.1.entries,x.address≠keys.logSettingsKey address := by
  rw [read]
  dsimp only
  split
  · exact Program.keeps_return.mpr ⟨leaves_refl,fun e he _ => .inl he⟩
  apply (entryFor_finds hone address).bind
  rintro ⟨mid,found⟩ ⟨hleaves,hfound,hlegacy⟩
  cases found with
  | none => exact Program.keeps_return.mpr ⟨hleaves,fun e he hel => (hlegacy e he hel).imp_right And.right⟩
  | some v =>
    obtain ⟨hget,hva⟩ := hfound v rfl
    have hstays : ∀e∈st.entries,IsLegacy keys address e → e∈mid.entries := by
      intro e he hel
      rcases hlegacy e he hel with h | ⟨h,-⟩
      · exact h
      · cases h
    apply Program.keeps_ask.mpr
    refine ⟨fun _ _ _ => trivial,fun doc _ => Program.keeps_return.mpr ?_⟩
    rcases readEntry_drops mid rules (keys.logSettingsKey address) v.1 (doc : Option (SlotDoc P F H)) with hd | hd
    · exact ⟨hleaves.of_entries hd,fun e he hel => .inl (hd ▸ hstays e he hel)⟩
    · rw [hd]
      refine ⟨fun x hx => ?_,fun e he hel => .inl (mem_dropEntry hget (hstays e he hel) ?_)⟩
      · rcases hleaves x hx with ⟨used,hu⟩ | h
        · by_cases hxa : x.address=keys.logSettingsKey address
          · exact .inr (.inl (.inl hxa))
          · refine .inl ⟨used,mem_dropEntry hget hu fun hv => ?_⟩
            rw [← hv] at hva
            exact hxa hva
        · exact .inr h
      · intro hev
        rw [← hev] at hva
        exact hel.2 hva

/-- What each operation leaves, and what a read spares. -/
theorem perform_leaves [DecidableEq P] [DecidableEq F] [DecidableEq H] (hone : OneToOne st.entries)
    (c : StoreCall P F H) :
    (c.perform keys rules st).Keeps gives
      (fun o => ∀address,c=.read address → ∀e∈st.entries,IsLegacy keys address e → SparesEntry e o)
      fun r => st.Leaves (c.about keys) (c.protects keys) r.1 ∧
        ∀address,c=.read address → ∀e∈st.entries,IsLegacy keys address e →
          e∈r.1.entries ∨ ∀x∈r.1.entries,x.address≠keys.logSettingsKey address := by
  cases c with
  | read address =>
    have hread : (st.read keys rules address).Keeps gives _ _ := read_leaves hone address
    have hasks : ∀o : StoreOp P F H,(∀e∈st.entries,IsLegacy keys address e → SparesEntry e o) →
        ∀a,StoreCall.read (P:=P) (F:=F) (H:=H) address=.read a → ∀e∈st.entries,IsLegacy keys a e →
          SparesEntry e o := by
      intro o ho a ha
      cases ha
      exact ho
    apply (hread.mono (fun _ _ h => h) hasks fun r hr => hr).bind
    intro r hr
    apply Program.keeps_return.mpr
    refine ⟨hr.1,fun a ha => ?_⟩
    cases ha
    exact hr.2
  | save s inherited =>
    apply ((save_leaves s inherited).mono (fun _ _ h => h) (fun o _ a ha => by cases ha) fun r hr => hr).bind
    exact fun r hr => Program.keeps_return.mpr ⟨hr,fun a ha => by cases ha⟩
  | remove address =>
    apply ((remove_leaves address).mono (fun _ _ h => h) (fun o _ a ha => by cases ha) fun r hr => hr).bind
    exact fun r hr => Program.keeps_return.mpr ⟨hr,fun a ha => by cases ha⟩
  | touch address =>
    apply Program.keeps_return.mpr
    refine ⟨fun x hx => .inl ?_,fun a ha => by cases ha⟩
    rw [touch]
    cases hi : st.indexOf (keys.logSettingsKey address) with
    | none => exact kept_of_mem hx
    | some v =>
      obtain ⟨n,hn⟩ := List.getElem?_of_mem hx
      have hget := (indexOf_get hi).1
      by_cases hnv : n=v.1
      · subst hnv
        obtain rfl := Option.some_inj.mp (hn.symm.trans hget)
        exact ⟨st.tick+1,List.mem_set (List.getElem?_eq_some_iff.mp hget).1 _⟩
      · refine kept_of_mem (List.mem_of_getElem? (i:=n) ?_)
        rw [List.getElem?_set_ne (Ne.symm hnv)]
        exact hn
  | setPinned addresses => exact Program.keeps_return.mpr ⟨leaves_refl,fun a ha => by cases ha⟩
  | flush =>
    have hflush : (st.flush (P:=P) (F:=F) (H:=H)).Keeps gives (fun _ => True) fun r => r.1.entries=st.entries :=
      flush_entries trivial
    apply (hflush.mono (fun _ _ h => h) (fun o _ a ha => by cases ha) fun r hr => hr).bind
    exact fun r hr => Program.keeps_return.mpr ⟨leaves_of_entries hr,fun a ha => by cases ha⟩
  | _ =>
    apply Program.keeps_trivial
    · intro o a ha
      cases ha
    · exact fun r => ⟨fun x _ => .inr (.inl trivial),fun a ha => by cases ha⟩

end LogFileStore

end Loftail
