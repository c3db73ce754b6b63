import Loftail.StoreInvariant

/-! # What the operations ask of the disk, and what they leave -/
namespace Loftail
variable {P F H : Type}

/-- What the program does with the store. -/
inductive StoreCall (P F H : Type)
  | load
  | read (address : String)
  | save (s : LogFileSettings P F H) (inherited : P)
  | remove (address : String)
  | touch (address : String)
  | setPinned (addresses : List String)
  | flush
  | pruneAgainst (inherited : String→P)
  | adoptLegacy (nodes : List (String×P)) (inherited : String→P)

namespace StoreCall
open LogFileStore

/-- The store that is left, and what a read answers. -/
def perform [DecidableEq P] [DecidableEq F] [DecidableEq H] (keys : StoreKeys) (rules : SectionRules F H)
    (st : LogFileStore) : StoreCall P F H→StoreProgram P F H (LogFileStore×Option (LogFileSettings P F H))
  | .load => do
    let st ← st.load
    pure (st,none)
  | .read address => do
    let (st,s) ← st.read keys rules address
    pure (st,some s)
  | .save s inherited => do
    let (st,_) ← st.save keys rules s inherited
    pure (st,none)
  | .remove address => do
    let (st,_) ← st.remove keys address
    pure (st,none)
  | .touch address => pure (st.touch keys address,none)
  | .setPinned addresses => pure (st.setPinned keys addresses,none)
  | .flush => do
    let (st,_) ← st.flush
    pure (st,none)
  | .pruneAgainst inherited => do
    let (st,_) ← st.pruneAgainst rules inherited
    pure (st,none)
  | .adoptLegacy nodes inherited => do
    let (st,_) ← st.adoptLegacy keys rules nodes inherited
    pure (st,none)

end StoreCall

/-- A record under an address of its own, without what its parents say as well. -/
def LogFileSettings.filed [DecidableEq P] (keys : StoreKeys) (rules : SectionRules F H) (s : LogFileSettings P F H)
    (inherited : P) : LogFileSettings P F H :=
  ({s with address := keys.logSettingsKey s.address} : LogFileSettings P F H).reduce rules inherited

/-- The records an operation brings to the store. -/
def StoreCall.records [DecidableEq P] (keys : StoreKeys) (rules : SectionRules F H) :
    StoreCall P F H→List (LogFileSettings P F H)
  | .save s inherited => [s.filed keys rules inherited]
  | .adoptLegacy nodes inherited =>
    nodes.map fun n =>
      ({(.blank rules n.1 : LogFileSettings P F H) with profile := some n.2} :
        LogFileSettings P F H).filed keys rules
        (inherited (keys.logSettingsKey n.1))
  | _ => []

/-- The addresses an operation reads, and may adopt for. -/
def StoreCall.reads : StoreCall P F H→List String
  | .read address => [address]
  | .adoptLegacy nodes _ => nodes.map Prod.fst
  | _ => []

@[simp] theorem LogFileSettings.fromJson_toJson (s : LogFileSettings P F H) : s.toJson.fromJson=some s := rfl

@[simp] theorem LogFileSettings.reduce_address [DecidableEq P] (rules : SectionRules F H)
    (s : LogFileSettings P F H) (inherited : P) : (s.reduce rules inherited).address=s.address := rfl

/-- The map file names no address and no slot twice, of the entries that count. -/
def MapDoc.OneToOne (doc : MapDoc) : Prop := Loftail.OneToOne (doc.entries.filterMap LogFileStore.claim)

namespace LogFileStore
variable {st st' : LogFileStore} {keys : StoreKeys} {rules : SectionRules F H}

theorem claim_raw {e : StoreEntry} (he : e.slot < kSlots) :
    claim ⟨e.address,e.slot,e.used⟩=if e.address="" then none else some e := by
  have hs : ¬((kSlots : ℤ)≤e.slot) := by omega
  have h0 : ¬((e.slot : ℤ) < 0) := by omega
  simp [claim,hs,h0]

private theorem mapDoc_oneToOne (h : OneToOne st.entries) : st.mapDoc.OneToOne := by
  have hclaims : ∀l : List StoreEntry,(∀e∈l,e.slot < kSlots) →
      ((l.map fun e => (⟨e.address,e.slot,e.used⟩ : RawEntry)).filterMap claim).Sublist l := by
    intro l hl
    induction l with
    | nil => exact .slnil
    | cons e l ih =>
      have hrest := ih fun x hx => hl x (by simp [hx])
      rw [List.map_cons,List.filterMap_cons,claim_raw (hl e (by simp))]
      by_cases ha : e.address=""
      · simpa [ha] using hrest.cons e
      · simpa [ha] using hrest.cons_cons e
  exact h.sublist (hclaims _ h.range)

/-- A map file without a duplicate is loaded without one. -/
theorem clear_of_oneToOne {raws : List RawEntry} (h : OneToOne (st.entries++raws.filterMap claim)) :
    st.allClear raws := by
  induction raws generalizing st with
  | nil => rfl
  | cons raw raws ih =>
    rw [allClear,Bool.and_eq_true,loadsClear]
    rw [List.filterMap_cons] at h
    cases hc : claim raw with
    | none =>
      rw [hc] at h
      refine ⟨rfl,ih ?_⟩
      simpa [loadEntry,hc] using h
    | some e =>
      rw [hc] at h
      have hl : ∀x∈st.entries,conflicts x e=false := fun x hx => (OneToOne.insert_iff.mp h).2.1 x (by simp [hx])
      refine ⟨settlesAlone_none hl,ih ?_⟩
      simpa [loadEntry,hc,settleEntry_none.mpr hl] using h

/-- What is loaded from a map file without a duplicate is what the map file says. -/
theorem foldl_loadEntry {raws : List RawEntry} (h : OneToOne (st.entries++raws.filterMap claim)) :
    (raws.foldl loadEntry st).entries=st.entries++raws.filterMap claim := by
  induction raws generalizing st with
  | nil => simp
  | cons raw raws ih =>
    rw [List.filterMap_cons] at h
    rw [List.foldl_cons,List.filterMap_cons]
    cases hc : claim raw with
    | none =>
      rw [hc] at h
      have hst : (st.loadEntry raw).entries=st.entries := by simp [loadEntry,hc]
      rw [← hst]
      apply ih
      rwa [hst]
    | some e =>
      rw [hc] at h
      have hl : ∀x∈st.entries,conflicts x e=false := fun x hx => (OneToOne.insert_iff.mp h).2.1 x (by simp [hx])
      have hst : (st.loadEntry raw).entries=st.entries++[e] := by simp [loadEntry,hc,settleEntry_none.mpr hl]
      rw [ih (by simpa [hst] using h),hst,List.append_assoc,List.singleton_append]

/-- A load settles the entries and moves the tick. -/
theorem foldl_loadEntry_flags (raws : List RawEntry) :
    (raws.foldl loadEntry st).pinned=st.pinned ∧ (raws.foldl loadEntry st).fromFuture=st.fromFuture ∧
      (raws.foldl loadEntry st).readOnly=st.readOnly := by
  induction raws generalizing st with
  | nil => exact ⟨rfl,rfl,rfl⟩
  | cons raw raws ih =>
    rw [List.foldl_cons,ih.1,ih.2.1,ih.2.2,loadEntry]
    cases claim raw with
    | none => exact ⟨rfl,rfl,rfl⟩
    | some e =>
      dsimp only
      cases settleEntry e st.entries <;> exact ⟨rfl,rfl,rfl⟩

/-! ## What the disk answers, and what it is asked -/

section Operations
variable (good : LogFileSettings P F H→Prop) (clear : MapDoc→Prop)

/-- Slot files of the pool each once, records that are `good` and map files that are `clear`. -/
def Gives : (o : StoreOp P F H)→StoreAnswer P F H o→Prop
  | .readMap,doc => ∀d : MapDoc,doc=some d → clear d
  | .listSlots,names => ∃l : List ℕ,names=l ∧ l.Nodup ∧ ∀n∈l,n < kSlots
  | .readSlot _,doc => ∀(d : SlotDoc P F H) (r : LogFileSettings P F H),doc=some d → d.fromJson=some r → good r
  | _,_ => True

/-- Only records that are `good` go to the slot files of the pool, and only one-to-one maps to the map file. -/
def Asks : StoreOp P F H→Prop
  | .writeSlot n doc => n < kSlots ∧ ∀r,doc.fromJson=some r → good r
  | .writeMap doc => doc.OneToOne
  | _ => True

variable {good clear}

/-- Only the mark that the map has moved may change. -/
theorem flush_keeps {gives : (o : StoreOp P F H)→StoreAnswer P F H o→Prop} {asks : StoreOp P F H→Prop}
    {ends : LogFileStore×Option String→Prop} (hm : asks (.writeMap st.mapDoc))
    (hends : ∀dirty error,ends ({st with mapDirty := dirty},error)) : (st.flush).Keeps gives asks ends := by
  rw [flush]
  split
  · exact hends st.mapDirty none
  · refine ⟨hm,fun failed _ => ?_⟩
    cases (failed : Option String) with
    | some error => exact hends st.mapDirty (some error)
    | none => exact hends false none

theorem flush_oneToOne (hone : OneToOne st.entries) :
    (st.flush).Keeps (Gives good clear) (Asks good) fun r => OneToOne r.1.entries :=
  flush_keeps (mapDoc_oneToOne hone) fun _ _ => hone

/-! ## One operation after another -/

theorem remove_keeps (hone : OneToOne st.entries) (address : String) :
    (st.remove keys address).Keeps (Gives good clear) (Asks good) fun r => OneToOne r.1.entries := by
  rw [remove]
  split
  · exact hone
  · cases hi : st.indexOf (keys.logSettingsKey address) with
    | none => exact hone
    | some v =>
      have hdrop : OneToOne (st.dropEntry v.1).entries := hone.sublist dropEntry_sublist
      apply (flush_oneToOne hdrop).bind
      intro r hr
      exact ⟨trivial,fun _ _ => hr⟩

theorem save_keeps [DecidableEq P] (hone : OneToOne st.entries) (s : LogFileSettings P F H) (inherited : P)
    (hs : good (s.filed keys rules inherited)) :
    (st.save keys rules s inherited).Keeps (Gives good clear) (Asks good) fun r => OneToOne r.1.entries := by
  rw [save]
  dsimp only [LogFileSettings.reduce_address]
  split
  · exact hone
  split
  · exact hone
  split
  · apply (remove_keeps hone _).bind
    exact fun r hr => hr
  · cases hf : st.slotFor (keys.logSettingsKey s.address) with
    | none => simpa [hf] using hone
    | some v =>
      obtain ⟨hone',hlt,-⟩ := slotFor_some hone hf
      apply Program.keeps_ask.mpr
      refine ⟨⟨hlt,fun r hr => ?_⟩,fun failed _ => ?_⟩
      · obtain rfl := Option.some_inj.mp hr
        exact hs
      · cases (failed : Option String) with
        | some error => exact hone'
        | none =>
          apply (flush_oneToOne hone').bind
          exact fun r hr => hr

theorem legacyRecord_some {legacy : String} {i : ℕ} {doc : Option (SlotDoc P F H)} {r : LogFileSettings P F H}
    (h : st.legacyRecord legacy i doc=(st',some r)) :
    st'=st ∧ r.address=legacy ∧ ∃d,doc=some d ∧ d.fromJson=some r := by
  cases doc with
  | none => cases h
  | some d =>
    rw [legacyRecord] at h
    cases hd : d.fromJson with
    | none => simp [hd] at h
    | some s =>
      simp only [hd] at h
      split at h
      · rename_i ha
        obtain ⟨rfl,hs⟩ := Prod.mk.inj h
        obtain rfl := Option.some_inj.mp hs
        exact ⟨rfl,ha,d,rfl,hd⟩
      · cases h

private theorem legacyRecord_sublist (st : LogFileStore) (legacy : String) (i : ℕ) (doc : Option (SlotDoc P F H)) :
    (st.legacyRecord legacy i doc).1.entries.Sublist st.entries := by
  cases doc with
  | none => exact dropEntry_sublist
  | some d =>
    rw [legacyRecord]
    cases hd : d.fromJson with
    | none => exact List.Sublist.refl _
    | some s =>
      simp only
      split
      · exact List.Sublist.refl _
      · exact dropEntry_sublist

/-- An allocation with the legacy record protected is an allocation. -/
theorem allocateBeside_some {legacy : String} {slot : ℕ} (h : st.allocateBeside legacy=some (slot,st')) :
    ∃after,(st.beside legacy).allocateSlot=some (slot,after) ∧ st'={after with pinned := st.pinned} := by
  obtain ⟨⟨n,after⟩,ha,he⟩ := Option.map_eq_some_iff.mp h
  obtain ⟨rfl,rfl⟩ := Prod.mk.inj he
  exact ⟨after,ha,rfl⟩

/-- What is adopted for an address is good where a copy of what is good is. -/
def Copies (keys : StoreKeys) (good : LogFileSettings P F H→Prop) (address : String) : Prop :=
  ∀r,good r → r.address=keys.legacyLogSettingsKey address → keys.legacyLogSettingsKey address≠"" →
    keys.legacyLogSettingsKey address≠keys.logSettingsKey address →
      good {r with address := keys.logSettingsKey address}

private theorem adoptLegacyKey_keeps {address : String} (hone : OneToOne st.entries)
    (hcopy : Copies keys good address) (hk : st.indexOf (keys.logSettingsKey address)=none) :
    (st.adoptLegacyKey (P:=P) (F:=F) (H:=H) keys address (keys.logSettingsKey address)).Keeps
    (Gives good clear) (Asks good)
      fun r => OneToOne r.1.entries := by
  rw [adoptLegacyKey]
  split
  · exact hone
  rename_i hlegacy
  rw [not_or] at hlegacy
  cases hi : st.indexOf (keys.legacyLogSettingsKey address) with
  | none => exact hone
  | some v =>
    apply Program.keeps_ask.mpr
    refine ⟨trivial,fun doc hdoc => ?_⟩
    cases hl : st.legacyRecord (keys.legacyLogSettingsKey address) v.1 (doc : Option (SlotDoc P F H)) with
    | mk mid record =>
    have hmid : OneToOne mid.entries := by
      have hsub := legacyRecord_sublist st (keys.legacyLogSettingsKey address) v.1 (doc : Option (SlotDoc P F H))
      rw [hl] at hsub
      exact hone.sublist hsub
    cases record with
    | none => simpa [hl] using hmid
    | some r =>
      obtain ⟨rfl,ha,d,rfl,hd⟩ := legacyRecord_some hl
      dsimp only
      cases hb : mid.allocateBeside (keys.legacyLogSettingsKey address) with
      | none => simpa [hb] using hone
      | some w =>
        obtain ⟨after,hafter,hw⟩ := allocateBeside_some hb
        have hone : OneToOne (mid.beside (keys.legacyLogSettingsKey address)).entries := hone
        have hnew : OneToOne (after.addEntry (keys.logSettingsKey address) w.1).entries :=
          allocate_oneToOne hone hafter (indexOf_none.mp hk)
        have hlt := (allocateSlot_apart hone hafter).1
        apply Program.keeps_ask.mpr
        refine ⟨⟨hlt,fun s hs => ?_⟩,fun failed _ => ?_⟩
        · obtain rfl := Option.some_inj.mp hs
          exact hcopy r (hdoc d r rfl hd) ha hlegacy.1 hlegacy.2
        · cases (failed : Option String) with
          | some error =>
            rw [hw]
            exact hone.sublist (allocateSlot_apart hone hafter).2.1
          | none =>
            have hadd : OneToOne (w.2.addEntry (keys.logSettingsKey address) w.1).entries := by
              rw [hw]
              exact hnew
            apply (flush_oneToOne hadd).bind
            exact fun r hr => hr

private theorem entryFor_keeps {address : String} (hone : OneToOne st.entries) (hcopy : Copies keys good address) :
    (st.entryFor (P:=P) (F:=F) (H:=H) keys address (keys.logSettingsKey address)).Keeps
    (Gives good clear) (Asks good)
      fun r => OneToOne r.1.entries := by
  rw [entryFor]
  cases hi : st.indexOf (keys.logSettingsKey address) with
  | some found => exact hone
  | none => exact adoptLegacyKey_keeps hone hcopy hi

private theorem readEntry_sublist {i : ℕ} {doc : Option (SlotDoc P F H)} {key : String} :
    (st.readEntry rules key i doc).1.entries.Sublist st.entries := by
  cases doc with
  | none => exact dropEntry_sublist
  | some d =>
    rw [readEntry]
    cases hd : d.fromJson with
    | none => exact List.Sublist.refl _
    | some s =>
      simp only
      split
      · exact List.Sublist.refl _
      · exact dropEntry_sublist

/-- The file wins: what is read names the log that reads it, or nothing is. -/
theorem readEntry_answer (st : LogFileStore) (rules : SectionRules F H) (key : String) (i : ℕ)
    (doc : Option (SlotDoc P F H)) :
    (st.readEntry rules key i doc).2=.blank rules key ∨
      (st.readEntry rules key i doc).2.address=key ∧ ∃d,doc=some d ∧ d.fromJson=some
      (st.readEntry rules key i doc).2 := by
  cases doc with
  | none => exact .inl rfl
  | some d =>
    rw [readEntry]
    cases hd : d.fromJson with
    | none => exact .inl rfl
    | some s =>
      by_cases ha : s.address=key
      · exact .inr (by simp [ha,hd])
      · exact .inl (by simp [ha])

theorem read_keeps {address : String} (hone : OneToOne st.entries) (hcopy : Copies keys good address) :
    (st.read keys rules address).Keeps (Gives good clear) (Asks good) fun r =>
      OneToOne r.1.entries ∧
        (r.2=.blank rules (keys.logSettingsKey address) ∨ good r.2 ∧ r.2.address=keys.logSettingsKey address) := by
  rw [read]
  dsimp only
  split
  · exact ⟨hone,.inl rfl⟩
  apply (entryFor_keeps hone hcopy).bind
  rintro ⟨mid,found⟩ hmid
  cases found with
  | none => exact ⟨hmid,.inl rfl⟩
  | some v =>
    apply Program.keeps_ask.mpr
    refine ⟨trivial,fun doc hdoc => ⟨hmid.sublist readEntry_sublist,?_⟩⟩
    rcases readEntry_answer mid rules (keys.logSettingsKey address) v.1 (doc :
      Option (SlotDoc P F H)) with hb | ⟨ha,d,hd,hr⟩
    · exact .inl hb
    · exact .inr ⟨hdoc d _ hd hr,ha⟩

/-! ## Sweeps -/

/-- What is swept is good where a record without what its parents say as well is. -/
def Sweeps [DecidableEq P] (rules : SectionRules F H) (good : LogFileSettings P F H→Prop)
    (inherited : String→P) : Prop :=
  ∀r,good r → good (r.reduce rules (inherited r.address))

private theorem pruneEntry_keeps [DecidableEq P] [DecidableEq F] [DecidableEq H] {inherited : String→P}
    (hone : OneToOne st.entries)
    (hsweep : Sweeps rules good inherited) (i : ℕ) {e : StoreEntry} (he : e∈st.entries)
    (doc : Option (SlotDoc P F H)) (hdoc : ∀d r,doc=some d → d.fromJson=some r → good r) :
    OneToOne (st.pruneEntry rules inherited i e doc).1.entries ∧
      ∀o,(st.pruneEntry rules inherited i e doc).2.2=some o → Asks good o := by
  have hdrop : OneToOne (st.dropEntry i).entries := hone.sublist dropEntry_sublist
  cases doc with
  | none => exact ⟨hdrop,fun o ho => by cases ho⟩
  | some d =>
    rw [pruneEntry]
    cases hd : d.fromJson with
    | none => exact ⟨hone,fun o ho => by cases ho⟩
    | some before =>
      dsimp only
      split
      · exact ⟨hdrop,fun o ho => by cases ho⟩
      rename_i ha
      split
      · exact ⟨hone,fun o ho => by cases ho⟩
      split
      · refine ⟨hdrop,fun o ho => ?_⟩
        obtain rfl := Option.some_inj.mp ho
        trivial
      · refine ⟨hone,fun o ho => ?_⟩
        obtain rfl := Option.some_inj.mp ho
        refine ⟨hone.range e he,fun r hr => ?_⟩
        obtain rfl := Option.some_inj.mp hr
        rw [← not_not.mp ha]
        exact hsweep before (hdoc d before rfl hd)

private theorem pruneLoop_keeps [DecidableEq P] [DecidableEq F] [DecidableEq H] {inherited : String→P}
    (hone : OneToOne st.entries) (hsweep : Sweeps rules good inherited) (i changed : ℕ) :
    (pruneLoop rules inherited i st changed).Keeps (Gives good clear) (Asks good) fun r =>
    OneToOne r.1.entries := by
  induction i generalizing st changed with
  | zero => exact hone
  | succ i ih =>
    rw [pruneLoop]
    cases hi : st.entries[i]? with
    | none => exact ih hone changed
    | some e =>
      apply Program.keeps_ask.mpr
      refine ⟨trivial,fun doc hdoc => ?_⟩
      obtain ⟨hone',hask⟩ := pruneEntry_keeps hone hsweep i (List.mem_of_getElem? hi) doc hdoc
      generalize st.pruneEntry rules inherited i e doc=res at hone' hask
      obtain ⟨mid,moved,act⟩ := res
      cases act with
      | none => exact ih hone' _
      | some o => exact Program.keeps_ask.mpr ⟨hask o rfl,fun _ _ => ih hone' _⟩

private theorem pruneAgainst_keeps [DecidableEq P] [DecidableEq F] [DecidableEq H] {inherited : String→P}
    (hone : OneToOne st.entries) (hsweep : Sweeps rules good inherited) :
    (st.pruneAgainst rules inherited).Keeps (Gives good clear) (Asks good) fun r => OneToOne r.1.entries := by
  rw [pruneAgainst]
  split
  · exact hone
  apply (pruneLoop_keeps hone hsweep _ _).bind
  intro r hr
  apply (flush_oneToOne hr).bind
  exact fun r hr => hr

/-! ## The one-time drain -/

private theorem adoptNodes_keeps [DecidableEq P] {inherited : String→P} (hone : OneToOne st.entries)
    {nodes : List (String×P)} (hcopy : ∀n∈nodes,Copies keys good n.1)
    (hnodes : ∀n∈nodes,good (({(.blank rules n.1 : LogFileSettings P F H) with
      profile := some n.2} : LogFileSettings P F H).filed keys rules (inherited (keys.logSettingsKey n.1))))
      (adopted : ℕ) :
    (adoptNodes keys rules inherited nodes st adopted).Keeps (Gives good clear) (Asks good)
      fun r => OneToOne r.1.entries := by
  induction nodes generalizing st adopted with
  | nil => exact hone
  | cons n nodes ih =>
    have hcopies : ∀n∈nodes,_ := fun x hx => hcopy x (List.mem_cons_of_mem _ hx)
    have hrest : ∀n∈nodes,_ := fun x hx => hnodes x (List.mem_cons_of_mem _ hx)
    rw [adoptNodes]
    split
    · exact ih hone hcopies hrest adopted
    apply (read_keeps hone (hcopy n List.mem_cons_self)).bind
    rintro ⟨mid,existing⟩ ⟨hmid,-⟩
    dsimp only
    split
    · exact ih hmid hcopies hrest adopted
    apply (save_keeps hmid _ _ (hnodes n List.mem_cons_self)).bind
    exact fun r hr => ih hr hcopies hrest _

private theorem adoptLegacy_keeps [DecidableEq P] {inherited : String→P} (hone : OneToOne st.entries)
    {nodes : List (String×P)} (hcopy : ∀n∈nodes,Copies keys good n.1)
    (hnodes : ∀n∈nodes,good (({(.blank rules n.1 : LogFileSettings P F H) with
      profile := some n.2} : LogFileSettings P F H).filed keys rules (inherited (keys.logSettingsKey n.1)))) :
    (st.adoptLegacy keys rules nodes inherited).Keeps (Gives good clear) (Asks good) fun r =>
      OneToOne r.1.entries := by
  unfold adoptLegacy
  split
  · exact hone
  · generalize nodes.length-kSlots=first
    exact adoptNodes_keeps hone (fun n hn => hcopy n (List.mem_of_mem_drop hn))
      (fun n hn => hnodes n (List.mem_of_mem_drop hn)) 0

/-! ## Loading -/

private theorem rebuildEntry_oneToOne (hone : OneToOne st.entries) {slot : ℕ} (hlt : slot < kSlots)
    (hs : ∀e∈st.entries,e.slot≠slot) (doc : Option (SlotDoc P F H)) : OneToOne
    (st.rebuildEntry slot doc).entries := by
  cases doc with
  | none => exact hone
  | some d =>
    rw [rebuildEntry]
    split
    · exact hone
    · rename_i hn
      rw [not_or,Bool.not_eq_true,Option.isSome_eq_false_iff,Option.isNone_iff_eq_none,indexOf_none] at hn
      apply hone.append_one ?_ hlt
      exact fun x hx => OneToOne.conflicts_eq_false.mpr ⟨hn.2 x hx,hs x hx⟩

private theorem rebuildEntry_slots {slot : ℕ} {doc : Option (SlotDoc P F H)} {e : StoreEntry}
    (he : e∈(st.rebuildEntry slot doc).entries) : e∈st.entries ∨ e.slot=slot := by
  cases doc with
  | none => exact .inl he
  | some d =>
    rw [rebuildEntry] at he
    split at he
    · exact .inl he
    · rcases List.mem_append.mp he with he | he
      · exact .inl he
      · obtain rfl := List.mem_singleton.mp he
        exact .inr rfl

private theorem rebuildLoop_keeps {names : List ℕ} (hone : OneToOne st.entries) (hnames : names.Nodup)
    (hlt : ∀n∈names,n < kSlots) (hs : ∀e∈st.entries,e.slot∉names) :
    (st.rebuildLoop (P:=P) (F:=F) (H:=H) names).Keeps (Gives good clear) (Asks good) fun st =>
    OneToOne st.entries := by
  induction names generalizing st with
  | nil => exact hone
  | cons slot names ih =>
    obtain ⟨hslot,hrest⟩ := List.nodup_cons.mp hnames
    rw [rebuildLoop]
    apply Program.keeps_ask.mpr
    refine ⟨trivial,fun doc _ => ih ?_ hrest (fun n hn => hlt n (List.mem_cons_of_mem _ hn)) fun e he => ?_⟩
    · apply rebuildEntry_oneToOne hone (hlt slot List.mem_cons_self)
      exact fun e he hslot => hs e he (by simp [hslot])
    · rcases rebuildEntry_slots he with he | rfl
      · exact fun hn => hs e he (List.mem_cons_of_mem _ hn)
      · exact hslot

/-- A map file that counts is loaded without a duplicate. -/
def ClearMap (doc : MapDoc) : Prop := judge doc.version kSchemaVersion=.usable → initial.allClear doc.entries

private theorem allClear_entries {raws : List RawEntry} (h : st.entries=st'.entries) :
    st.allClear raws=st'.allClear raws := by
  induction raws generalizing st st' with
  | nil => rfl
  | cons raw raws ih =>
    have hnext : (st.loadEntry raw).entries=(st'.loadEntry raw).entries := by
      rw [loadEntry,loadEntry]
      cases claim raw with
      | none => exact h
      | some e =>
        dsimp only
        rw [h]
        cases settleEntry e st'.entries <;> rfl
    rw [allClear,allClear,ih hnext,loadsClear,loadsClear,h]

private theorem load_keeps (hclear : ∀doc,clear doc → ClearMap doc) :
    (st.load (P:=P) (F:=F) (H:=H)).Keeps (Gives good clear) (Asks good) fun st => OneToOne st.entries := by
  have hrebuild : ∀mid : LogFileStore,mid.entries=[] →
      (mid.rebuildFromSlots (P:=P) (F:=F) (H:=H)).Keeps (Gives good clear) (Asks good) fun st =>
        OneToOne st.entries := by
    intro mid hmid
    rw [rebuildFromSlots]
    apply Program.keeps_ask.mpr
    refine ⟨trivial,?_⟩
    rintro _ ⟨names,rfl,hnames,hlt⟩
    apply rebuildLoop_keeps _ hnames hlt
    · simp [hmid]
    · rw [hmid]
      exact .nil
  rw [load]
  apply Program.keeps_ask.mpr
  refine ⟨trivial,fun doc hdoc => ?_⟩
  cases doc with
  | none => exact hrebuild _ rfl
  | some d =>
    dsimp only
    cases hj : judge d.version kSchemaVersion with
    | fromFuture => exact .nil
    | unstamped => exact hrebuild _ rfl
    | usable =>
      apply load_oneToOne
      · exact .nil
      · exact (allClear_entries (by rfl)).trans (hclear d (hdoc d rfl) hj)

/-! ## The others -/

private theorem touch_oneToOne (hone : OneToOne st.entries) (address : String) : OneToOne
    (st.touch keys address).entries := by
  rw [touch]
  cases hi : st.indexOf (keys.logSettingsKey address) with
  | none => exact hone
  | some v => exact hone.set_used (indexOf_get hi).1 _

/-- Each operation keeps the addresses and the slots one-to-one and asks only what it may, and a read
answers a good record of its own address or nothing. -/
theorem perform_keeps [DecidableEq P] [DecidableEq F] [DecidableEq H] (hone : OneToOne st.entries)
    (hclear : ∀doc,clear doc → ClearMap doc) {c : StoreCall P F H}
    (hcopy : ∀address∈c.reads,Copies keys good address)
    (hrecords : ∀r∈c.records keys rules,good r) (hsweep : ∀inherited,c=.pruneAgainst inherited →
      Sweeps rules good inherited) :
    (c.perform keys rules st).Keeps (Gives good clear) (Asks good) fun r =>
      OneToOne r.1.entries ∧ ∀address,c=.read address → ∃s,r.2=some s ∧
        (s=.blank rules (keys.logSettingsKey address) ∨ good s ∧ s.address=keys.logSettingsKey address) := by
  cases c with
  | load =>
    apply (load_keeps hclear).bind
    exact fun st hst => ⟨hst,fun _ hc => by cases hc⟩
  | read address =>
    apply (read_keeps hone (hcopy address List.mem_cons_self)).bind
    intro r hr
    refine ⟨hr.1,fun a ha => ?_⟩
    cases ha
    exact ⟨r.2,rfl,hr.2⟩
  | save s inherited =>
    apply (save_keeps hone s inherited (hrecords _ List.mem_cons_self)).bind
    exact fun r hr => ⟨hr,fun _ hc => by cases hc⟩
  | remove address =>
    apply (remove_keeps hone address).bind
    exact fun r hr => ⟨hr,fun _ hc => by cases hc⟩
  | touch address => exact ⟨touch_oneToOne hone address,fun _ hc => by cases hc⟩
  | setPinned addresses => exact ⟨hone,fun _ hc => by cases hc⟩
  | flush =>
    apply (flush_oneToOne hone).bind
    exact fun r hr => ⟨hr,fun _ hc => by cases hc⟩
  | pruneAgainst inherited =>
    apply (pruneAgainst_keeps hone (hsweep inherited rfl)).bind
    exact fun r hr => ⟨hr,fun _ hc => by cases hc⟩
  | adoptLegacy nodes inherited =>
    apply (adoptLegacy_keeps hone (fun n hn => hcopy _ (List.mem_map_of_mem hn)) fun n hn =>
      hrecords _ (List.mem_map_of_mem hn)).bind
    exact fun r hr => ⟨hr,fun _ hc => by cases hc⟩

end Operations

end LogFileStore

end Loftail
