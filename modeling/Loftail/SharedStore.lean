import Loftail.StoreEvictions
import Loftail.StoreRuns

/-! # Several instances on one store

Each instance has a store of its own in memory and does one file operation at a time; between any two of them
another instance may do one, a newer build may write, and the instance itself may die. -/
namespace Loftail
variable {P F H ι : Type}

/-- Between two operations, or in the middle of one that began with the store `before`. -/
inductive Session (P F H : Type)
  | idle (st : LogFileStore)
  | running (c : StoreCall P F H) (before : LogFileStore)
      (rest : StoreProgram P F H (LogFileStore×Option (LogFileSettings P F H)))

/-- The disk, the instances, and every operation begun so far. -/
structure SharedStore (ι P F H : Type) where
  disk : StoreDisk P F H
  sessions : ι→Session P F H
  called : List (StoreCall P F H)

variable [DecidableEq P]

/-- The records that were put under an address: by a save or the drain, as the copy of the record of a legacy
key that an operation has read for, or as what a sweep has left of one. -/
inductive Filed (keys : StoreKeys) (rules : SectionRules F H) (called : List (StoreCall P F H)) :
    LogFileSettings P F H→Prop
  | saved {c r} (hc : c∈called) (hr : r∈c.records keys rules) : Filed keys rules called r
  | copied {c address r} (hc : c∈called) (hread : address∈c.reads) (h : Filed keys rules called r)
      (ha : r.address=keys.legacyLogSettingsKey address) (hl : keys.legacyLogSettingsKey address≠"")
      (hk : keys.legacyLogSettingsKey address≠keys.logSettingsKey address) :
      Filed keys rules called {r with address := keys.logSettingsKey address}
  | swept {inherited r} (hc : .pruneAgainst inherited∈called) (h : Filed keys rules called r) :
      Filed keys rules called (r.reduce rules (inherited r.address))

namespace SharedStore
open LogFileStore

variable {keys : StoreKeys} {rules : SectionRules F H} {called called' : List (StoreCall P F H)}
  {r : LogFileSettings P F H}

theorem filed_mono (hsub : called⊆called') (h : Filed keys rules called r) : Filed keys rules called' r := by
  induction h with
  | saved hc hr => exact .saved (hsub hc) hr
  | copied hc hread _ ha hl hk ih => exact .copied (hsub hc) hread ih ha hl hk
  | swept hc _ ih => exact .swept (hsub hc) ih

private theorem filed_copies {c : StoreCall P F H} (hc : c∈called) (address : String) (hread : address∈c.reads) :
    Copies keys (Filed keys rules called) address := fun _ h ha hl hk => .copied hc hread h ha hl hk

/-- A canonical spelling is its own canonical spelling. -/
def KeysSettle (keys : StoreKeys) : Prop :=
  ∀address,keys.legacyLogSettingsKey address≠"" →
    keys.legacyLogSettingsKey (keys.legacyLogSettingsKey address)="" ∨
      keys.legacyLogSettingsKey (keys.legacyLogSettingsKey address)=keys.legacyLogSettingsKey address

/-- Every log is asked for by its normalised address. -/
def CleanReads (keys : StoreKeys) (called : List (StoreCall P F H)) : Prop :=
  ∀c∈called,∀address∈c.reads,keys.logSettingsKey address=address

def IsSaved (keys : StoreKeys) (rules : SectionRules F H) (called : List (StoreCall P F H))
    (r : LogFileSettings P F H) : Prop :=
  ∃c∈called,r∈c.records keys rules

/-- The copy of a record that was saved for the legacy key of an address that was read. -/
def IsCopied (keys : StoreKeys) (rules : SectionRules F H) (called : List (StoreCall P F H))
    (r : LogFileSettings P F H) : Prop :=
  ∃c∈called,∃address∈c.reads,∃s,IsSaved keys rules called s ∧ s.address=keys.legacyLogSettingsKey address ∧
    keys.legacyLogSettingsKey address≠"" ∧ keys.legacyLogSettingsKey address≠keys.logSettingsKey address ∧
      r={s with address := keys.logSettingsKey address}

/-- What an operation asks of the disk. -/
def Asked (keys : StoreKeys) (rules : SectionRules F H) (called : List (StoreCall P F H)) (c : StoreCall P F H)
    (before : LogFileStore) (o : StoreOp P F H) : Prop :=
  Asks (Filed keys rules called) o ∧
    ∀address,c=.read address → ∀e∈before.entries,IsLegacy keys address e → SparesEntry e o

/-- What an operation ends with. -/
def Ended (keys : StoreKeys) (rules : SectionRules F H) (called : List (StoreCall P F H)) (c : StoreCall P F H)
    (before : LogFileStore) (r : LogFileStore×Option (LogFileSettings P F H)) : Prop :=
  (OneToOne r.1.entries ∧ ∀address,c=.read address → ∃s,r.2=some s ∧
    (s=.blank rules (keys.logSettingsKey address) ∨ Filed keys rules called s ∧
      s.address=keys.logSettingsKey address)) ∧
  before.Leaves (c.about keys) (c.protects keys) r.1 ∧
    ∀address,c=.read address → ∀e∈before.entries,IsLegacy keys address e →
      e∈r.1.entries ∨ ∀x∈r.1.entries,x.address≠keys.logSettingsKey address

/-- A session may go on whatever is called meanwhile. -/
def Session.Sound (keys : StoreKeys) (rules : SectionRules F H) (called : List (StoreCall P F H)) :
    Session P F H→Prop
  | .idle st => OneToOne st.entries
  | .running c before rest => ∀called',called⊆called' →
    rest.Keeps (Gives (Filed keys rules called') MapDoc.OneToOne) (Asked keys rules called' c before)
      (Ended keys rules called' c before)

structure Sound (keys : StoreKeys) (rules : SectionRules F H) (s : SharedStore ι P F H) : Prop where
  filed : ∀n doc r,s.disk.slots n=some doc → doc.fromJson=some r → Filed keys rules s.called r
  map : ∀doc,s.disk.map=some doc → doc.OneToOne
  sessions : ∀i,Session.Sound keys rules s.called (s.sessions i)

theorem Session.Sound.mono {s : Session P F H} (h : Session.Sound keys rules called s) (hsub : called⊆called') :
    Session.Sound keys rules called' s := by
  cases s with
  | idle st => exact h
  | running c before rest => exact fun called'' hsub' => h called'' fun _ hx => hsub' (hsub hx)

/-- The disk answers what it may while it is sound. -/
theorem Sound.gives {s : SharedStore ι P F H} (h : Sound keys rules s) {o : StoreOp P F H} {x : StoreAnswer P F H o}
    {d : StoreDisk P F H} (hd : s.disk.Does o x d) : Gives (Filed keys rules s.called) MapDoc.OneToOne o x := by
  cases o with
  | readMap => exact fun doc hdoc => h.map doc (hd.1 ▸ hdoc)
  | listSlots =>
    obtain ⟨⟨l,hl,hnodup,hmem⟩,-⟩ := hd
    exact ⟨l,hl,hnodup,fun n hn => ((hmem n).mp hn).1⟩
  | readSlot n => exact fun doc r hdoc hr => h.filed n doc r (hd.1 ▸ hdoc) hr
  | _ => trivial

/-- One slot file is written. -/
theorem filed_update {slots : ℕ→Option (SlotDoc P F H)} {n : ℕ} {doc : Option (SlotDoc P F H)}
    (h : ∀m d r,slots m=some d → d.fromJson=some r → Filed keys rules called r)
    (hdoc : ∀d r,doc=some d → d.fromJson=some r → Filed keys rules called r) (m : ℕ) (d : SlotDoc P F H)
    (r : LogFileSettings P F H) (hm : Function.update slots n doc m=some d) (hr : d.fromJson=some r) :
    Filed keys rules called r := by
  by_cases hmn : m=n
  · subst hmn
    rw [Function.update_self] at hm
    exact hdoc d r hm hr
  · rw [Function.update_of_ne hmn] at hm
    exact h m d r hm hr

/-- What is asked keeps the disk sound. -/
theorem Sound.disk {s : SharedStore ι P F H} (h : Sound keys rules s) {o : StoreOp P F H} {x : StoreAnswer P F H o}
    {d : StoreDisk P F H} (hask : Asks (Filed keys rules s.called) o) (hd : s.disk.Does o x d) :
    (∀n doc r,d.slots n=some doc → doc.fromJson=some r → Filed keys rules s.called r) ∧ ∀doc,d.map=some doc →
    doc.OneToOne := by
  have hsame (he : d=s.disk) : (∀n doc r,d.slots n=some doc → doc.fromJson=some r → Filed keys rules s.called r) ∧
      ∀doc,d.map=some doc → doc.OneToOne := he ▸ ⟨h.filed,h.map⟩
  cases o with
  | readMap => exact hsame hd.2
  | listSlots => exact hsame hd.2
  | readSlot n => exact hsame hd.2
  | writeSlot n doc =>
    cases (x : Option String) with
    | some error => exact hsame hd
    | none =>
      have hd : d=⟨s.disk.map,Function.update s.disk.slots n (some doc)⟩ := hd
      subst hd
      refine ⟨filed_update h.filed fun d r hdr hr => ?_,h.map⟩
      obtain rfl := Option.some_inj.mp hdr
      exact hask.2 r hr
  | writeMap doc =>
    cases (x : Option String) with
    | some error => exact hsame hd
    | none =>
      have hd : d=⟨some doc,s.disk.slots⟩ := hd
      subst hd
      refine ⟨h.filed,fun doc' hdoc => ?_⟩
      obtain rfl := Option.some_inj.mp hdoc
      exact hask
  | removeSlot n =>
    rcases hd with rfl | rfl
    · exact ⟨filed_update h.filed fun d r hdr _ => (by cases hdr),h.map⟩
    · exact ⟨h.filed,h.map⟩

theorem sessions_update [DecidableEq ι] {s : SharedStore ι P F H} {i : ι} {t : Session P F H}
    (h : ∀j,Session.Sound keys rules called (s.sessions j)) (ht : Session.Sound keys rules called t) (j : ι) :
    Session.Sound keys rules called (Function.update s.sessions i t j) := by
  by_cases hj : j=i
  · subst hj
    rwa [Function.update_self]
  · rw [Function.update_of_ne hj]
    exact h j

/-! ## The system -/

variable [DecidableEq F] [DecidableEq H]

/-- An instance that starts: it loads the map. -/
def starting (keys : StoreKeys) (rules : SectionRules F H) : Session P F H :=
  .running .load LogFileStore.initial ((StoreCall.load : StoreCall P F H).perform keys rules LogFileStore.initial)

def start (keys : StoreKeys) (rules : SectionRules F H) : SharedStore ι P F H :=
  ⟨StoreDisk.empty,fun _ => starting keys rules,[.load]⟩

variable [DecidableEq ι]

inductive Step (keys : StoreKeys) (rules : SectionRules F H) : SharedStore ι P F H→SharedStore ι P F H→Prop
  | call {s : SharedStore ι P F H} {i st} (c : StoreCall P F H) (hi : s.sessions i=.idle st) :
      Step keys rules s ⟨s.disk,Function.update s.sessions i (.running c st (c.perform keys rules st)),c::s.called⟩
  | act {s : SharedStore ι P F H} {i c st o k x d} (hi : s.sessions i=.running c st (.perform o k))
      (hd : s.disk.Does o x d) :
      Step keys rules s ⟨d,Function.update s.sessions i (.running c st (k x)),s.called⟩
  | done {s : SharedStore ι P F H} {i c st r} (hi : s.sessions i=.running c st (.pure r)) :
      Step keys rules s ⟨s.disk,Function.update s.sessions i (.idle r.1),s.called⟩
  -- the instance dies wherever it is, and another one starts
  | crash {s : SharedStore ι P F H} (i : ι) :
      Step keys rules s ⟨s.disk,Function.update s.sessions i (starting keys rules),s.called⟩
  -- a newer build writes a record that this one must not interpret
  | newer {s : SharedStore ι P F H} (n : ℕ) (doc : SlotDoc P F H) (hd : kRecordVersion < doc.version) :
      Step keys rules s ⟨⟨s.disk.map,Function.update s.disk.slots n (some doc)⟩,s.sessions,s.called⟩

inductive Reachable (keys : StoreKeys) (rules : SectionRules F H) : SharedStore ι P F H→Prop
  | start : Reachable keys rules (start keys rules)
  | step {s s' : SharedStore ι P F H} (h : Reachable keys rules s) (hs : Step keys rules s s') :
    Reachable keys rules s'

private theorem clearMap_of_oneToOne {doc : MapDoc} (h : doc.OneToOne) : ClearMap doc := fun _ =>
    clear_of_oneToOne h

/-- An operation that begins is sound once it is among those begun. -/
theorem perform_sound {st : LogFileStore} (hone : OneToOne st.entries) {c : StoreCall P F H} (hc : c∈called) :
    Session.Sound keys rules called (.running c st (c.perform keys rules st)) := by
  intro called' hsub
  have hkeeps : (c.perform keys rules st).Keeps (Gives (Filed keys rules called') MapDoc.OneToOne)
      (Asks (Filed keys rules called')) _ :=
    perform_keeps hone (fun _ => clearMap_of_oneToOne) (filed_copies (hsub hc)) (fun r hr => .saved (hsub hc) hr)
      fun inherited hp r hr => .swept (hp ▸ hsub hc) hr
  exact hkeeps.and (perform_leaves hone c)

theorem Sound.step {s s' : SharedStore ι P F H} (h : Sound keys rules s) (hload : .load∈s.called)
    (hs : Step keys rules s s') :
    Sound keys rules s' := by
  cases hs with
  | @call i st c hi =>
    have hsub : s.called⊆c::s.called := List.subset_cons_self ..
    refine ⟨fun n doc r hn hr => filed_mono hsub (h.filed n doc r hn hr),h.map,?_⟩
    apply sessions_update fun j => (h.sessions j).mono hsub
    have hidle := h.sessions i
    rw [hi] at hidle
    exact perform_sound hidle List.mem_cons_self
  | @act i c st o k x d hi hd =>
    have hrun := h.sessions i
    rw [hi] at hrun
    have hdisk := h.disk (hrun s.called fun _ hx => hx).1.1 hd
    refine ⟨hdisk.1,hdisk.2,?_⟩
    apply sessions_update h.sessions
    intro called' hsub
    have hlater : Sound keys rules (⟨s.disk,s.sessions,called'⟩ : SharedStore ι P F H) :=
      ⟨fun n doc r hn hr => filed_mono hsub (h.filed n doc r hn hr),h.map,fun j => (h.sessions j).mono hsub⟩
    have hgives : Gives (Filed keys rules called') MapDoc.OneToOne _ _ := hlater.gives hd
    exact (hrun called' hsub).2 _ hgives
  | @done i c st r hi =>
    have hrun := h.sessions i
    rw [hi] at hrun
    refine ⟨h.filed,h.map,?_⟩
    apply sessions_update h.sessions
    exact (hrun s.called fun _ hx => hx).1.1
  | crash i =>
    refine ⟨h.filed,h.map,?_⟩
    apply sessions_update h.sessions
    exact perform_sound .nil hload
  | newer n doc hn =>
    refine ⟨filed_update h.filed fun d r hdr hr => ?_,h.map,h.sessions⟩
    obtain rfl := Option.some_inj.mp hdr
    have hj : judge doc.version kRecordVersion=.fromFuture := by
      rw [judge,if_neg (by rw [kRecordVersion] at hn; omega),if_pos hn]
    simp [SlotDoc.fromJson,hj] at hr

theorem Reachable.sound {s : SharedStore ι P F H} (h : Reachable keys rules s) : Sound keys rules s ∧
    .load∈s.called := by
  induction h with
  | start =>
    have hload : (.load : StoreCall P F H)∈[StoreCall.load] := List.mem_singleton.mpr rfl
    refine ⟨⟨fun n doc r hn => ?_,fun doc hdoc => ?_,fun j => perform_sound .nil hload⟩,hload⟩
    · cases hn
    · cases hdoc
  | step _ hs ih =>
    refine ⟨ih.1.step ih.2 hs,?_⟩
    cases hs with
    | call c hi => exact List.mem_cons_of_mem _ ih.2
    | _ => exact ih.2

/-! ## What is safe -/

structure Safe (keys : StoreKeys) (rules : SectionRules F H) (s : SharedStore ι P F H) : Prop where
  /-- A read answers nothing, or a record that was put under exactly its own key. -/
  answers : ∀i address before st r,s.sessions i=.running (.read address) before (.pure (st,r)) → ∃a,r=some a ∧
    (a=.blank rules (keys.logSettingsKey address) ∨ a.address=keys.logSettingsKey address ∧
      Filed keys rules s.called a)
  /-- Without sweeps, and where logs are asked for by their normalised addresses, such a record was saved, or it
  is the copy of one that was saved for the legacy key. -/
  origin : KeysSettle keys → CleanReads keys s.called → (∀inherited,.pruneAgainst inherited∉s.called) →
    ∀a,Filed keys rules s.called a → IsSaved keys rules s.called a ∨ IsCopied keys rules s.called a
  /-- No file operation of a read touches the slot file of the legacy record, or drops it from the map. -/
  spares : ∀i address before o k e x d,s.sessions i=.running (.read address) before (.perform o k) →
    e∈before.entries →
    IsLegacy keys address e → s.disk.Does o x d →
      d.slots e.slot=s.disk.slots e.slot ∧
        ∀doc,d.map=some doc → d.map=s.disk.map ∨ ⟨e.address,e.slot,e.used⟩∈doc.entries
  /-- The legacy record keeps its entry where anything was adopted. -/
  keeps : ∀i address before st r e,s.sessions i=.running (.read address) before (.pure (st,r)) → e∈before.entries →
    IsLegacy keys address e → e∈st.entries ∨ ∀x∈st.entries,x.address≠keys.logSettingsKey address
  /-- Every entry that an operation is not about is kept, or was to be evicted. -/
  leaves : ∀i c before st r,s.sessions i=.running c before (.pure (st,r)) →
    before.Leaves (c.about keys) (c.protects keys) st
  /-- So it is in every allocation, in the middle of whatever operation. -/
  evicts : ∀(st : LogFileStore) slot after,st.allocateSlot=some (slot,after) →
    st.Leaves (fun _ => False) (fun _ => False) after

def record (address : String) : LogFileSettings Bool Unit Unit := ⟨address,some true,(),none,.last⟩

/-- What is left of an operation is done with nobody in between. -/
theorem Reachable.finish {s : SharedStore ι P F H} {i : ι} {c : StoreCall P F H} {before : LogFileStore}
    {rest : StoreProgram P F H (LogFileStore×Option (LogFileSettings P F H))}
    {res : LogFileStore×Option (LogFileSettings P F H)} {d : StoreDisk P F H} (h : Reachable keys rules s)
    (hi : s.sessions i=.running c before rest) (hr : rest.Runs StoreDisk.Does s.disk res d) :
    ∃s',Reachable keys rules s' ∧ s'.disk=d ∧ s'.sessions i=.running c before (.pure res) ∧
      (∀j,j≠i → s'.sessions j=s.sessions j) ∧ s'.called=s.called := by
  induction rest generalizing s with
  | pure r =>
    obtain ⟨rfl,rfl⟩ := hr
    exact ⟨s,h,rfl,hi,fun _ _ => rfl,rfl⟩
  | perform o k ih =>
    obtain ⟨x,mid,hd,hr⟩ := hr
    obtain ⟨s',hs',hdisk,hsession,hothers,hcalled⟩ := ih x (.step h (.act hi hd)) (Function.update_self ..) hr
    refine ⟨s',hs',hdisk,hsession,fun j hj => ?_,hcalled⟩
    rw [hothers j hj]
    exact Function.update_of_ne hj ..

/-- An instance that starts on the empty store finds nothing. -/
theorem Reachable.started {s : SharedStore ι P F H} {i : ι} (h : Reachable keys rules s) (hd : s.disk=.empty)
    (hi : s.sessions i=starting keys rules) :
    ∃s',Reachable keys rules s' ∧ s'.disk=.empty ∧ s'.sessions i=.idle initial ∧
    (∀j,j≠i → s'.sessions j=s.sessions j) ∧
      s'.called=s.called := by
  have hload : ((StoreCall.load : StoreCall P F H).perform keys rules initial).Runs StoreDisk.Does s.disk
    (initial,none) .empty := by
    rw [hd]
    refine ⟨(none : Option MapDoc),_,⟨rfl,rfl⟩,([] : List ℕ),_,⟨⟨[],rfl,List.nodup_nil,?_⟩,rfl⟩,rfl,rfl⟩
    simp [StoreDisk.empty]
  obtain ⟨s',hs',hdisk,hsession,hothers,hcalled⟩ := h.finish hi hload
  refine ⟨_,.step hs' (.done hsession),hdisk,Function.update_self ..,fun j hj => ?_,hcalled⟩
  rw [← hothers j hj]
  exact Function.update_of_ne hj ..

/-! ## Two instances on one slot -/

end SharedStore

end Loftail
