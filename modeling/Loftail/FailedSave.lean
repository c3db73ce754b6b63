import Loftail.StoreDisk
import Loftail.StoreRuns

/-! # A write that fails

A save and an adoption write a slot file, and the map after it. Either write may fail. -/
namespace Loftail
variable {P F H : Type}

inductive FailedWrite | slot | map
  deriving DecidableEq

/-- The write that an answer reports as failed. -/
def failedBy : (o : StoreOp P F H)→StoreAnswer P F H o→List FailedWrite
  | .writeSlot _ _,(some _ : Option String) => [.slot]
  | .writeMap _,(some _ : Option String) => [.map]
  | _,_ => []

/-- The disk, and the writes that have failed on it so far. -/
abbrev FailingDisk (P F H : Type) := StoreDisk P F H×List FailedWrite

def FailingDisk.Does (w : FailingDisk P F H) (o : StoreOp P F H) (x : StoreAnswer P F H o)
    (w' : FailingDisk P F H) : Prop :=
  w.1.Does o x w'.1 ∧ w'.2=w.2++failedBy o x

/-- A save, or the adoption that a read may come to. -/
inductive Attempt (P F H : Type)
  | save (s : LogFileSettings P F H) (inherited : P)
  | adopt (address : String)

namespace LogFileStore

/-- No other address loses what the store held for it, and the address itself reads nothing but what the store
held for it. -/
def LosesNothing (key : String) (st : LogFileStore) (d : StoreDisk P F H) (st' : LogFileStore)
    (d' : StoreDisk P F H) : Prop :=
  (∀k r,k≠key → st.held d k=some r → st'.held d' k=some r) ∧ ∀r,st'.held d' key=some r → st.held d key=some r

end LogFileStore

namespace Attempt
open LogFileStore

def key (keys : StoreKeys) : Attempt P F H→String
  | .save s _ => keys.logSettingsKey s.address
  | .adopt address => keys.logSettingsKey address

def perform [DecidableEq P] (keys : StoreKeys) (rules : SectionRules F H) (st : LogFileStore) :
    Attempt P F H→StoreProgram P F H LogFileStore
  | .save s inherited => do
    let (st,_) ← st.save keys rules s inherited
    pure st
  | .adopt address => do
    let (st,_) ← st.read keys rules address
    pure st

/-- The record that is to be written, if one is. -/
def written [DecidableEq P] (keys : StoreKeys) (rules : SectionRules F H) (st : LogFileStore)
    (d : StoreDisk P F H) :
    Attempt P F H→Option (LogFileSettings P F H)
  | .save s inherited => if (s.filed keys rules inherited).saysSomething rules then some
    (s.filed keys rules inherited) else none
  | .adopt address =>
    (st.held d (keys.legacyLogSettingsKey address)).map fun r => {r with address := keys.logSettingsKey address}

/-- The store that a slot is allocated in. -/
def allocating (keys : StoreKeys) (st : LogFileStore) : Attempt P F H→LogFileStore
  | .save _ _ => st
  | .adopt address => st.beside (keys.legacyLogSettingsKey address)

/-- The key that `remove` looks up for a record that says nothing more: the address is normalised once more. -/
def removed (keys : StoreKeys) : Attempt P F H→String
  | .save s _ => keys.logSettingsKey (keys.logSettingsKey s.address)
  | .adopt address => keys.logSettingsKey address

/-- A save enters its address before it writes the slot file, an adoption behind that. -/
def entersFirst : Attempt P F H→Bool
  | .save _ _ => true
  | .adopt _ => false

/-- A record can be written without loss: nothing that can be read is evicted for it, it is the slot file that
cannot be written (or the record is held already), and in the slot that it gets nobody has left one under its
address. -/
def WritesApart (keys : StoreKeys) (st : LogFileStore) (d : StoreDisk P F H) (failed : List FailedWrite)
    (a : Attempt P F H) (r : LogFileSettings P F H) : Prop :=
  (st.indexOf (a.key keys)=none → st.freeSlot=none → ∀e i,(a.allocating keys st).victim=some (e,i) →
    st.held d e.address=none) ∧
  (failed=[.map] → st.held d (a.key keys)=some r) ∧
  (a.entersFirst → st.indexOf (a.key keys)=none → ∀slot after,st.allocateSlot=some (slot,after) →
    recordAt d.slots (a.key keys) slot=none)

/-- A record is written without loss, or none is and nothing but the address's own record is removed. -/
def Spares [DecidableEq P] (keys : StoreKeys) (rules : SectionRules F H) (st : LogFileStore) (d : StoreDisk P F H)
    (failed : List FailedWrite) (a : Attempt P F H) : Prop :=
  match a.written keys rules st d with
  | some r => a.WritesApart keys st d failed r
  | none => a.removed keys=a.key keys ∨ st.held d (a.removed keys)=none

end Attempt

namespace LogFileStore
variable {st st' after : LogFileStore} {d d' : StoreDisk P F H} {key : String} {slot : ℕ} {keys : StoreKeys}
  {rules : SectionRules F H}

section Allocated

/-- Of the other addresses only the victim loses anything. -/
theorem others_iff (hone : OneToOne st.entries) (hone' : OneToOne st'.entries) (hk : ∀x∈st.entries,x.address≠key)
    (ha : st.allocateSlot=some (slot,after))
    (hentries : ∀x : StoreEntry,x.address≠key → (x∈st'.entries↔x∈after.entries))
    (hslots : ∀n,n≠slot → d'.slots n=d.slots n) :
    (∀k r,k≠key → st.held d k=some r → st'.held d' k=some r)↔
      (st.freeSlot=none → ∀e i,st.victim=some (e,i) → st.held d e.address=none) := by
  have hrecord {k : String} {x : StoreEntry} (hx : x.slot≠slot) :
    recordAt d'.slots k x.slot=recordAt d.slots k x.slot := by
    rw [recordAt,recordAt,hslots _ hx]
  have happ := (allocateSlot_apart hone ha).2.2
  constructor
  · intro h hf e i hv
    rcases allocateSlot_some ha with ⟨hs,-⟩ | ⟨-,e',i',hv',rfl,rfl⟩
    · simp [hf] at hs
    obtain ⟨rfl,rfl⟩ := Prod.mk.inj (Option.some_inj.mp (hv.symm.trans hv'))
    have hi := (victim_some hv).1
    have he := List.mem_of_getElem? hi
    apply Option.eq_none_iff_forall_ne_some.mpr
    intro r hr
    -- what is left names the victim's address no more
    obtain ⟨x,hx,hxa,-⟩ := (held_some hone').mp (h _ r (hk e he) hr)
    have hx := (hentries x (hxa ▸ hk e he)).mp hx
    exact (OneToOne.conflicts_eq_false.mp (dropEntry_apart hone hi hx)).1 hxa
  · intro h k r hkey hr
    obtain ⟨x,hx,hxa,hxr⟩ := (held_some hone).mp hr
    have hleft : x∈after.entries := by
      rcases allocateSlot_some ha with ⟨-,rfl⟩ | ⟨hf,e,i,hv,rfl,rfl⟩
      · exact hx
      · have hi := (victim_some hv).1
        obtain ⟨n,hn⟩ := List.getElem?_of_mem hx
        rw [dropEntry_entries]
        apply List.mem_eraseIdx_iff_getElem?.mpr
        refine ⟨n,?_,hn⟩
        rintro rfl
        obtain rfl := Option.some_inj.mp (hn.symm.trans hi)
        have hnone := h hf x n hv
        rw [hxa,hr] at hnone
        cases hnone
    apply (held_some hone').mpr
    refine ⟨x,(hentries x (hxa ▸ hkey)).mpr hleft,hxa,?_⟩
    rw [hrecord (happ x hleft)]
    exact hxr

variable (st) in
/-- The address reads the record that its slot file has now. -/
theorem own_iff {r : LogFileSettings P F H} (hra : r.address=key) (hone' : OneToOne st'.entries)
    (hslots : d'.slots=Function.update d.slots slot (some r.toJson))
    (hentry : ∃e∈st'.entries,e.address=key ∧ e.slot=slot) :
    (∀s,st'.held d' key=some s → st.held d key=some s)↔st.held d key=some r := by
  obtain ⟨e,he,hea,hes⟩ := hentry
  have hheld : st'.held d' key=some r := by
    apply (held_some hone').mpr
    refine ⟨e,he,hea,recordAt_some.mpr ⟨hra,r.toJson,?_,rfl⟩⟩
    rw [hslots,hes,Function.update_self]
  constructor
  · intro h
    exact h r hheld
  · intro h s hs
    obtain rfl := Option.some_inj.mp (hheld.symm.trans hs)
    exact h

/-- The slot file could not be written: the address reads what somebody has left there, if its entry stands. -/
theorem orphan_iff {first : Bool} (hone' : OneToOne st'.entries) (hk : ∀x∈st.entries,x.address≠key)
    (hafter : ∀x∈after.entries,x∈st.entries) (hslots : d'.slots=d.slots)
    (hentries : st'.entries=if first then (after.addEntry key slot).entries else after.entries) :
    (∀s,st'.held d' key=some s → st.held d key=some s)↔(first=true → recordAt d.slots key slot=none) := by
  have hnone : st.held d key=none := by
    rw [held,indexOf_none.mpr hk,Option.bind_none]
  rw [hnone]
  cases first with
  | false =>
    have hgone : st'.held d' key=none := by
      rw [held,indexOf_none.mpr,Option.bind_none]
      intro x hx
      rw [hentries] at hx
      exact hk x (hafter x hx)
    simp [hgone]
  | true =>
    have hheld : st'.held d' key=recordAt d.slots key slot := by
      have he : (⟨key,slot,after.tick+1⟩ : StoreEntry)∈st'.entries := by simp [hentries]
      obtain ⟨i,hi⟩ := indexOf_of_mem hone' he rfl
      rw [held,hi,Option.bind_some,hslots]
    rw [hheld]
    simp [Option.eq_none_iff_forall_ne_some]

/-- A slot was allocated for an address that had none, and one of the two writes failed. -/
theorem allocated_iff {r : LogFileSettings P F H} {failed : List FailedWrite} (first : Bool) (hra : r.address=key)
    (hone : OneToOne st.entries) (hone' : OneToOne st'.entries) (hk : ∀x∈st.entries,x.address≠key)
    (ha : st.allocateSlot=some (slot,after))
    (hends : failed=[.slot] ∧ d'.slots=d.slots ∧
        st'.entries=(if first then (after.addEntry key slot).entries else after.entries) ∨
      failed=[.map] ∧ st'.entries=(after.addEntry key slot).entries ∧ d'.slots=Function.update d.slots slot
      (some r.toJson)) :
    LosesNothing key st d st' d'↔
      (st.freeSlot=none → ∀e i,st.victim=some (e,i) → st.held d e.address=none) ∧
      (failed=[.map] → st.held d key=some r) ∧
        (first=true → recordAt d.slots key slot=none) := by
  have hadded : ∀x : StoreEntry,x.address≠key → (x∈(after.addEntry key slot).entries↔x∈after.entries) := by
    intro x hx
    rw [addEntry_entries,List.mem_append,List.mem_singleton,or_iff_left]
    rintro rfl
    exact hx rfl
  rcases hends with ⟨rfl,hs,hentries⟩ | ⟨rfl,hentries,hs⟩
  · have hnew : ∀x : StoreEntry,x.address≠key → (x∈st'.entries↔x∈after.entries) := by
      intro x hx
      rw [hentries]
      split
      · exact hadded x hx
      · rfl
    have hothers : (∀k r,k≠key → st.held d k=some r → st'.held d' k=some r)↔_ :=
      others_iff hone hone' hk ha hnew fun n _ => by rw [hs]
    have hown := orphan_iff (d:=d) hone' hk (fun x hx => (allocateSlot_apart hone ha).2.1.subset hx) hs hentries
    rw [LosesNothing,hothers,hown]
    simp
  · have hothers : (∀k r,k≠key → st.held d k=some r → st'.held d' k=some r)↔_ :=
      others_iff hone hone' hk ha (fun x hx => by rw [hentries,hadded x hx]) fun n hn =>
        by rw [hs,Function.update_of_ne hn]
    have hown := own_iff st hra hone' hs ⟨⟨key,slot,after.tick+1⟩,by simp [hentries],rfl,rfl⟩
    have hnone : st.held d key=none := by
      rw [held,indexOf_none.mpr hk,Option.bind_none]
    rw [LosesNothing,hothers,hown,hnone]
    simp

end Allocated

/-! ## Runs with a failed write -/

theorem flush_runs {w w' : FailingDisk P F H} {res : LogFileStore×Option String}
    (h : (st.flush).Runs FailingDisk.Does w res w') :
    res.1.entries=st.entries ∧ w'.1.slots=w.1.slots ∧ (w'.2=w.2 ∨ w'.2=w.2++[.map]) := by
  rw [flush] at h
  split at h
  · obtain ⟨rfl,rfl⟩ := h
    exact ⟨rfl,rfl,.inl rfl⟩
  · obtain ⟨failed,mid,⟨hd,hf⟩,hr⟩ := h
    cases failed with
    | none =>
      obtain ⟨rfl,rfl⟩ := hr
      have hd : mid.1={w.1 with map := some st.mapDoc} := hd
      exact ⟨rfl,by rw [hd],.inl (by simpa [failedBy] using hf)⟩
    | some error =>
      obtain ⟨rfl,rfl⟩ := hr
      have hd : mid.1=w.1 := hd
      exact ⟨rfl,by rw [hd],.inr hf⟩

/-- The map could not be written: the entry is gone, and perhaps the slot file. -/
theorem remove_runs {w w' : FailingDisk P F H} {address : String} {res : LogFileStore×Bool}
    (h : (st.remove keys address).Runs FailingDisk.Does w res w') (hfail : w'.2≠w.2) :
    ∃i e,st.indexOf (keys.logSettingsKey address)=some (i,e) ∧ res.1.entries=(st.dropEntry i).entries ∧
    w'.2=w.2++[.map] ∧
      ∀n,n≠e.slot → w'.1.slots n=w.1.slots n := by
  rw [remove] at h
  split at h
  · obtain ⟨rfl,rfl⟩ := h
    exact absurd rfl hfail
  cases hi : st.indexOf (keys.logSettingsKey address) with
  | none =>
    rw [hi] at h
    obtain ⟨rfl,rfl⟩ := h
    exact absurd rfl hfail
  | some v =>
    rw [hi] at h
    obtain ⟨mid,m,hflush,u,m',⟨hd,hf⟩,rfl,rfl⟩ := Program.runs_bind.mp h
    obtain ⟨he,hs,hw⟩ := flush_runs hflush
    have hf : m'.2=m.2 := by simpa [failedBy] using hf
    refine ⟨v.1,v.2,rfl,he,?_,?_⟩
    · rw [hf] at hfail ⊢
      exact hw.resolve_left hfail
    · intro n hn
      rcases hd with hd | hd
      · rw [hd,← hs]
        exact Function.update_of_ne hn _ _
      · rw [hd,hs]

private theorem save_runs [DecidableEq P] {s : LogFileSettings P F H} {inherited : P} {w' : FailingDisk P F H}
    {res : LogFileStore×SaveResult} (h : (st.save keys rules s inherited).Runs FailingDisk.Does (d,[]) res w')
    (hfail : w'.2≠[]) :
    ((s.filed keys rules inherited).saysSomething rules=false ∧
        ∃i e,st.indexOf (keys.logSettingsKey (keys.logSettingsKey s.address))=some (i,e) ∧
          res.1.entries=(st.dropEntry i).entries ∧ ∀n,n≠e.slot → w'.1.slots n=d.slots n) ∨
      (s.filed keys rules inherited).saysSomething rules ∧
        ∃slot after,st.slotFor (keys.logSettingsKey s.address)=some (slot,after) ∧ res.1.entries=after.entries ∧
          (w'.2=[.slot] ∧ w'.1.slots=d.slots ∨
            w'.2=[.map] ∧ w'.1.slots=Function.update d.slots slot
            (some (s.filed keys rules inherited).toJson)) := by
  rw [save] at h
  dsimp only [LogFileSettings.reduce_address] at h
  split at h
  · obtain ⟨rfl,rfl⟩ := h
    exact absurd rfl hfail
  split at h
  · obtain ⟨rfl,rfl⟩ := h
    exact absurd rfl hfail
  split at h
  · rename_i hsaid
    change (!(s.filed keys rules inherited).saysSomething rules)=true at hsaid
    obtain ⟨mid,m,hremove,rfl,rfl⟩ := Program.runs_bind.mp h
    obtain ⟨i,e,hi,he,-,hs⟩ := remove_runs hremove hfail
    exact .inl ⟨by simpa using hsaid,i,e,hi,he,hs⟩
  · rename_i hsaid
    change ¬(!(s.filed keys rules inherited).saysSomething rules)=true at hsaid
    refine .inr ⟨by simpa using hsaid,?_⟩
    cases hf : st.slotFor (keys.logSettingsKey s.address) with
    | none =>
      rw [hf] at h
      obtain ⟨rfl,rfl⟩ := h
      exact absurd rfl hfail
    | some v =>
      rw [hf] at h
      obtain ⟨failed,m,⟨hd,hl⟩,hr⟩ := Program.runs_ask.mp h
      refine ⟨v.1,v.2,rfl,?_⟩
      cases failed with
      | some error =>
        obtain ⟨rfl,rfl⟩ := hr
        have hd : m.1=d := hd
        exact ⟨rfl,.inl ⟨hl,by rw [hd]⟩⟩
      | none =>
        obtain ⟨mid,m',hflush,rfl,rfl⟩ := Program.runs_bind.mp hr
        obtain ⟨he,hs,hw⟩ := flush_runs hflush
        have hd : m.1={d with slots := Function.update d.slots v.1 (some
          (s.filed keys rules inherited).toJson)} := hd
        have hl : m.2=[] := hl
        rw [hl] at hw
        exact ⟨he,.inr ⟨hw.resolve_left hfail,by rw [hs,hd]⟩⟩

/-- What an adoption with a failing write leaves: it was stopped at its slot file, or at the map. -/
theorem adopt_runs {address : String} {m : FailingDisk P F H} {mid : LogFileStore} {found : Option (ℕ×StoreEntry)}
    (h : (st.adoptLegacyKey keys address key).Runs FailingDisk.Does (d,[]) (mid,found) m) (hfail : m.2≠[]) :
    ∃(r : LogFileSettings P F H) (slot : ℕ) (after : LogFileStore),
      st.held d (keys.legacyLogSettingsKey address)=some r ∧
        (st.beside (keys.legacyLogSettingsKey address)).allocateSlot=some (slot,after) ∧
          (found=none ∧ m.2=[.slot] ∧ m.1.slots=d.slots ∧ mid.entries=after.entries ∨
            (∃v,found=some v ∧ v.2.slot=slot) ∧ m.2=[.map] ∧ mid.entries=(after.addEntry key slot).entries ∧
              m.1.slots=Function.update d.slots slot
                (some ({r with address := key} : LogFileSettings P F H).toJson)) := by
  rw [adoptLegacyKey] at h
  dsimp only at h
  split at h
  · obtain ⟨-,rfl⟩ := h
    exact absurd rfl hfail
  cases hl : st.indexOf (keys.legacyLogSettingsKey address) with
  | none =>
    rw [hl] at h
    obtain ⟨-,rfl⟩ := h
    exact absurd rfl hfail
  | some v =>
    rw [hl] at h
    obtain ⟨doc,looked,⟨⟨rfl,hd⟩,hw⟩,hadopt⟩ := Program.runs_ask.mp h
    have hw : looked.2=[] := by simpa [failedBy] using hw
    dsimp only at hadopt
    cases hrec : st.legacyRecord (keys.legacyLogSettingsKey address) v.1 (d.slots v.2.slot) with
    | mk kept record =>
    rw [hrec] at hadopt
    cases record with
    | none =>
      obtain ⟨-,rfl⟩ := hadopt
      exact absurd hw hfail
    | some r =>
      obtain ⟨rfl,hra,doc,hdoc,hr⟩ := legacyRecord_some hrec
      dsimp only at hadopt
      have hheld : kept.held d (keys.legacyLogSettingsKey address)=some r := by
        rw [held,hl,Option.bind_some]
        exact recordAt_some.mpr ⟨hra,doc,hdoc,hr⟩
      cases hb : kept.allocateBeside (keys.legacyLogSettingsKey address) with
      | none =>
        rw [hb] at hadopt
        obtain ⟨-,rfl⟩ := hadopt
        exact absurd hw hfail
      | some u =>
        rw [hb] at hadopt
        obtain ⟨after,hafter,hu⟩ := allocateBeside_some hb
        refine ⟨r,u.1,after,hheld,hafter,?_⟩
        obtain ⟨failed,put,⟨hslot,hlog⟩,hend⟩ := Program.runs_ask.mp hadopt
        rw [hw] at hlog
        cases failed with
        | some error =>
          obtain ⟨he,rfl⟩ := hend
          obtain ⟨rfl,rfl⟩ := Prod.mk.inj he
          have hslot : put.1=looked.1 := hslot
          exact .inl ⟨rfl,hlog,by rw [hslot,hd],by rw [hu]⟩
        | none =>
          obtain ⟨fl,flushed,hflush,he,rfl⟩ := Program.runs_bind.mp hend
          obtain ⟨rfl,rfl⟩ := Prod.mk.inj he
          obtain ⟨hents,hs,hlog'⟩ := flush_runs hflush
          have hlog : put.2=[] := hlog
          have hslot : put.1=⟨looked.1.map,Function.update looked.1.slots u.1
              (some ({r with address := key} : LogFileSettings P F H).toJson)⟩ := hslot
          rw [hlog] at hlog'
          refine .inr ⟨⟨_,rfl,rfl⟩,hlog'.resolve_left hfail,?_,by rw [hs,hslot,hd]⟩
          rw [hents,hu]
          rfl

/-- A read whose write fails has found a record under the legacy key, and no entry of the address itself. -/
theorem read_runs {address : String} {w' : FailingDisk P F H} {res : LogFileStore×LogFileSettings P F H}
    (h : (st.read keys rules address).Runs FailingDisk.Does (d,[]) res w') (hfail : w'.2≠[]) :
    st.indexOf (keys.logSettingsKey address)=none ∧
      ∃(r : LogFileSettings P F H) (slot : ℕ) (after : LogFileStore),
        st.held d (keys.legacyLogSettingsKey address)=some r ∧
        (st.beside (keys.legacyLogSettingsKey address)).allocateSlot=some (slot,after) ∧
          (w'.2=[.slot] ∧ w'.1.slots=d.slots ∧ res.1.entries=after.entries ∨
            w'.2=[.map] ∧ res.1.entries=(after.addEntry (keys.logSettingsKey address) slot).entries ∧
              w'.1.slots=Function.update d.slots slot
                (some ({r with address := keys.logSettingsKey address} : LogFileSettings P F H).toJson)) := by
  rw [read] at h
  dsimp only at h
  split at h
  · obtain ⟨rfl,rfl⟩ := h
    exact absurd rfl hfail
  obtain ⟨⟨mid,found⟩,m,hfound,hrest⟩ := Program.runs_bind.mp h
  -- the last read fails no write
  have hlast : w'=m ∧ (found=none → res.1=mid) ∧
      ∀v,found=some v → ∀r : LogFileSettings P F H,m.1.slots v.2.slot=some r.toJson →
        r.address=keys.logSettingsKey address → res.1=mid := by
    cases found with
    | none =>
      obtain ⟨rfl,rfl⟩ := hrest
      exact ⟨rfl,fun _ => rfl,fun _ hv => by cases hv⟩
    | some v =>
      obtain ⟨doc,m',⟨⟨hdoc,hd⟩,hl⟩,rfl,rfl⟩ := Program.runs_ask.mp hrest
      have hl : m'.2=m.2 := by simpa [failedBy] using hl
      refine ⟨Prod.ext hd hl,?_,?_⟩
      · intro hv
        cases hv
      · intro u hu r hr ha
        obtain rfl := Option.some_inj.mp hu
        rw [hdoc,hr]
        simp [readEntry,ha]
  obtain ⟨rfl,hnone,hsome⟩ := hlast
  rw [entryFor] at hfound
  cases hi : st.indexOf (keys.logSettingsKey address) with
  | some v =>
    rw [hi] at hfound
    obtain ⟨-,rfl⟩ := hfound
    exact absurd rfl hfail
  | none =>
    rw [hi] at hfound
    obtain ⟨r,slot,after,hheld,hafter,hends⟩ := adopt_runs hfound hfail
    refine ⟨rfl,r,slot,after,hheld,hafter,?_⟩
    rcases hends with ⟨hnothing,hlog,hslots,hentries⟩ | ⟨⟨v,hv,rfl⟩,hlog,hentries,hslots⟩
    · exact .inl ⟨hlog,hslots,by rw [hnone hnothing,hentries]⟩
    · have hres := hsome v hv {r with address := keys.logSettingsKey address} (by simp [hslots]) rfl
      exact .inr ⟨hlog,by rw [hres,hentries],hslots⟩

theorem gives_of_does {w w' : FailingDisk P F H} {o : StoreOp P F H} {x : StoreAnswer P F H o}
    (h : FailingDisk.Does w o x w') : Gives (fun _ => True) (fun _ => True) o x := by
  obtain ⟨h,-⟩ := h
  cases o with
  | readMap => exact fun _ _ => trivial
  | listSlots =>
    obtain ⟨⟨l,hl,hnodup,hmem⟩,-⟩ := h
    exact ⟨l,hl,hnodup,fun n hn => ((hmem n).mp hn).1⟩
  | readSlot n => exact fun _ _ _ _ => trivial
  | _ => trivial

/-- An entry is dropped, and its slot file perhaps: that is nothing lost where it is the address's own, or led
to no record. -/
theorem removed_iff (hone : OneToOne st.entries) {gone : String} {i : ℕ} {e : StoreEntry}
    (hi : st.indexOf gone=some (i,e))
    (hentries : st'.entries=(st.dropEntry i).entries) (hslots : ∀n,n≠e.slot → d'.slots n=d.slots n) :
    LosesNothing key st d st' d'↔gone=key ∨ st.held d gone=none := by
  obtain ⟨hget,hea⟩ := indexOf_get hi
  have hone' : OneToOne st'.entries := hentries ▸ hone.sublist dropEntry_sublist
  have happ {x : StoreEntry} (hx : x∈st'.entries) : x.address≠gone ∧ x.slot≠e.slot := by
    rw [hentries] at hx
    have hc := OneToOne.conflicts_eq_false.mp (dropEntry_apart hone hget hx)
    rwa [hea] at hc
  -- everybody else's entry and slot file are what they were
  have hothers {k : String} {r : LogFileSettings P F H} (hk : k≠gone) (hr : st.held d k=some r) :
    st'.held d' k=some r := by
    obtain ⟨x,hx,hxa,hxr⟩ := (held_some hone).mp hr
    have hleft : x∈st'.entries := by
      rw [hentries,dropEntry_entries]
      obtain ⟨n,hn⟩ := List.getElem?_of_mem hx
      refine List.mem_eraseIdx_iff_getElem?.mpr ⟨n,?_,hn⟩
      rintro rfl
      obtain rfl := Option.some_inj.mp (hn.symm.trans hget)
      exact hk (hxa.symm.trans hea)
    apply (held_some hone').mpr
    refine ⟨x,hleft,hxa,?_⟩
    rwa [recordAt,hslots _ (happ hleft).2]
  have hback {k : String} {r : LogFileSettings P F H} (hr : st'.held d' k=some r) : k≠gone ∧
    st.held d k=some r := by
    obtain ⟨x,hx,hxa,hxr⟩ := (held_some hone').mp hr
    obtain ⟨hxg,hxs⟩ := happ hx
    refine ⟨hxa ▸ hxg,(held_some hone).mpr ⟨x,?_,hxa,?_⟩⟩
    · rw [hentries] at hx
      exact dropEntry_sublist.subset hx
    · rwa [recordAt,← hslots _ hxs]
  constructor
  · intro h
    by_cases hkey : gone=key
    · exact .inl hkey
    · refine .inr (Option.eq_none_iff_forall_ne_some.mpr fun r hr => ?_)
      exact (hback (h.1 gone r hkey hr)).1 rfl
  · intro h
    refine ⟨fun k r hk hr => hothers ?_ hr,fun r hr => (hback hr).2⟩
    rintro rfl
    rcases h with h | h
    · exact hk h
    · rw [hr] at h
      cases h

/-- The record of an address that has an entry is written over. -/
theorem rewritten_iff {r : LogFileSettings P F H} {failed : List FailedWrite} (hra : r.address=key)
    (hone : OneToOne st.entries)
    {i : ℕ} {e : StoreEntry} (hi : st.indexOf key=some (i,e)) (hentries : st'.entries=st.entries)
    (hends : failed=[.slot] ∧ d'.slots=d.slots ∨
      failed=[.map] ∧ d'.slots=Function.update d.slots e.slot (some r.toJson)) :
    LosesNothing key st d st' d'↔(failed=[.map] → st.held d key=some r) := by
  have hone' : OneToOne st'.entries := hentries ▸ hone
  rcases hends with ⟨rfl,hs⟩ | ⟨rfl,hs⟩
  · have hsame : ∀k,st'.held d' k=st.held d k := by
      intro k
      rw [held,held,hs,indexOf,indexOf,hentries]
    simp [LosesNothing,hsame]
  · have hothers : ∀k s,k≠key → st.held d k=some s → st'.held d' k=some s := by
      intro k s hk h
      obtain ⟨x,hx,hxa,hxr⟩ := (held_some hone).mp h
      apply (held_some hone').mpr
      refine ⟨x,hentries ▸ hx,hxa,?_⟩
      have hne : x.slot≠e.slot := by
        intro hslot
        have hxe := hone.eq_of_slot hx (indexOf_mem hi) hslot
        exact hk (hxa.symm.trans (hxe ▸ (indexOf_get hi).2))
      rwa [recordAt,hs,Function.update_of_ne hne]
    have hown := own_iff st hra hone' hs ⟨e,hentries ▸ indexOf_mem hi,(indexOf_get hi).2,rfl⟩
    rw [LosesNothing,hown]
    exact ⟨fun h _ => h.2,fun h => ⟨hothers,h rfl⟩⟩

variable [DecidableEq P]

theorem failed_save_iff (hone : OneToOne st.entries)
    {s : LogFileSettings P F H} {inherited : P} {failed : List FailedWrite} {res : LogFileStore×SaveResult}
    (hr : (st.save keys rules s inherited).Runs FailingDisk.Does (d,[]) res (d',failed)) (hfail : failed≠[]) :
    LosesNothing (keys.logSettingsKey s.address) st d res.1 d'↔
    (Attempt.save s inherited).Spares keys rules st d failed := by
  have hk : (st.save keys rules s inherited).Keeps (Gives (fun _ => True) fun _ => True) (Asks fun _ => True) _ :=
    save_keeps hone s inherited trivial
  have hone' : OneToOne res.1.entries := hk.runs (fun _ _ _ _ => gives_of_does) hr
  rw [Attempt.Spares,Attempt.written]
  rcases save_runs hr hfail with ⟨hsaid,i,e,hi,hentries,hslots⟩ | ⟨hsaid,slot,after,hslot,hentries,hends⟩
  · rw [if_neg (by simp [hsaid])]
    exact removed_iff hone hi hentries hslots
  · rw [if_pos hsaid]
    simp only [Attempt.WritesApart,Attempt.key,Attempt.allocating,Attempt.entersFirst,forall_const]
    rw [slotFor] at hslot
    cases hi : st.indexOf (keys.logSettingsKey s.address) with
    | some v =>
      rw [hi] at hslot
      obtain ⟨rfl,rfl⟩ := Prod.mk.inj (Option.some_inj.mp hslot)
      simp only [reduceCtorEq,false_implies,true_and,and_true]
      exact rewritten_iff rfl hone hi hentries hends
    | none =>
      rw [hi] at hslot
      obtain ⟨⟨n,mid⟩,ha,he⟩ := Option.map_eq_some_iff.mp hslot
      obtain ⟨rfl,rfl⟩ := Prod.mk.inj he
      have hra : (s.filed keys rules inherited).address=keys.logSettingsKey s.address := rfl
      have hall := allocated_iff true hra hone hone' (indexOf_none.mp hi) ha <| by
        rcases hends with ⟨hf,hs⟩ | ⟨hf,hs⟩
        · exact .inl ⟨hf,hs,hentries⟩
        · exact .inr ⟨hf,hentries,hs⟩
      rw [hall,ha]
      simp

private theorem failed_adopt_iff (hone : OneToOne st.entries) {address : String} {failed : List FailedWrite}
    {res : LogFileStore×LogFileSettings P F H}
    (hr : (st.read keys rules address).Runs FailingDisk.Does (d,[]) res (d',failed)) (hfail : failed≠[]) :
    LosesNothing (keys.logSettingsKey address) st d res.1 d'↔
      (Attempt.adopt address).Spares keys rules st d failed := by
  have hk : (st.read (P:=P) keys rules address).Keeps (Gives (fun _ => True) fun _ => True)
    (Asks fun _ => True) _ :=
    read_keeps hone fun _ _ _ _ _ => trivial
  have hone' : OneToOne res.1.entries := (hk.runs (fun _ _ _ _ => gives_of_does) hr).1
  obtain ⟨hi,r,slot,after,hheld,ha,hends⟩ := read_runs hr hfail
  have hbeside : OneToOne (st.beside (keys.legacyLogSettingsKey address)).entries := hone
  have hra : ({r with address := keys.logSettingsKey address} : LogFileSettings P F H).address=
    keys.logSettingsKey address := rfl
  have hall := allocated_iff false hra hbeside hone' (indexOf_none.mp hi) ha <| by
    rcases hends with ⟨hf,hs,hentries⟩ | ⟨hf,hentries,hs⟩
    · exact .inl ⟨hf,hs,hentries⟩
    · exact .inr ⟨hf,hentries,hs⟩
  simp only [Bool.false_eq_true,false_implies,and_true] at hall
  simp only [Attempt.Spares,Attempt.written,hheld,Option.map_some,Attempt.WritesApart,Attempt.key,
    Attempt.allocating,Attempt.entersFirst,hi,forall_const,Bool.false_eq_true,false_implies,and_true]
  exact hall

/-- A save or an adoption with a write that fails loses nothing exactly when it evicts nothing that can be read,
and brings nothing in. -/
theorem failed_write [DecidableEq F] [DecidableEq H] (h : Reached keys rules P ClearMap st)
    {a : Attempt P F H} {failed : List FailedWrite}
    (hr : (a.perform keys rules st).Runs FailingDisk.Does (d,[]) st' (d',failed)) (hfail : failed≠[]) :
    LosesNothing (a.key keys) st d st' d'↔a.Spares keys rules st d failed := by
  have hone := h.invariant
  cases a with
  | save s inherited =>
    obtain ⟨res,w,hsave,rfl,rfl⟩ := Program.runs_bind.mp hr
    exact failed_save_iff hone hsave hfail
  | adopt address =>
    obtain ⟨res,w,hread,rfl,rfl⟩ := Program.runs_bind.mp hr
    exact failed_adopt_iff hone hread hfail

/-- A save whose slot file cannot be written. -/
theorem save_fails {s : LogFileSettings P F H} {inherited : P} (hro : st.readOnly=false)
    (hff : st.fromFuture (keys.logSettingsKey s.address)=false)
    (hsaid : (s.filed keys rules inherited).saysSomething rules)
    (hslot : st.slotFor (keys.logSettingsKey s.address)=some (slot,after)) (error : String) :
    (st.save keys rules s inherited).Runs FailingDisk.Does (d,[]) (after,⟨false,some error⟩) (d,[.slot]) := by
  rw [save]
  dsimp only [LogFileSettings.reduce_address]
  rw [hro,hff,if_neg (by simp),if_neg (by simp),if_neg (fun h => by
    change (!(s.filed keys rules inherited).saysSomething rules)=true at h
    simp [hsaid] at h),hslot]
  apply Program.runs_ask.mpr
  exact ⟨(some error : Option String),(d,[.slot]),⟨rfl,rfl⟩,rfl,rfl⟩

/-! ## A full pool -/

def logName (n : ℕ) : String := String.ofList (List.replicate (n+1) 'a')

theorem logName_injective {n m : ℕ} (h : logName n=logName m) : n=m := by
  have hl := congrArg (fun s : String => s.toList.length) h
  simpa [logName] using hl

/-- A map that gives each of the slots to a log. -/
def poolMap (slots : List ℕ) : MapDoc := ⟨1,0,slots.map fun n => ⟨logName n,n,0⟩⟩

/-- Each slot file has the record of its log, with a profile of its own. -/
def poolDisk (slots : List ℕ) : StoreDisk Bool Unit Unit :=
  ⟨some (poolMap slots),fun n => some (⟨logName n,some true,(),none,.last⟩ : LogFileSettings ..).toJson⟩

def pool (slots : List ℕ) : LogFileStore := (poolMap slots).entries.foldl loadEntry {initial with tick := 0}

section Pool
variable {slots : List ℕ}

theorem poolMap_claims (hlt : ∀n∈slots,n < kSlots) :
    (poolMap slots).entries.filterMap claim=slots.map fun n => (⟨logName n,n,0⟩ : StoreEntry) := by
  rw [poolMap]
  dsimp only
  induction slots with
  | nil => rfl
  | cons n l ih =>
    have hname : logName n≠"" := by
      intro h
      have hlen := congrArg (fun s : String => s.toList.length) h
      simp [logName] at hlen
    have hraw := claim_raw (e:=⟨logName n,n,0⟩) (hlt n (by simp))
    rw [List.map_cons,List.filterMap_cons,hraw,if_neg hname,ih fun m hm => hlt m (by simp [hm]),List.map_cons]

theorem poolMap_oneToOne (hnodup : slots.Nodup) (hlt : ∀n∈slots,n < kSlots) :
    OneToOne ((poolMap slots).entries.filterMap claim) := by
  rw [poolMap_claims hlt]
  refine ⟨?_,?_,?_⟩
  · rw [List.map_map]
    exact hnodup.map fun n m h => logName_injective h
  · rw [List.map_map]
    exact hnodup.map fun n m h => h
  · intro e he
    obtain ⟨n,hn,rfl⟩ := List.mem_map.mp he
    exact hlt n hn

private theorem pool_entries (hnodup : slots.Nodup) (hlt : ∀n∈slots,n < kSlots) :
    (pool slots).entries=slots.map fun n => (⟨logName n,n,0⟩ : StoreEntry) := by
  have hload : ((poolMap slots).entries.foldl loadEntry {initial with tick := 0}).entries=_ :=
    foldl_loadEntry (poolMap_oneToOne hnodup hlt)
  rw [← poolMap_claims hlt]
  exact hload

theorem pool_reached (hnodup : slots.Nodup) (hlt : ∀n∈slots,n < kSlots) :
    Reached plainKeys plainRules Bool ClearMap (pool slots) := by
  refine .call .load .initial ⟨(some (poolMap slots) : Option MapDoc),(),?_,rfl,rfl⟩
  intro d hd _
  obtain rfl := Option.some_inj.mp hd
  exact clear_of_oneToOne (poolMap_oneToOne hnodup hlt)

private theorem firstFree_none {l : List StoreEntry} {left n : ℕ} (h : ∀m,n ≤ m → m < n+left → ∃x∈l,x.slot=m) :
    firstFree l left n=none := by
  induction left generalizing n with
  | zero => rfl
  | succ left ih =>
    rw [firstFree,if_pos]
    · exact ih fun m hm hlt => h m (by omega) (by omega)
    · obtain ⟨x,hx,hs⟩ := h n (Nat.le_refl n) (by omega)
      exact List.any_eq_true.mpr ⟨x,hx,by simpa using hs⟩

/-- In a full pool a save of a new log evicts a record before it writes, and a write that fails leaves it
evicted. -/
theorem full_pool_loses (hnodup : slots.Nodup) (hlt : ∀n∈slots,n < kSlots) (hall : ∀n,n < kSlots → n∈slots)
    {s : LogFileSettings Bool Unit Unit} {n : ℕ} (hs : s=⟨logName n,some true,(),none,.last⟩) (hn : n∉slots)
    (error : String) :
    ∃st',((Attempt.save s false).perform plainKeys plainRules (pool slots)).Runs FailingDisk.Does
    (poolDisk slots,[]) st' (poolDisk slots,[.slot]) ∧
      ¬LosesNothing s.address (pool slots) (poolDisk slots) st' (poolDisk slots) := by
  have hentries := pool_entries hnodup hlt
  have hone := (pool_reached hnodup hlt).invariant
  obtain ⟨hpinned,hfuture,hro⟩ : (pool slots).pinned=(fun _ => false) ∧ (pool slots).fromFuture=(fun _ => false) ∧
      (pool slots).readOnly=false := foldl_loadEntry_flags (poolMap slots).entries
  have hnone : (pool slots).indexOf s.address=none := by
    apply indexOf_none.mpr
    intro x hx hxs
    rw [hentries] at hx
    obtain ⟨m,hm,rfl⟩ := List.mem_map.mp hx
    rw [hs] at hxs
    exact hn (logName_injective hxs ▸ hm)
  have hfree : (pool slots).freeSlot=none := by
    apply firstFree_none
    intro m _ hm
    refine ⟨⟨logName m,m,0⟩,?_,rfl⟩
    rw [hentries]
    exact List.mem_map_of_mem (hall m (by omega))
  obtain ⟨v,hv⟩ : ∃v,(pool slots).victim=some v := by
    rw [victim]
    cases hl : leastUsed (fun e => !(pool slots).pinned e.address && !(pool slots).fromFuture e.address)
        (pool slots).entries with
    | some v => exact ⟨v,rfl⟩
    | none =>
      have hmem : (⟨logName 0,0,0⟩ : StoreEntry)∈(pool slots).entries := by
        rw [hentries]
        exact List.mem_map_of_mem (f:=fun n => (⟨logName n,n,0⟩ : StoreEntry)) (hall 0 (by decide))
      have helig := leastUsed_none hl hmem
      simp [hpinned,hfuture] at helig
  obtain ⟨hi,-⟩ := victim_some hv
  have hslot : (pool slots).slotFor s.address=some
    (v.1.slot,((pool slots).dropEntry v.2).addEntry s.address v.1.slot) := by
    rw [slotFor,hnone]
    dsimp only
    rw [allocateSlot,hfree,hv]
    rfl
  have hsaid : (s.filed plainKeys plainRules false).saysSomething plainRules := by
    rw [hs]
    rfl
  have hrun : ((pool slots).save plainKeys plainRules s false).Runs FailingDisk.Does (poolDisk slots,[]) _
    (poolDisk slots,[.slot]) :=
    save_fails hro (by rw [hfuture]) hsaid hslot error
  refine ⟨_,Program.runs_bind.mpr ⟨_,_,hrun,rfl,rfl⟩,?_⟩
  intro h
  have hspares := (failed_save_iff hone hrun (by simp)).mp h
  rw [Attempt.Spares,Attempt.written,if_pos hsaid] at hspares
  have hnothing := hspares.1 hnone hfree v.1 v.2 hv
  have hmem := List.mem_of_getElem? hi
  rw [hentries] at hmem
  obtain ⟨m,hm,hme⟩ := List.mem_map.mp hmem
  have hheld : (pool slots).held (poolDisk slots) v.1.address=some ⟨logName m,some true,(),none,.last⟩ := by
    apply (held_some hone).mpr
    refine ⟨v.1,List.mem_of_getElem? hi,rfl,recordAt_some.mpr ⟨?_,_,rfl,?_⟩⟩
    · rw [← hme]
    · rw [← hme]
      rfl
  rw [hheld] at hnothing
  cases hnothing

end Pool

/-- Three logs have a record; one more is saved, and its slot file cannot be written. -/
theorem failed_write_beside :
    ∃st',((Attempt.save ⟨logName 7,some true,(),none,.last⟩ false).perform plainKeys plainRules
      (pool (List.range 3))).Runs
        FailingDisk.Does (poolDisk (List.range 3),[]) st' (poolDisk (List.range 3),[.slot]) ∧
      LosesNothing (logName 7) (pool (List.range 3)) (poolDisk (List.range 3)) st' (poolDisk (List.range 3)) := by
  have hreached : Reached plainKeys plainRules Bool ClearMap (pool (List.range 3)) :=
    pool_reached List.nodup_range fun n hn => Nat.lt_trans (List.mem_range.mp hn) (by decide)
  have hfree : (pool (List.range 3)).freeSlot=some 3 := by decide +kernel
  have hslot : (pool (List.range 3)).slotFor (logName 7)=some (3,(pool (List.range 3)).addEntry (logName 7) 3) := by
    have hnone : (pool (List.range 3)).indexOf (logName 7)=none := by decide +kernel
    rw [slotFor,hnone]
    dsimp only
    rw [allocateSlot,hfree]
    rfl
  have hrun : ((pool (List.range 3)).save plainKeys plainRules
      (⟨logName 7,some true,(),none,.last⟩ : LogFileSettings Bool Unit Unit) false).Runs FailingDisk.Does
        (poolDisk (List.range 3),[]) _ (poolDisk (List.range 3),[.slot]) :=
    save_fails (by decide +kernel) (by decide +kernel) (by decide) hslot "No space left on device"
  have hsave : ((Attempt.save ⟨logName 7,some true,(),none,.last⟩ false).perform plainKeys plainRules
    (pool (List.range 3))).Runs
      FailingDisk.Does (poolDisk (List.range 3),[]) ((pool (List.range 3)).addEntry (logName 7) 3)
      (poolDisk (List.range 3),[.slot]) := Program.runs_bind.mpr ⟨_,_,hrun,rfl,rfl⟩
  refine ⟨_,hsave,(failed_write hreached hsave (by simp)).mpr ⟨?_,?_,?_⟩⟩
  · intro _ hnone
    rw [hfree] at hnone
    cases hnone
  · intro hmap
    cases hmap
  · -- the file of the free slot is left of another log
    intro _ _ slot after ha
    rw [allocateSlot,hfree] at ha
    obtain ⟨rfl,rfl⟩ := Prod.mk.inj (Option.some_inj.mp ha)
    decide +kernel

/-- Every slot taken, one more log saved, and the disk full. -/
theorem disk_full_loses :
    Reached plainKeys plainRules Bool ClearMap (pool (List.range kSlots)) ∧
    ∃st',((Attempt.save ⟨logName kSlots,some true,(),none,.last⟩ false).perform plainKeys plainRules
        (pool (List.range kSlots))).Runs FailingDisk.Does (poolDisk (List.range kSlots),[]) st'
        (poolDisk (List.range kSlots),[.slot]) ∧
      ¬LosesNothing (logName kSlots) (pool (List.range kSlots)) (poolDisk (List.range kSlots)) st'
        (poolDisk (List.range kSlots)) :=
  ⟨pool_reached List.nodup_range fun _ hn => List.mem_range.mp hn,
    full_pool_loses List.nodup_range (fun _ hn => List.mem_range.mp hn) (fun _ hn => List.mem_range.mpr hn) rfl
      (fun h => absurd (List.mem_range.mp h) (Nat.lt_irrefl _)) "No space left on device"⟩

end LogFileStore

end Loftail
