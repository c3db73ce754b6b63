import Mathlib.Data.Int.Notation
import Mathlib.Data.List.Perm.Basic

/-! # The idle sessions that an errand may take -/
namespace Loftail

inductive SshSessionRole
  | ExecOnly
  | Transport
  deriving DecidableEq

/-- One connection: which object it is, and what it was connected to and for. -/
structure SshSession where
  serial : ℕ
  target : String
  role : SshSessionRole
  deriving DecidableEq

/-- A session of this role has all that the need asks for. -/
def SshSessionRole.serves (role need : SshSessionRole) : Prop := role=need ∨ need=.ExecOnly ∧ role=.Transport

namespace SshSessionCache

/-- A session in the cache, which is never null: `checkIn` takes no null session. -/
structure Entry where
  target : String
  role : SshSessionRole
  session : SshSession
  idleSinceMs : ℤ

section Lists

/-- What stays and what goes of the sweep. -/
def takeExpired (idleMs nowMs : ℤ) (healthy : SshSession→Bool) : List Entry→List Entry×List Entry
  | [] => ([],[])
  | e::es =>
    let r := takeExpired idleMs nowMs healthy es
    if nowMs-e.idleSinceMs≥idleMs ∨ healthy e.session=false then (r.1,e::r.2) else (e::r.1,r.2)

/-- The entry to hand out and its place. An exact match ends the search; a session that may be borrowed is
remembered. -/
def pick (target : String) (need : SshSessionRole) : List Entry→ℕ→Option (ℕ×Entry)→Option (ℕ×Entry)
  | [],_,found => found
  | e::es,i,found =>
    if e.target≠target then pick target need es (i+1) found
    else if e.role=need then some (i,e)
    else if need=.ExecOnly ∧ e.role=.Transport ∧ found=none then pick target need es (i+1) (some (i,e))
    else pick target need es (i+1) found

/-- What stays within the capacity and what goes, the oldest first. -/
def evict (capacity : ℕ) : List Entry→List Entry×List Entry
  | [] => ([],[])
  | e::es => if (e::es).length > capacity then ((evict capacity es).1,e::(evict capacity es).2) else (e::es,[])

theorem takeExpired_perm (idleMs nowMs : ℤ) (healthy : SshSession→Bool) (es : List Entry) :
    ((takeExpired idleMs nowMs healthy es).1++(takeExpired idleMs nowMs healthy es).2).Perm es := by
  induction es with
  | nil => exact .refl _
  | cons e es ih =>
    unfold takeExpired
    split
    · exact List.perm_middle.trans (ih.cons e)
    · exact ih.cons e

theorem takeExpired_length (idleMs nowMs : ℤ) (healthy : SshSession→Bool) (es : List Entry) :
    (takeExpired idleMs nowMs healthy es).1.length≤es.length := by
  have h := (takeExpired_perm idleMs nowMs healthy es).length_eq
  rw [List.length_append] at h
  omega

/-- A place found is that of an entry of the target, whose role serves. -/
theorem pick_some {target : String} {need : SshSessionRole} {j : ℕ} {e : Entry} (es : List Entry) {i : ℕ}
    {found : Option (ℕ×Entry)} (h : pick target need es i found=some (j,e)) :
    found=some (j,e) ∨ (i≤j ∧ es[j-i]?=some e ∧ e.target=target ∧ e.role.serves need) := by
  induction es generalizing i found with
  | nil => exact .inl h
  | cons e' es ih =>
    have later : ∀{found : Option (ℕ×Entry)},pick target need es (i+1) found=some (j,e) →
        found=some (j,e) ∨ (i≤j ∧ (e'::es)[j-i]?=some e ∧ e.target=target ∧ e.role.serves need) := by
      intro found hf
      obtain hf | ⟨hij,he,hrest⟩ := ih hf
      · exact .inl hf
      · have hidx : j-i=j-(i+1)+1 := by omega
        exact .inr ⟨by omega,by rw [hidx,List.getElem?_cons_succ,he],hrest⟩
    have here : (i,e')=(j,e) → e'.target=target → e'.role.serves need →
        i≤j ∧ (e'::es)[j-i]?=some e ∧ e.target=target ∧ e.role.serves need := by
      intro heq htarget hserves
      obtain ⟨rfl,rfl⟩ := Prod.mk.inj heq
      exact ⟨Nat.le_refl _,by simp,htarget,hserves⟩
    unfold pick at h
    split at h
    · exact later h
    · rename_i htarget
      have htarget := Classical.not_not.mp htarget
      split at h
      · rename_i hrole
        exact .inr (here (Option.some.inj h) htarget (.inl hrole))
      split at h
      · rename_i hborrow
        obtain hf | hf := later h
        · exact .inr (here (Option.some.inj hf) htarget (.inr ⟨hborrow.1,hborrow.2.1⟩))
        · exact .inr hf
      · exact later h

theorem evict_perm (capacity : ℕ) (es : List Entry) : ((evict capacity es).1++(evict capacity es).2).Perm es := by
  induction es with
  | nil => exact .refl _
  | cons e es ih =>
    unfold evict
    split
    · exact List.perm_middle.trans (ih.cons e)
    · simp

private theorem evict_length (capacity : ℕ) (es : List Entry) : (evict capacity es).1.length≤capacity := by
  induction es with
  | nil => exact Nat.zero_le _
  | cons e es ih =>
    unfold evict
    split
    · exact ih
    · rename_i hfits
      exact Nat.le_of_not_lt hfits

end Lists

end SshSessionCache

/-- The cache. It never holds more than its capacity, nor anything once closed. -/
structure SshSessionCache where
  idleMs : ℤ
  capacity : ℕ
  entries : List SshSessionCache.Entry
  closed : Bool
  room : entries.length≤capacity
  shut : closed=true → entries=[]

namespace SshSessionCache

/-- The constructor, whose capacity is floored at zero. -/
def ofCapacity (idleMs capacity : ℤ) : SshSessionCache :=
  ⟨idleMs,(max 0 capacity).toNat,[],false,Nat.zero_le _,fun _ => rfl⟩

/-- Fewer of the entries that are held. -/
def keep (c : SshSessionCache) (es : List Entry) (h : es.length≤c.entries.length) : SshSessionCache :=
  {c with entries := es
          room := Nat.le_trans h c.room
          shut := fun hc => List.length_eq_zero_iff.mp (Nat.le_zero.mp (by simpa [c.shut hc] using h))}

/-- What a checkout ends in: the cache, the session handed out with the role it is held under, and what goes. -/
structure Checkout where
  cache : SshSessionCache
  session : Option (SshSession×SshSessionRole)
  going : List SshSession

/-- The section of `checkOut`. Health is asked once by the sweep and once more of the entry that is picked. -/
def checkOut (c : SshSessionCache) (swept healthy : SshSession→Bool) (target : String) (need : SshSessionRole)
    (nowMs : ℤ) : Checkout :=
  let r := takeExpired c.idleMs nowMs swept c.entries
  let going := r.2.map Entry.session
  have hr := takeExpired_length c.idleMs nowMs swept c.entries
  if c.closed=false ∧ target≠"" then
    match pick target need r.1 0 none with
    | none => ⟨c.keep r.1 hr,none,going⟩
    | some (j,e) =>
      let c' := c.keep (r.1.eraseIdx j) (Nat.le_trans (List.length_eraseIdx_le _ _) hr)
      if healthy e.session then ⟨c',some (e.session,e.role),going⟩ else ⟨c',none,going++[e.session]⟩
  else ⟨c.keep r.1 hr,none,going⟩

/-- The section of `checkIn`: the cache and what goes. -/
def checkIn (c : SshSessionCache) (swept healthy : SshSession→Bool) (target : String) (role : SshSessionRole)
    (session : SshSession) (nowMs : ℤ) : SshSessionCache×List SshSession :=
  let r := takeExpired c.idleMs nowMs swept c.entries
  let going := r.2.map Entry.session
  if h : c.closed=true ∨ target="" ∨ healthy session=false then
    (c.keep r.1 (takeExpired_length c.idleMs nowMs swept c.entries),going++[session])
  else
    let kept := evict c.capacity (r.1++[⟨target,role,session,nowMs⟩])
    ({c with entries := kept.1
             room := evict_length _ _
             shut := fun hc => absurd (Or.inl hc) h},going++kept.2.map Entry.session)

/-- The section of `close`. -/
def close (c : SshSessionCache) : SshSessionCache×List SshSession :=
  ({c with entries := [],closed := true,room := Nat.zero_le _,shut := fun _ => rfl},c.entries.map Entry.session)

/-- The sessions held. -/
def sessions (c : SshSessionCache) : List SshSession := c.entries.map Entry.session

/-- Every entry is filed under what its session was connected to and for. -/
def Filed (c : SshSessionCache) : Prop := ∀e∈c.entries,e.target=e.session.target ∧ e.role=e.session.role

section Sections
variable (c : SshSessionCache) (swept healthy : SshSession→Bool) (target : String) (need role : SshSessionRole)
  (session : SshSession) (nowMs : ℤ)

@[simp] theorem keep_sessions (es : List Entry) (h : es.length≤c.entries.length) :
    (c.keep es h).sessions=es.map Entry.session := rfl

theorem swept_perm : ((takeExpired c.idleMs nowMs swept c.entries).1.map Entry.session++
    (takeExpired c.idleMs nowMs swept c.entries).2.map Entry.session).Perm c.sessions := by
  rw [← List.map_append]
  exact (takeExpired_perm _ _ _ _).map _

theorem swept_mem {e : Entry} (he : e∈(takeExpired c.idleMs nowMs swept c.entries).1) : e∈c.entries :=
  (takeExpired_perm c.idleMs nowMs swept c.entries).subset (List.mem_append_left _ he)

/-- Entry `e` out of place `j`. -/
theorem eraseIdx_perm {es : List Entry} {j : ℕ} {e : Entry} (h : es[j]?=some e) : (e::es.eraseIdx j).Perm es := by
  obtain ⟨hj,rfl⟩ := List.getElem?_eq_some_iff.mp h
  exact List.getElem_cons_eraseIdx_perm hj

/-- Nothing is made and nothing is lost by a checkout. -/
theorem checkOut_perm : (((c.checkOut swept healthy target need nowMs).session.map Prod.fst).toList++
    (c.checkOut swept healthy target need nowMs).going++
    (c.checkOut swept healthy target need nowMs).cache.sessions).Perm c.sessions := by
  have hswept := c.swept_perm swept nowMs
  unfold checkOut
  dsimp only
  split
  · split
    · exact List.perm_append_comm.trans hswept
    · rename_i j e hpick
      obtain hf | ⟨-,hj,-⟩ := pick_some _ hpick
      · cases hf
      have herase := (eraseIdx_perm hj).map Entry.session
      have hall := (herase.append_right _).trans hswept
      split
      · refine List.Perm.trans ?_ hall
        simpa using List.perm_append_comm
      · refine List.Perm.trans ?_ hall
        simpa using List.perm_middle.trans (List.perm_append_comm.cons _)
  · exact List.perm_append_comm.trans hswept

theorem checkOut_capacity : (c.checkOut swept healthy target need nowMs).cache.capacity=c.capacity := by
  unfold checkOut
  dsimp only
  split
  · split
    · rfl
    · split <;> rfl
  · rfl

theorem checkIn_capacity : (c.checkIn swept healthy target role session nowMs).1.capacity=c.capacity := by
  unfold checkIn
  dsimp only
  split <;> rfl

theorem checkOut_filed (h : c.Filed) : (c.checkOut swept healthy target need nowMs).cache.Filed := by
  have hswept : ∀e∈(takeExpired c.idleMs nowMs swept c.entries).1,e.target=e.session.target ∧
    e.role=e.session.role :=
    fun e he => h e (c.swept_mem swept nowMs he)
  unfold checkOut
  dsimp only
  split
  · split
    · exact hswept
    · split
      · exact fun e he => hswept e (List.mem_of_mem_eraseIdx he)
      · exact fun e he => hswept e (List.mem_of_mem_eraseIdx he)
  · exact hswept

/-- A session handed out is healthy, to the target, and of a role that serves. -/
theorem checkOut_session (h : c.Filed) {s : SshSession} {r : SshSessionRole}
    (hs : (c.checkOut swept healthy target need nowMs).session=some (s,r)) :
    healthy s=true ∧ s.target=target ∧ s.role=r ∧ r.serves need := by
  unfold checkOut at hs
  dsimp only at hs
  split at hs
  · split at hs
    · cases hs
    · rename_i j e hpick
      obtain hf | ⟨-,hj,htarget,hserves⟩ := pick_some _ hpick
      · cases hf
      obtain ⟨hfiled,hrole⟩ := h e (c.swept_mem swept nowMs (List.mem_of_getElem? hj))
      split at hs
      · rename_i hhealthy
        obtain ⟨rfl,rfl⟩ := Prod.mk.inj (Option.some.inj hs)
        exact ⟨hhealthy,hfiled.symm.trans htarget,hrole.symm,hserves⟩
      · cases hs
  · cases hs

/-- Nothing is lost by a check-in. -/
theorem checkIn_perm : ((c.checkIn swept healthy target role session nowMs).2++
    (c.checkIn swept healthy target role session nowMs).1.sessions).Perm (session::c.sessions) := by
  have hswept := c.swept_perm swept nowMs
  unfold checkIn
  dsimp only
  split
  · have hall := (List.perm_append_comm.trans hswept).cons session
    simpa using List.perm_middle.trans hall
  · have hkept := (evict_perm c.capacity
      ((takeExpired c.idleMs nowMs swept c.entries).1++[⟨target,role,session,nowMs⟩])).map
      Entry.session
    rw [List.map_append,List.map_append] at hkept
    have hall := ((List.perm_append_comm.trans hkept).append_left
      ((takeExpired c.idleMs nowMs swept c.entries).2.map Entry.session))
    rw [List.append_assoc]
    refine hall.trans ?_
    have hout := (List.perm_append_comm.trans hswept).cons session
    simpa [← List.append_assoc] using List.perm_append_comm.trans hout

theorem checkIn_filed (h : c.Filed) (ht : target=session.target) (hrole : role=session.role) :
    (c.checkIn swept healthy target role session nowMs).1.Filed := by
  have hswept : ∀e∈(takeExpired c.idleMs nowMs swept c.entries).1,e.target=e.session.target ∧
    e.role=e.session.role :=
    fun e he => h e (c.swept_mem swept nowMs he)
  unfold checkIn
  dsimp only
  split
  · exact hswept
  · intro e he
    have he := (evict_perm _ _).subset (List.mem_append_left _ he)
    obtain he | he := List.mem_append.mp he
    · exact hswept e he
    · cases List.mem_singleton.mp he
      exact ⟨ht,hrole⟩

theorem close_perm : (c.close.2++c.close.1.sessions).Perm c.sessions := by
  simp [close,sessions]

theorem close_filed : c.close.1.Filed := fun _ he => nomatch he

end Sections

end SshSessionCache

end Loftail
