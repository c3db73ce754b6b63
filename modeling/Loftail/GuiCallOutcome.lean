import Loftail.GuiCallGateRuns

/-! # What becomes of a call

The activities at a call, and its place in the queue, tell where it is; its flags and its answer
agree with that in every run. -/
namespace Loftail
open Interleaving

namespace GuiCallGate

namespace Tally

instance : Add Tally :=
  ⟨fun n m => ⟨n.checked+m.checked,n.inline+m.inline,n.parked+m.parked,n.queued+m.queued,n.run+m.run,n.skip+m.skip⟩⟩

instance : Sub Tally :=
  ⟨fun n m => ⟨n.checked-m.checked,n.inline-m.inline,n.parked-m.parked,n.queued-m.queued,n.run-m.run,n.skip-m.skip⟩⟩

def none : Tally := ⟨0,0,0,0,0,0⟩

variable {n m : Tally}

@[simp] theorem add_checked : (n+m).checked=n.checked+m.checked := rfl

@[simp] theorem add_inline : (n+m).inline=n.inline+m.inline := rfl

@[simp] theorem add_parked : (n+m).parked=n.parked+m.parked := rfl

@[simp] theorem add_queued : (n+m).queued=n.queued+m.queued := rfl

@[simp] theorem add_run : (n+m).run=n.run+m.run := rfl

@[simp] theorem add_skip : (n+m).skip=n.skip+m.skip := rfl

@[simp] theorem sub_checked : (n-m).checked=n.checked-m.checked := rfl

@[simp] theorem sub_inline : (n-m).inline=n.inline-m.inline := rfl

@[simp] theorem sub_parked : (n-m).parked=n.parked-m.parked := rfl

@[simp] theorem sub_queued : (n-m).queued=n.queued-m.queued := rfl

@[simp] theorem sub_run : (n-m).run=n.run-m.run := rfl

@[simp] theorem sub_skip : (n-m).skip=n.skip-m.skip := rfl

private theorem add_sub_self : n+m-m=n := by
  apply Tally.ext <;> simp

theorem add_none : n+none=n := rfl

theorem sub_none : n-none=n := rfl

end Tally

/-- What one activity adds to the tally of a call. -/
def one (c : ℕ) (p : GuiPhase) : Tally :=
  ⟨(GuiPhase.isChecked c p).toNat,(GuiPhase.isInline c p).toNat,(GuiPhase.isParked c p).toNat,0,
    (GuiPhase.isDraining c true p).toNat,(GuiPhase.isDraining c false p).toNat⟩

variable {th : GuiThreads} {g g' : GuiCallGate} {k t c d : ℕ} {a : GuiActivity} {p : GuiPhase} {x y : GuiCall}
  {n : Tally}

section One
attribute [local simp] one GuiPhase.isChecked GuiPhase.isInline GuiPhase.isParked GuiPhase.isDraining

theorem one_checked : one c (.checked c)=⟨1,0,0,0,0,0⟩ := by
  simp

theorem one_inline {o : Bool} : one c (.inline c o)=⟨0,1,0,0,0,0⟩ := by
  simp

private theorem one_leaving : one c (.leaving c)=⟨0,1,0,0,0,0⟩ := by
  simp

private theorem one_queued : one c (.queued c)=⟨0,0,1,0,0,0⟩ := by
  simp

theorem one_waiting : one c (.waiting c)=⟨0,0,1,0,0,0⟩ := by
  simp

theorem one_run : one c (.draining c true)=⟨0,0,0,0,1,0⟩ := by
  simp

theorem one_skip : one c (.draining c false)=⟨0,0,0,0,0,1⟩ := by
  simp

/-- An activity counts only at its own call. -/
theorem one_other (h : p.call≠some c) : one c p=.none := by
  cases p with
  | rearming => rfl
  | ended => rfl
  | _ d =>
    have hne : d≠c := fun hd => h (congrArg some hd)
    simp [Tally.none,hne]

end One

theorem tally_setPhase (hk : g.activities[k]?=some a) (c : ℕ) :
    (g.setPhase k t p).tally c=g.tally c+one c p-one c a.phase := by
  have hm : ∀(q : GuiPhase→Bool),(g.setPhase k t p).many q=g.many q+(q p).toNat-(q a.phase).toNat := by
    intro q
    have := many_setPhase (t:=t) (p:=p) hk q
    omega
  apply Tally.ext
  · exact hm _
  · exact hm _
  · exact hm _
  · rfl
  · exact hm _
  · exact hm _

theorem tally_startPhase (c : ℕ) : (g.startPhase t p).tally c=g.tally c+one c p := by
  apply Tally.ext
  · exact many_startPhase _
  · exact many_startPhase _
  · exact many_startPhase _
  · rfl
  · exact many_startPhase _
  · exact many_startPhase _

/-- The tally reads the activities and the queue. -/
theorem tally_congr (ha : g'.activities=g.activities) (hq : g'.queue=g.queue) (c : ℕ) : g'.tally c=g.tally c := by
  simp only [tally,many,ha,hq]

/-! ## The places of a call -/

/-- The caller waits, or it has given up. -/
def Asked (x : GuiCall) (waits : ℕ) : Prop :=
  (waits=1 ∧ x.returned=none) ∨ (waits=0 ∧ x.returned=some false ∧ x.abandoned=true)

/-- The answer of a call that has work says whether the work ran. -/
def Answered (x : GuiCall) : Prop := ∃b,x.returned=some b ∧ (x.work=true→(b=true ↔ x.ran=1))

/-- Where a call is, what its flags say there, and how the tally shows it. -/
inductive Situation (x : GuiCall) (n : Tally) : Prop
  | fresh (hn : n=⟨1,0,0,0,0,0⟩) (hd : x.done=false) (ha : x.abandoned=false) (hs : x.started=false)
    (hran : x.ran=0)
      (hr : x.returned=none)
  | inline (hn : n=⟨0,1,0,0,0,0⟩) (hran : x.ran=1) (hr : x.returned=none)
  | queued (w : ℕ) (hn : n=⟨0,0,w,1,0,0⟩) (hd : x.done=false) (hs : x.started=false) (hran : x.ran=0)
    (hw : Asked x w)
  | run (hn : n=⟨0,0,1,0,1,0⟩) (hd : x.done=false) (ha : x.abandoned=false) (hs : x.started=true) (hran : x.ran=1)
      (hr : x.returned=none)
  | skip (w : ℕ) (hn : n=⟨0,0,w,0,0,1⟩) (hd : x.done=false) (hs : x.started=false) (hran : x.ran=0)
      (ha : x.abandoned=true ∨ x.work=false) (hw : Asked x w)
  | done (w : ℕ) (hn : n=⟨0,0,w,0,0,0⟩) (hd : x.done=true)
      (hran : (x.ran=1 ∧ x.abandoned=false) ∨ (x.ran=0 ∧ (x.abandoned=true ∨ x.work=false)))
      (hw : (w=1 ∧ x.returned=none) ∨ (w=0 ∧ Answered x))
  | ended (hn : n=.none) (hran : x.ran≤1) (hr : Answered x)

/-- Every call is in one of the places, and what is no call is nowhere. -/
structure Accounted (g : GuiCallGate) : Prop where
  made : ∀(c : ℕ) (x : GuiCall),g.calls[c]?=some x→Situation x (g.tally c)
  unmade : ∀(c : ℕ),g.calls.length≤c → g.tally c=.none

namespace Situation

theorem of_checked (h : Situation x n) (hn : 0 < n.checked) :
    n=⟨1,0,0,0,0,0⟩ ∧ x.done=false ∧ x.abandoned=false ∧ x.started=false ∧ x.ran=0 ∧ x.returned=none := by
  cases h with
  | fresh hn' hd ha hs hran hr => exact ⟨hn',hd,ha,hs,hran,hr⟩
  | _ => simp_all [Tally.none]

theorem of_inline (h : Situation x n) (hn : 0 < n.inline) : n=⟨0,1,0,0,0,0⟩ ∧ x.ran=1 ∧ x.returned=none := by
  cases h with
  | inline hn' hran hr => exact ⟨hn',hran,hr⟩
  | _ => simp_all [Tally.none]

theorem of_queued (h : Situation x n) (hn : 0 < n.queued) :
    ∃w,n=⟨0,0,w,1,0,0⟩ ∧ x.done=false ∧ x.started=false ∧ x.ran=0 ∧ Asked x w := by
  cases h with
  | queued w hn' hd hs hran hw => exact ⟨w,hn',hd,hs,hran,hw⟩
  | _ => simp_all [Tally.none]

theorem of_run (h : Situation x n) (hn : 0 < n.run) :
    n=⟨0,0,1,0,1,0⟩ ∧ x.done=false ∧ x.abandoned=false ∧ x.started=true ∧ x.ran=1 ∧ x.returned=none := by
  cases h with
  | run hn' hd ha hs hran hr => exact ⟨hn',hd,ha,hs,hran,hr⟩
  | _ => simp_all [Tally.none]

private theorem of_skip (h : Situation x n) (hn : 0 < n.skip) :
    ∃w,n=⟨0,0,w,0,0,1⟩ ∧ x.done=false ∧ x.started=false ∧ x.ran=0 ∧ (x.abandoned=true ∨ x.work=false) ∧
    Asked x w := by
  cases h with
  | skip w hn' hd hs hran ha hw => exact ⟨w,hn',hd,hs,hran,ha,hw⟩
  | _ => simp_all [Tally.none]

private theorem ran_le (h : Situation x n) : x.ran≤1 := by
  cases h with
  | ended hn hran hr => exact hran
  | done w hn hd hran hw => omega
  | _ => omega

/-- The answer, once there is one. -/
theorem answer (h : Situation x n) (hw : x.work=true) {b : Bool} (hb : x.returned=some b) : b=true ↔ x.ran=1 := by
  have hans : Answered x→(b=true ↔ x.ran=1) := by
    rintro ⟨b',hb',hiff⟩
    obtain rfl := Option.some_inj.mp (hb.symm.trans hb')
    exact hiff hw
  have hask : ∀{w : ℕ},x.ran=0→Asked x w→(b=true ↔ x.ran=1) := by
    rintro w hran (⟨-,hr⟩ | ⟨-,hr,-⟩)
    · rw [hr] at hb
      cases hb
    · rw [hr] at hb
      obtain rfl := Option.some_inj.mp hb
      simp [hran]
  cases h with
  | fresh hn hd ha hs hran hr => simp [hr] at hb
  | inline hn hran hr => simp [hr] at hb
  | queued w hn hd hs hran hw => exact hask hran hw
  | run hn hd ha hs hran hr => simp [hr] at hb
  | skip w hn hd hs hran ha hw => exact hask hran hw
  | done w hn hd hran hw' =>
    rcases hw' with ⟨-,hr⟩ | ⟨-,hr⟩
    · simp [hr] at hb
    · exact hans hr
  | ended hn hran hr => exact hans hr

/-- Abandoned while it is queued. -/
theorem abandon (h : Situation x n) (hn : 0 < n.queued) : Situation {x with abandoned := true} n := by
  obtain ⟨w,hn',hd,hs,hran,hw⟩ := h.of_queued hn
  refine .queued w hn' hd hs hran ?_
  rcases hw with ⟨hw,hr⟩ | ⟨hw,hr,-⟩
  · exact Or.inl ⟨hw,hr⟩
  · exact Or.inr ⟨hw,hr,rfl⟩

end Situation

/-! ## Every step accounts for every call -/

/-- An activity at a call shows in its tally. -/
theorem tally_pos {q : GuiPhase→Bool} (hk : g.activities[k]?=some a) (hq : q a.phase=true) : 0 < g.many q :=
  many_pos.mpr ⟨k,a,hk,hq⟩

namespace Accounted

theorem congr (h : g.Accounted) (hc : g'.calls=g.calls) (ht : ∀d,g'.tally d=g.tally d) : g'.Accounted where
  made := by
    intro c x hx
    rw [ht]
    exact h.made c x (hc ▸ hx)
  unmade := by
    intro c hc'
    rw [ht]
    exact h.unmade c (hc ▸ hc')

/-- A step that concerns one call. -/
theorem update (h : g.Accounted) (hx : g.calls[c]?=some x) (hc : g'.calls=g.calls.set c y)
    (hother : ∀d,d≠c → g'.tally d=g.tally d) (hsit : Situation y (g'.tally c)) : g'.Accounted where
  made := by
    intro d z hz
    rw [hc,List.getElem?_set] at hz
    split at hz
    · rename_i hd
      subst hd
      split at hz
      · obtain rfl := Option.some_inj.mp hz
        exact hsit
      · cases hz
    · rename_i hd
      rw [hother d (Ne.symm hd)]
      exact h.made d z hz
  unmade := by
    intro d hd
    rw [hc,List.length_set] at hd
    have hlt := (List.getElem?_eq_some_iff.mp hx).1
    rw [hother d (by omega)]
    exact h.unmade d hd

/-- A thread goes on with its call, which it leaves where `p` says. -/
theorem proceeds (h : g.Accounted) (hk : g.activities[k]?=some a) (ha : a.phase.call=some c)
    (hp : p.call=some c ∨ p.call=none) (hx : g.calls[c]?=some x) (hc : g'.calls=g.calls.set c y)
    (hact : g'.activities=(g.setPhase k t p).activities) (hq : g'.queue=g.queue)
    (hsit : Situation y (g.tally c+one c p-one c a.phase)) : g'.Accounted := by
  have ht : ∀d,g'.tally d=g.tally d+one d p-one d a.phase := by
    intro d
    rw [tally_congr (g:=g.setPhase k t p) hact hq,tally_setPhase hk]
  refine h.update hx hc ?_ (by rwa [ht])
  intro d hd
  have hpd : p.call≠some d := by
    rcases hp with hp | hp
    · rw [hp]
      exact fun he => hd (Option.some_inj.mp he).symm
    · rw [hp]
      exact fun he => by cases he
  have had : a.phase.call≠some d := by
    rw [ha]
    exact fun he => hd (Option.some_inj.mp he).symm
  rw [ht,one_other hpd,one_other had,Tally.add_none,Tally.sub_none]

/-- It leaves the call as it was, and the call where it was. -/
theorem stays (h : g.Accounted) (hk : g.activities[k]?=some a) (hone : ∀d,one d p=one d a.phase)
    (hc : g'.calls=g.calls) (hact : g'.activities=(g.setPhase k t p).activities) (hq : g'.queue=g.queue) :
    g'.Accounted := by
  apply h.congr hc
  intro d
  rw [tally_congr (g:=g.setPhase k t p) hact hq,tally_setPhase hk,hone,Tally.add_sub_self]

/-- A drain takes the call that was queued first. -/
theorem starts (h : g.Accounted) {rest : List ℕ} (hfirst : g.queue=c::rest) (hp : p.call=some c)
    (hx : g.calls[c]?=some x) (hc : g'.calls=g.calls.set c y)
    (hact : g'.activities=(g.startPhase t p).activities) (hq : g'.queue=rest)
    (hsit : Situation y (g.tally c+one c p-⟨0,0,0,1,0,0⟩)) : g'.Accounted := by
  have ht : ∀d,g'.tally d=g.tally d+one d p-⟨0,0,0,if c=d then 1 else 0,0,0⟩ := by
    intro d
    have hpast : (g.startPhase t p).tally d=g.tally d+one d p := tally_startPhase d
    have hmany : ∀(q : GuiPhase→Bool),g'.many q=(g.startPhase t p).many q := by
      intro q
      rw [many,many,hact]
    rw [← hpast]
    apply Tally.ext
    · exact hmany _
    · exact hmany _
    · exact hmany _
    · show g'.queue.count d=g.queue.count d-if c=d then 1 else 0
      rw [hq,hfirst,List.count_cons]
      simp
    · exact hmany _
    · exact hmany _
  refine h.update hx hc ?_ (by rw [ht,if_pos rfl]; exact hsit)
  intro d hd
  have hpd : p.call≠some d := by
    rw [hp]
    exact fun he => hd (Option.some_inj.mp he).symm
  rw [ht,if_neg (Ne.symm hd),one_other hpd,Tally.add_none]
  exact Tally.sub_none

/-- A call is made: it is the newest. -/
theorem made_newest (h : g.Accounted) (hc : g'.calls=g.calls++[y])
    (hother : ∀d,d≠g.calls.length → g'.tally d=g.tally d) (hsit : Situation y (g'.tally g.calls.length)) :
    g'.Accounted where
  made := by
    intro d z hz
    rw [hc,List.getElem?_append] at hz
    split at hz
    · rename_i hd
      rw [hother d (by omega)]
      exact h.made d z hz
    · rename_i hd
      obtain ⟨hlt,hz⟩ := List.getElem?_eq_some_iff.mp hz
      simp only [List.length_cons,List.length_nil] at hlt
      have hlast : d=g.calls.length := by omega
      subst hlast
      simp only [Nat.sub_self,List.getElem_cons_zero] at hz
      subst hz
      exact hsit
  unmade := by
    intro d hd
    rw [hc,List.length_append,List.length_singleton] at hd
    rw [hother d (by omega)]
    exact h.unmade d (by omega)

end Accounted

private theorem accounted_entered (h : g.Accounted) (ht : g.top k=some a) (hp : a.phase=.checked c)
    (hx : g.calls[c]?=some x) :
    (((g.enterLocked a.thread).setPhase k a.thread (.inline c (decide (g.depth=0)))).setCall c
      {x with ran := x.ran+1}).Accounted := by
  have hk := top_getElem ht
  have hpos : 0 < (g.tally c).checked := tally_pos hk (by rw [hp]; simp [GuiPhase.isChecked])
  obtain ⟨hn,-,-,-,hran,hr⟩ := (h.made c x hx).of_checked hpos
  refine h.proceeds hk (by rw [hp]; rfl) (Or.inl rfl) hx rfl rfl rfl (.inline ?_ ?_ hr)
  · rw [hn,hp,one_inline,one_checked]
    rfl
  · show x.ran+1=1
    rw [hran]

private theorem accounted_turnedAway (h : g.Accounted) (ht : g.top k=some a) (hp : a.phase=.checked c)
    (hx : g.calls[c]?=some x) : (g.giveBack k t c x false).Accounted := by
  have hk := top_getElem ht
  have hpos : 0 < (g.tally c).checked := tally_pos hk (by rw [hp]; simp [GuiPhase.isChecked])
  obtain ⟨hn,-,-,-,hran,-⟩ := (h.made c x hx).of_checked hpos
  refine h.proceeds hk (by rw [hp]; rfl) (Or.inr rfl) hx rfl rfl rfl (.ended ?_ ?_ ⟨false,rfl,?_⟩)
  · rw [hn,hp,one_checked,one_other (by simp [GuiPhase.call])]
    rfl
  · show x.ran≤1
    omega
  · intro _
    show false=true ↔ x.ran=1
    simp [hran]

private theorem accounted_queued (h : g.Accounted) (ht : g.top k=some a) (hp : a.phase=.checked c)
    (hx : g.calls[c]?=some x) :
    Accounted {g.setPhase k t (.queued c) with queue := g.queue++[c]} := by
  have hk := top_getElem ht
  have hpos : 0 < (g.tally c).checked := tally_pos hk (by rw [hp]; simp [GuiPhase.isChecked])
  obtain ⟨hn,hd,-,hs,hran,hr⟩ := (h.made c x hx).of_checked hpos
  have htally : ∀d,tally {g.setPhase k t (.queued c) with queue := g.queue++[c]} d=
      g.tally d+one d (.queued c)-one d a.phase+⟨0,0,0,if c=d then 1 else 0,0,0⟩ := by
    intro d
    rw [← tally_setPhase (t:=t) hk]
    apply Tally.ext
    · rfl
    · rfl
    · rfl
    · show (g.queue++[c]).count d=g.queue.count d+if c=d then 1 else 0
      rw [List.count_append,List.count_singleton]
      simp
    · rfl
    · rfl
  have hsame : g.calls=g.calls.set c x := by
    obtain ⟨hlt,rfl⟩ := List.getElem?_eq_some_iff.mp hx
    exact (List.set_getElem_self hlt).symm
  refine h.update hx (by exact hsame) ?_ ?_
  · intro d hdc
    rw [htally,if_neg (Ne.symm hdc),one_other (by simpa [GuiPhase.call] using Ne.symm hdc),hp,
      one_other (by simpa [GuiPhase.call] using Ne.symm hdc)]
    rfl
  · rw [htally,if_pos rfl,hn,hp,one_queued,one_checked]
    exact .queued 1 rfl hd hs hran (Or.inl ⟨rfl,hr⟩)

private theorem accounted_left (h : g.Accounted) (ht : g.top k=some a) {o : Bool} (hp : a.phase=.inline c o)
    (hx : g.calls[c]?=some x) : (g.leave k t c x).Accounted := by
  have hk := top_getElem ht
  have hpos : 0 < (g.tally c).inline := tally_pos hk (by rw [hp]; simp [GuiPhase.isInline])
  obtain ⟨hn,hran,-⟩ := (h.made c x hx).of_inline hpos
  have hcalls : g.leaveLocked.calls=g.calls := by
    unfold leaveLocked
    split <;> rfl
  have hqueue : g.leaveLocked.queue=g.queue := by
    unfold leaveLocked
    split <;> rfl
  have hset : ∀q,(g.leaveLocked.setPhase k t q).activities=(g.setPhase k t q).activities := by
    intro q
    rw [setPhase,setPhase,leaveLocked_activities]
  unfold leave
  dsimp only
  split
  · refine h.stays (t:=t) (p:=.leaving c) hk ?_ hcalls (hset _) hqueue
    intro d
    rw [hp]
    rfl
  · refine h.proceeds hk (by rw [hp]; rfl) (Or.inr rfl) hx (by rw [← hcalls]; rfl) (hset .ended) hqueue
      (.ended ?_ ?_ ⟨true,rfl,?_⟩)
    · rw [hn,hp,one_inline,one_other (by simp [GuiPhase.call])]
      rfl
    · exact hran.le
    · intro _
      show true=true ↔ x.ran=1
      simp [hran]

private theorem accounted_rearmed (h : g.Accounted) (ht : g.top k=some a) (hp : a.phase=.leaving c)
    (hx : g.calls[c]?=some x) :
    Accounted {g.giveBack k t c x true with pending := g.pending+1} := by
  have hk := top_getElem ht
  have hpos : 0 < (g.tally c).inline := tally_pos hk (by rw [hp]; simp [GuiPhase.isInline])
  obtain ⟨hn,hran,-⟩ := (h.made c x hx).of_inline hpos
  refine h.proceeds hk (by rw [hp]; rfl) (Or.inr rfl) hx (by rfl) (t:=t) (p:=.ended) rfl rfl
    (.ended ?_ ?_ ⟨true,rfl,?_⟩)
  · rw [hn,hp,one_leaving,one_other (by simp [GuiPhase.call])]
    rfl
  · exact hran.le
  · intro _
    show true=true ↔ x.ran=1
    simp [hran]

/-- Its caller is answered once the call is done. -/
theorem accounted_answered (h : g.Accounted) (ht : g.top k=some a) (hp : a.phase=.waiting c)
    (hx : g.calls[c]?=some x) (hd : x.done=true) : (g.giveBack k t c x (!x.abandoned)).Accounted := by
  have hk := top_getElem ht
  have hpos : 0 < (g.tally c).parked := tally_pos hk (by rw [hp]; simp [GuiPhase.isParked])
  have hdone : g.tally c=⟨0,0,1,0,0,0⟩ ∧
      ((x.ran=1 ∧ x.abandoned=false) ∨ (x.ran=0 ∧ (x.abandoned=true ∨ x.work=false))) := by
    cases h.made c x hx with
    | done w hn hd' hran hw =>
      rcases hw with ⟨rfl,-⟩ | ⟨rfl,-⟩
      · exact ⟨hn,hran⟩
      · simp [hn] at hpos
    | _ => simp_all [Tally.none]
  obtain ⟨hn,hran⟩ := hdone
  refine h.proceeds hk (by rw [hp]; rfl) (Or.inr rfl) hx rfl rfl rfl (.ended ?_ ?_ ⟨_,rfl,?_⟩)
  · rw [hn,hp,one_waiting,one_other (by simp [GuiPhase.call])]
    rfl
  · show x.ran≤1
    omega
  · intro hw
    show (!x.abandoned)=true ↔ x.ran=1
    rcases hran with ⟨hran,ha⟩ | ⟨hran,ha | hwork⟩
    · simp [hran,ha]
    · simp [hran,ha]
    · exact absurd (hw.symm.trans hwork) (by decide)

/-- Its caller gives up a call that has not started: it is queued, or in the hands of a drain that
will not run it. -/
theorem accounted_gaveUp (h : g.Accounted) (ht : g.top k=some a) (hp : a.phase=.waiting c) (hx : g.calls[c]?=some x)
    (hd : x.done=false) (hs : x.started=false) :
    (g.giveBack k t c {x with abandoned := true} false).Accounted := by
  have hk := top_getElem ht
  have hpos : 0 < (g.tally c).parked := tally_pos hk (by rw [hp]; simp [GuiPhase.isParked])
  refine h.proceeds hk (by rw [hp]; rfl) (Or.inr rfl) hx rfl rfl rfl ?_
  rw [hp,one_waiting,one_other (by simp [GuiPhase.call])]
  cases h.made c x hx with
  | queued w hn _ _ hran hw =>
    have hw1 : w=1 := by
      rcases hw with ⟨hw,-⟩ | ⟨hw,-⟩
      · exact hw
      · simp [hn,hw] at hpos
    subst hw1
    exact .queued 0 (by rw [hn]; rfl) hd hs hran (Or.inr ⟨rfl,rfl,rfl⟩)
  | skip w hn _ _ hran ha hw =>
    have hw1 : w=1 := by
      rcases hw with ⟨hw,-⟩ | ⟨hw,-⟩
      · exact hw
      · simp [hn,hw] at hpos
    subst hw1
    exact .skip 0 (by rw [hn]; rfl) hd hs hran (Or.inl rfl) (Or.inr ⟨rfl,rfl,rfl⟩)
  | _ => simp_all [Tally.none]

private theorem accounted_drained (h : g.Accounted) (ht : g.top k=some a) {run : Bool}
    (hp : a.phase=.draining c run) (hx : g.calls[c]?=some x) : (g.drained k t c x run).Accounted := by
  have hk := top_getElem ht
  have hcalls : g.leaveLocked.calls=g.calls := by
    unfold leaveLocked
    split <;> rfl
  have hqueue : g.leaveLocked.queue=g.queue := by
    unfold leaveLocked
    split <;> rfl
  unfold drained
  dsimp only
  generalize hq : (if ((if run then g.leaveLocked else g).setCall c {x with done := true}).queue=[]
    then GuiPhase.ended else GuiPhase.rearming)=q
  have hcall : q.call=none := by
    rw [← hq,apply_ite GuiPhase.call]
    exact ite_self none
  have hnone : one c q=.none := one_other (by rw [hcall]; exact fun he => by cases he)
  cases run with
  | true =>
    have hpos : 0 < (g.tally c).run := tally_pos hk (by rw [hp]; simp [GuiPhase.isDraining])
    obtain ⟨hn,-,ha,-,hran,hr⟩ := (h.made c x hx).of_run hpos
    refine h.proceeds (t:=t) (p:=q) (y:={x with done := true}) hk (by rw [hp]; rfl) (Or.inr hcall) hx
      (by rw [← hcalls]; rfl) ?_ hqueue
      (.done 1 ?_ rfl (Or.inl ⟨hran,ha⟩) (Or.inl ⟨rfl,hr⟩))
    · show (g.leaveLocked.activities.set k _)=_
      rw [leaveLocked_activities]
      rfl
    · rw [hn,hp,one_run,hnone]
      rfl
  | false =>
    have hpos : 0 < (g.tally c).skip := tally_pos hk (by rw [hp]; simp [GuiPhase.isDraining])
    obtain ⟨w,hn,-,-,hran,ha,hw⟩ := (h.made c x hx).of_skip hpos
    refine h.proceeds (t:=t) (p:=q) hk (by rw [hp]; rfl) (Or.inr hcall) hx rfl rfl rfl
      (.done w ?_ rfl (Or.inr ⟨hran,ha⟩) ?_)
    · rw [hn,hp,one_skip,hnone]
      rfl
    · rcases hw with ⟨hw,hr⟩ | ⟨hw,hr,-⟩
      · exact Or.inl ⟨hw,hr⟩
      · refine Or.inr ⟨hw,false,hr,?_⟩
        intro _
        show false=true ↔ x.ran=1
        simp [hran]

private theorem accounted_called (h : g.Accounted) (t : ℕ) (work : Bool) :
    ({g with calls := g.calls++[GuiCall.new work]}.startPhase t (.checked g.calls.length)).Accounted := by
  have htally : ∀d,({g with calls := g.calls++[GuiCall.new work]}.startPhase t (.checked g.calls.length)).tally d=
      g.tally d+one d (.checked g.calls.length) := fun d => tally_startPhase d
  refine h.made_newest (y:=GuiCall.new work) rfl ?_ ?_
  · intro d hd
    rw [htally,one_other (by simpa [GuiPhase.call] using Ne.symm hd)]
    rfl
  · rw [htally,h.unmade _ (Nat.le_refl _),one_checked]
    exact .fresh rfl rfl rfl rfl rfl rfl

private theorem accounted_refused (h : g.Accounted) (work : Bool) :
    Accounted {g with calls := g.calls++[{GuiCall.new work with returned := some false}]} := by
  refine h.made_newest (y:={GuiCall.new work with returned := some false}) rfl (fun d _ => rfl) ?_
  refine .ended (h.unmade _ (Nat.le_refl _)) (Nat.zero_le _) ⟨false,rfl,?_⟩
  intro _
  simp [GuiCall.new]

private theorem accounted_taken (h : g.Accounted) {rest : List ℕ} (hq : g.queue=c::rest) (hx : g.calls[c]?=some x)
    (ha : x.abandoned=false) :
    ((({g with pending := g.pending-1,queue := rest}.setCall c {x with started := true,ran := x.ran+1}).enterLocked
      t).startPhase t (.draining c true)).Accounted := by
  have hpos : 0 < (g.tally c).queued := by
    show 0 < g.queue.count c
    rw [hq]
    simp
  obtain ⟨w,hn,hd,-,hran,hw⟩ := (h.made c x hx).of_queued hpos
  have hasked : w=1 ∧ x.returned=none := by
    rcases hw with hw | ⟨-,-,hgone⟩
    · exact hw
    · exact absurd (ha.symm.trans hgone) (by decide)
  obtain ⟨rfl,hr⟩ := hasked
  refine h.starts (y:={x with started := true,ran := x.ran+1}) (t:=t) (p:=.draining c true) hq rfl hx
    rfl rfl rfl (.run ?_ hd ha rfl ?_ hr)
  · rw [hn,one_run]
    rfl
  · show x.ran+1=1
    rw [hran]

private theorem accounted_skipped (h : g.Accounted) {rest : List ℕ} (hq : g.queue=c::rest) (hx : g.calls[c]?=some x)
    (ha : x.abandoned=true ∨ x.work=false) :
    ({g with pending := g.pending-1,queue := rest}.startPhase t (.draining c false)).Accounted := by
  have hpos : 0 < (g.tally c).queued := by
    show 0 < g.queue.count c
    rw [hq]
    simp
  obtain ⟨w,hn,hd,hs,hran,hw⟩ := (h.made c x hx).of_queued hpos
  have hsame : g.calls=g.calls.set c x := by
    obtain ⟨hlt,rfl⟩ := List.getElem?_eq_some_iff.mp hx
    exact (List.set_getElem_self hlt).symm
  refine h.starts (t:=t) (p:=.draining c false) hq rfl hx (by exact hsame) rfl rfl (.skip w ?_ hd hs hran ha hw)
  rw [hn,one_skip]
  rfl

/-- Cancelling abandons what is queued. -/
theorem accounted_cancelled (h : g.Accounted) : Accounted {g with
    cancelled := true
    calls := g.calls.mapIdx fun c x => if c∈g.queue ∧ x.started=false then {x with abandoned := true} else x} where
  made := by
    intro c y hy
    rw [List.getElem?_mapIdx] at hy
    obtain ⟨x,hx,rfl⟩ := Option.map_eq_some_iff.mp hy
    have hsit := h.made c x hx
    split
    · rename_i hin
      exact hsit.abandon (List.count_pos_iff.mpr hin.1)
    · exact hsit
  unmade := by
    intro c hc
    rw [List.length_mapIdx] at hc
    exact h.unmade c hc

/-- Every step accounts for every call. -/
theorem accounted_moves (h : g.Accounted) (hm : Moves th g g') : g'.Accounted := by
  cases hm with
  | refused work => exact accounted_refused h work
  | called t work => exact accounted_called h t work
  | entered ht hp hx hw hr => exact accounted_entered h ht hp hx
  | turnedAway ht hp hx => exact accounted_turnedAway h ht hp hx
  | queued ht hp hx => exact accounted_queued h ht hp hx
  | left ht hp hx => exact accounted_left h ht hp hx
  | rearmed ht hp hx => exact accounted_rearmed h ht hp hx
  | posted ht hp =>
    refine h.stays (top_getElem ht) ?_ rfl rfl rfl
    intro d
    rw [hp]
    rfl
  | answered ht hp hx hd => exact accounted_answered h ht hp hx hd
  | gaveUp ht hp hx hd hs => exact accounted_gaveUp h ht hp hx hd hs
  | drained ht hp hx => exact accounted_drained h ht hp hx
  | reposted ht hp =>
    refine h.stays (top_getElem ht) ?_ rfl rfl rfl
    intro d
    rw [hp]
    rfl
  | dropped hdrop => exact h.congr rfl fun d => rfl
  | taken hr hq hx ha hw => exact accounted_taken h hq hx ha
  | skipped hr hq hx ha => exact accounted_skipped h hq hx ha
  | cancelled => exact accounted_cancelled h
  | reopened => exact h.congr rfl fun d => rfl

/-- What every run of the gate keeps. -/
structure Sound (g : GuiCallGate) : Prop where
  works : g.Works
  armed : g.Armed
  accounted : g.Accounted

private theorem sound_empty : empty.Sound where
  works := works_empty
  armed := by
    intro _ hq
    exact absurd rfl hq
  accounted := by
    constructor
    · intro c x hx
      simp [empty] at hx
    · intro c _
      rfl

private theorem reaches_sound (h : Reaches (step th) (fun _ _ => True) empty g) : g.Sound := by
  apply h.invariant sound_empty
  intro g m g' hg _ hs
  have hm := moves_step hs
  exact ⟨works_moves hg.works hm,armed_moves hg.works hg.armed hm,accounted_moves hg.accounted hm⟩

/-- A call whose work runs has not returned. -/
theorem Accounted.runs_unreturned (h : g.Accounted) (hk : g.activities[k]?=some a) (hrun : a.phase.runs=some c) :
    ∃x,g.calls[c]?=some x ∧ x.returned=none := by
  have hmade : g.tally c≠.none→∃x,g.calls[c]?=some x := by
    intro hne
    have hlt : c < g.calls.length := by
      by_contra hge
      exact hne (h.unmade c (Nat.le_of_not_lt hge))
    exact ⟨g.calls[c],List.getElem?_eq_getElem hlt⟩
  cases hp : a.phase with
  | inline d o =>
    rw [hp] at hrun
    obtain rfl := Option.some_inj.mp hrun
    have hpos : 0 < (g.tally d).inline := tally_pos hk (by rw [hp]; simp [GuiPhase.isInline])
    obtain ⟨x,hx⟩ := hmade (fun hz => by simp [hz,Tally.none] at hpos)
    exact ⟨x,hx,((h.made d x hx).of_inline hpos).2.2⟩
  | draining d run =>
    rw [hp] at hrun
    cases run with
    | true =>
      obtain rfl := Option.some_inj.mp hrun
      have hpos : 0 < (g.tally d).run := tally_pos hk (by rw [hp]; simp [GuiPhase.isDraining])
      obtain ⟨x,hx⟩ := hmade (fun hz => by simp [hz,Tally.none] at hpos)
      exact ⟨x,hx,((h.made d x hx).of_run hpos).2.2.2.2.2⟩
    | false => cases hrun
  | _ =>
    rw [hp] at hrun
    cases hrun

/-- A call that is waited for is done, queued, or in the hands of a drain. -/
theorem Accounted.waited (h : g.Accounted) (hk : g.activities[k]?=some a) (hp : a.phase=.waiting c) :
    ∃x,g.calls[c]?=some x ∧ (x.done=true ∨ c∈g.queue ∨
      ∃(j : ℕ) (b : GuiActivity) (run : Bool),g.activities[j]?=some b ∧ b.phase=.draining c run) := by
  have hpos : 0 < (g.tally c).parked := tally_pos hk (by rw [hp]; simp [GuiPhase.isParked])
  have hlt : c < g.calls.length := by
    by_contra hge
    simp [h.unmade c (Nat.le_of_not_lt hge),Tally.none] at hpos
  have hdraining : ∀(run : Bool),0 < g.many (GuiPhase.isDraining c run)→
      ∃(j : ℕ) (b : GuiActivity) (run : Bool),g.activities[j]?=some b ∧ b.phase=.draining c run := by
    intro run hrun
    obtain ⟨j,b,hb,hd⟩ := many_pos.mp hrun
    exact ⟨j,b,run,hb,of_decide_eq_true hd⟩
  refine ⟨g.calls[c],List.getElem?_eq_getElem hlt,?_⟩
  cases h.made c _ (List.getElem?_eq_getElem hlt) with
  | queued w hn _ _ _ _ =>
    right; left
    apply List.count_pos_iff.mp
    have hq : (g.tally c).queued=1 := by rw [hn]
    exact Nat.lt_of_lt_of_eq Nat.one_pos hq.symm
  | run hn _ _ _ _ _ =>
    right; right
    apply hdraining true
    have hq : (g.tally c).run=1 := by rw [hn]
    exact Nat.lt_of_lt_of_eq Nat.one_pos hq.symm
  | skip w hn _ _ _ _ _ =>
    right; right
    apply hdraining false
    have hq : (g.tally c).skip=1 := by rw [hn]
    exact Nat.lt_of_lt_of_eq Nat.one_pos hq.symm
  | done w hn hd _ _ => exact Or.inl hd
  | _ => simp_all [Tally.none]

/-- In every run a call's work runs at most once and not after the call has returned, one outermost
work runs at a time, a call that has work returns true exactly where its work ran, and what is
queued or waited for is not lost: where no work runs, a drain is posted or about to be. -/
theorem runs_once (h : Reaches (step th) (fun _ _ => True) empty g) :
    (∀(c : ℕ) (x : GuiCall),g.calls[c]?=some x→x.ran≤1) ∧
      (∀(c : ℕ) (x : GuiCall) (b : Bool),g.calls[c]?=some x→x.work=true→x.returned=some b→(b=true ↔ x.ran=1)) ∧
      (∀(i : ℕ) (a : GuiActivity) (c : ℕ),g.activities[i]?=some a→a.phase.runs=some c→
        ∃x,g.calls[c]?=some x ∧ x.returned=none) ∧
      (∀(i j : ℕ) (a b : GuiActivity),g.activities[i]?=some a → g.activities[j]?=some b→a.phase.outermost=true→
        b.phase.outermost=true→i=j) ∧
      (∀(c : ℕ) (x : GuiCall),c∈g.queue → g.calls[c]?=some x→x.abandoned=false → g.running=false→
        0 < g.pending ∨ ∃(i : ℕ) (a : GuiActivity),g.activities[i]?=some a ∧ a.phase.posts=true) ∧
      (∀(i : ℕ) (a : GuiActivity) (c : ℕ),g.activities[i]?=some a→a.phase=.waiting c→
        ∃x,g.calls[c]?=some x ∧ (x.done=true ∨ c∈g.queue ∨
          ∃(j : ℕ) (b : GuiActivity) (run : Bool),g.activities[j]?=some b ∧ b.phase=.draining c run)) := by
  have hsound := reaches_sound h
  refine ⟨?_,?_,?_,?_,?_,?_⟩
  · intro c x hx
    exact (hsound.accounted.made c x hx).ran_le
  · intro c x b hx hw hb
    exact (hsound.accounted.made c x hx).answer hw hb
  · intro i a c ha hrun
    exact hsound.accounted.runs_unreturned ha hrun
  · intro i j a b ha hb hao hbo
    exact hsound.works.outermost_eq ha hb hao hbo
  · intro c x hc hx _ hr
    rcases hsound.armed hr (List.ne_nil_of_mem hc) with hpend | hposts
    · exact Or.inl hpend
    · exact Or.inr (many_pos.mp hposts)
  · intro i a c ha hp
    exact hsound.accounted.waited ha hp

/-- A thread asks, its call is run by a drain, and it has its answer. -/
theorem runs_once_asked : ∃g,Reaches (step ⟨some 0,0⟩) (fun _ _ => True) empty g ∧
    g.calls[0]?=some ⟨true,true,false,true,1,some true⟩ ∧ (true=true ↔ (1 : ℕ)=1) := by
  let g : GuiCallGate := ⟨[⟨true,true,false,true,1,some true⟩],[],false,false,none,0,0,[⟨1,.ended⟩,⟨0,.ended⟩]⟩
  have hrun : run (step ⟨some 0,0⟩) (fun _ _ => True) empty
      [.call 1 true,.proceed 0,.proceed 0,.deliver,.proceed 1,.proceed 0]=some g := by decide
  have hreach := reaches_of_run hrun
  exact ⟨g,hreach,rfl,(runs_once hreach).2.1 0 _ true rfl rfl rfl⟩

/-- Between queuing a call and posting its drain nothing runs and no drain is posted; and a call
without work is answered true although nothing was run. -/
theorem unposted_and_workless :
    (∃g,Reaches (step ⟨some 0,0⟩) (fun _ _ => True) empty g ∧ g.queue=[0] ∧ g.running=false ∧ g.pending=0 ∧
      g.calls[0]?=some ⟨true,false,false,false,0,none⟩) ∧
    ∃g,Reaches (step ⟨some 0,0⟩) (fun _ _ => True) empty g ∧
    g.calls[0]?=some ⟨false,true,false,false,0,some true⟩ := by
  let g : GuiCallGate := ⟨[⟨true,false,false,false,0,none⟩],[0],false,false,none,0,0,[⟨1,.queued 0⟩]⟩
  let g' : GuiCallGate := ⟨[⟨false,true,false,false,0,some true⟩],[],false,false,none,0,0,[⟨1,.ended⟩,⟨0,.ended⟩]⟩
  have hrun : run (step ⟨some 0,0⟩) (fun _ _ => True) empty [.call 1 true,.proceed 0]=some g := by decide
  have hrun' : run (step ⟨some 0,0⟩) (fun _ _ => True) empty
      [.call 1 false,.proceed 0,.proceed 0,.deliver,.proceed 1,.proceed 0]=some g' := by decide
  exact ⟨⟨g,reaches_of_run hrun,rfl,rfl,rfl,rfl⟩,⟨g',reaches_of_run hrun',rfl⟩⟩

end GuiCallGate

end Loftail
