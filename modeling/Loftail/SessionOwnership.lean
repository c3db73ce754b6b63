import Loftail.SoleOwnership
import Loftail.SshErrands

/-! # An SSH session has one owner

Whatever the order of turns, a session is held by one errand, or by the cache, or by the thread that
discards it. -/
namespace Loftail.SshErrand
open Program (follows_pure follows_ask follows_bind)
variable {ι : Type}

/-- The block that an errand shows its session in. -/
def Job.shared : Job→Option ℕ
  | .errand _ shared _ _ => some shared
  | _ => none

/-- How often the body may run. -/
def Job.limit : Job→ℕ
  | .errand _ _ _ .Allowed => 2
  | .errand _ _ _ .Never => 1
  | _ => 0

/-- What a thread may do, having what it has. -/
def Job.May (j : Job) : Op→Own→Prop
  | .publish shared raw,m => j.shared=some shared ∧ ∀s,raw=some s → s∈m.held
  | .connectTo s,m => s∈m.held
  | .isConnected s,m => s∈m.held
  | .body s _,m => s∈m.held ∧ m.runs < j.limit
  | .reset s,m => s∈m.held ∧ m.shown≠some s
  | .checkOut _ _,m => m.going=[]
  | .checkIn target role s,m => m.going=[] ∧ s∈m.held ∧ m.shown≠some s ∧ target=s.target ∧ role=s.role
  | .close,m => m.going=[]
  | .cutLoose s,m => s∈m.going
  | .destroy s,m => s∈m.going ∧ s∈m.cut
  | _,_ => True

/-- What is known of an answer. -/
def Given : (o : Op)→Answer o→Prop
  | .create target role,s => s.target=target ∧ s.role=role
  | .checkOut target _,x => ∀s r,x.1=some (s,r) → s.target=target ∧ s.role=r
  | _,_ => True

/-- What a thread has after an answer. -/
def Becomes (o : Op) (m : Own) (x : Answer o) (n : Own) : Prop := n=m.after o x ∧ Given o x

/-- What holds of the process at every moment. -/
structure Sound (jobs : ι→Job) (w : World ι) : Prop where
  sole : Sole (fun s : SshSession => s.serial < w.common.next) (fun i => (w.own i).all) w.common.cache.sessions
    w.common.gone
  filed : w.common.cache.Filed
  shown : ∀i s,(w.own i).shown=some s → s∈(w.own i).held
  published : ∀b s,w.common.published b=some s → ∃i,(jobs i).shared=some b ∧ (w.own i).shown=some s
  letGo : ∀s∈w.common.letGo,s∈w.common.gone ∨ ∃i,s∈(w.own i).going
  cut : ∀i,∀s∈(w.own i).cut,s∈w.common.cutLoose
  runs : ∀i,(w.own i).runs≤(jobs i).limit

section Turns
variable {jobs : ι→Job} {i : ι} {w : World ι} {m : Own}

/-- What the cache let go before is still being discarded, or gone. -/
theorem letGo_before {m : Own} (hm : m.going=(w.own i).going) {s : SshSession} (hs : s∈w.common.letGo) :
    s∈w.common.gone ∨ s∈m.going ∨ s∈w.common.letGo ∧ s∉(w.own i).going := by
  by_cases hi : s∈(w.own i).going
  · exact .inr (.inl (hm ▸ hi))
  · exact .inr (.inr ⟨hs,hi⟩)

/-- What the cache lets go is discarded by the thread that made it do so. -/
theorem letGo_added {going : List SshSession} {m : Own} (hm : m.going=going) (hidle : (w.own i).going=[])
    {s : SshSession}
    (hs : s∈going++w.common.letGo) : s∈w.common.gone ∨ s∈m.going ∨ s∈w.common.letGo ∧ s∉(w.own i).going := by
  obtain hs | hs := List.mem_append.mp hs
  · exact .inr (.inl (hm ▸ hs))
  · exact .inr (.inr ⟨hs,by simp [hidle]⟩)

/-- The session that is shown outlasts another. -/
theorem Sound.shown_erase (h : Sound jobs w) {s s' : SshSession} (hs : (w.own i).shown≠some s)
    (hs' : (w.own i).shown=some s') :
    s'∈(w.own i).held.erase s :=
  (List.mem_erase_of_ne (fun heq => hs (hs'.trans (congrArg some heq)))).mpr (h.shown i s' hs')

theorem Sound.drifts {t : World ι} (h : Sound jobs w) (hd : Drifts w t) : Sound jobs t := by
  obtain ⟨health,rfl⟩ := hd
  exact ⟨h.sole,h.filed,h.shown,h.published,h.letGo,h.cut,h.runs⟩

variable [DecidableEq ι]

private theorem all_update (own : ι→Own) (i : ι) (m : Own) :
    (fun j => (Function.update own i m j).all)=Function.update (fun j => (own j).all) i m.all := by
  funext j
  by_cases hj : j=i
  · subst hj
    simp
  · simp [hj]

/-- The own parts after a turn of thread `i`: its own is `m`, the others are as they were. -/
theorem of_update {p : ι→Own→Prop} (hi : p i m) (h : ∀j,p j (w.own j)) (j : ι) : p j
    (Function.update w.own i m j) := by
  by_cases hj : j=i
  · subst hj
    simpa using hi
  · simpa [hj] using h j

/-- What a turn of thread `i` has to show: `m` is what it then has, `c` what is then shared. -/
structure Turn (jobs : ι→Job) (i : ι) (w : World ι) (m : Own) (c : Common) : Prop where
  sole : Sole (fun s : SshSession => s.serial < c.next)
    (Function.update (fun j => (w.own j).all) i m.all) c.cache.sessions
    c.gone
  filed : c.cache.Filed
  shown : ∀s,m.shown=some s → s∈m.held
  published : ∀b s,c.published b=some s →
    (jobs i).shared=some b ∧ m.shown=some s ∨ w.common.published b=some s ∧
      ((jobs i).shared=some b → m.shown=(w.own i).shown)
  letGo : ∀s∈c.letGo,s∈c.gone ∨ s∈m.going ∨ s∈w.common.letGo ∧ s∉(w.own i).going
  gone : w.common.gone ⊆ c.gone
  cut : ∀s∈m.cut,s∈c.cutLoose
  cutLoose : w.common.cutLoose ⊆ c.cutLoose
  runs : m.runs≤(jobs i).limit

theorem Sound.turn {c : Common} (h : Sound jobs w) (ht : Turn jobs i w m c) :
    Sound jobs ⟨c,Function.update w.own i m⟩ where
  sole := by
    rw [all_update]
    exact ht.sole
  filed := ht.filed
  shown := of_update (p:=fun _ m => ∀s,m.shown=some s → s∈m.held) ht.shown h.shown
  published b s hs := by
    obtain ⟨hb,hm⟩ | ⟨hbefore,hsame⟩ := ht.published b s hs
    · exact ⟨i,hb,by simpa using hm⟩
    · obtain ⟨j,hj,hshown⟩ := h.published b s hbefore
      refine ⟨j,hj,?_⟩
      by_cases hji : j=i
      · subst hji
        simpa [hsame hj] using hshown
      · simpa [hji] using hshown
  letGo s hs := by
    obtain hgone | hgoing | ⟨hbefore,hi⟩ := ht.letGo s hs
    · exact .inl hgone
    · exact .inr ⟨i,by simpa using hgoing⟩
    · obtain hgone | ⟨j,hj⟩ := h.letGo s hbefore
      · exact .inl (ht.gone hgone)
      · have hji : j≠i := fun heq => hi (heq ▸ hj)
        exact .inr ⟨j,by simpa [hji] using hj⟩
  cut := of_update (p:=fun _ m => ∀s∈m.cut,s∈c.cutLoose) ht.cut (fun j s hs => ht.cutLoose (h.cut j s hs))
  runs := of_update (p:=fun j m => m.runs≤(jobs j).limit) ht.runs h.runs

/-- A turn that changes only which sessions its thread has. -/
theorem Sound.moves {c : Common} (h : Sound jobs w)
    (hsole : Sole (fun s : SshSession => s.serial < c.next) (Function.update (fun j => (w.own j).all) i m.all)
      c.cache.sessions c.gone) (hfiled : c.cache.Filed) (hheld : ∀s,m.shown=some s → s∈m.held)
    (hlet : ∀s∈c.letGo,s∈c.gone ∨ s∈m.going ∨ s∈w.common.letGo ∧ s∉(w.own i).going) (hgone : w.common.gone ⊆ c.gone)
    (hshown : m.shown=(w.own i).shown) (hpub : c.published=w.common.published) (hcut : m.cut=(w.own i).cut)
    (hloose : c.cutLoose=w.common.cutLoose) (hruns : m.runs=(w.own i).runs) :
    Sound jobs ⟨c,Function.update w.own i m⟩ := by
  refine h.turn ⟨hsole,hfiled,hheld,?_,hlet,hgone,?_,?_,?_⟩
  · intro b s hs
    exact .inr ⟨hpub ▸ hs,fun _ => hshown⟩
  · rw [hcut,hloose]
    exact h.cut i
  · rw [hloose]
    exact fun _ hs => hs
  · rw [hruns]
    exact h.runs i

/-- A turn that changes nothing but health and the abandon flags. -/
theorem Sound.quiet (h : Sound jobs w) (health : SshSession→Bool) (abandoned : ℕ→Bool) :
    Sound jobs ⟨{w.common with health,abandoned},Function.update w.own i (w.own i)⟩ :=
  h.moves
    (by
      rw [Function.update_eq_self]
      exact h.sole)
    h.filed (h.shown i) (fun _ hs => letGo_before rfl hs) (fun _ hs => hs) rfl rfl rfl rfl rfl

theorem Sound.publish (h : Sound jobs w) {b : ℕ} {raw : Option SshSession} (hb : (jobs i).shared=some b)
    (hraw : ∀s,raw=some s → s∈(w.own i).held) :
    Sound jobs ⟨{w.common with published := Function.update w.common.published b raw},
      Function.update w.own i {w.own i with shown := raw}⟩ := by
  refine h.turn ⟨?_,h.filed,hraw,?_,fun _ hs => letGo_before rfl hs,fun _ hs => hs,h.cut i,fun _ hs => hs,h.runs i⟩
  · have hsame : ({w.own i with shown := raw} : Own).all=(w.own i).all := rfl
    rw [hsame]
    simpa using h.sole
  · intro b' s hs
    by_cases hb' : b'=b
    · subst hb'
      exact .inl ⟨hb,by simpa using hs⟩
    · refine .inr ⟨by simpa [hb'] using hs,fun hother => absurd ?_ hb'⟩
      exact Option.some.inj (hother.symm.trans hb)

theorem Sound.body (h : Sound jobs w) (hlimit : (w.own i).runs < (jobs i).limit) :
    Sound jobs ⟨w.common,Function.update w.own i {w.own i with runs := (w.own i).runs+1}⟩ := by
  refine h.turn ⟨?_,h.filed,h.shown i,?_,fun _ hs => letGo_before rfl hs,fun _ hs => hs,h.cut i,
    fun _ hs => hs,hlimit⟩
  · have hsame : ({w.own i with runs := (w.own i).runs+1} : Own).all=(w.own i).all := rfl
    rw [hsame]
    simpa using h.sole
  · exact fun _ _ hs => .inr ⟨hs,fun _ => rfl⟩

private theorem Sound.cutsLoose (h : Sound jobs w) (s : SshSession) :
    Sound jobs ⟨{w.common with cutLoose := s::w.common.cutLoose,health := Function.update w.common.health s false},
      Function.update w.own i {w.own i with cut := s::(w.own i).cut}⟩ := by
  refine h.turn ⟨?_,h.filed,h.shown i,?_,fun _ hs => letGo_before rfl hs,fun _ hs => hs,?_,?_,h.runs i⟩
  · have hsame : ({w.own i with cut := s::(w.own i).cut} : Own).all=(w.own i).all := rfl
    rw [hsame]
    simpa using h.sole
  · exact fun _ _ hs => .inr ⟨hs,fun _ => rfl⟩
  · exact List.forall_mem_cons.mpr ⟨List.mem_cons_self,fun s' hs => List.mem_cons_of_mem s (h.cut i s' hs)⟩
  · exact fun _ hs => List.mem_cons_of_mem s hs

theorem Sound.create (h : Sound jobs w) (target : String) (role : SshSessionRole) :
    Sound jobs ⟨{w.common with next := w.common.next+1},
      Function.update w.own i {w.own i with held := ⟨w.common.next,target,role⟩::(w.own i).held}⟩ := by
  refine h.moves ?_ h.filed ?_ (fun _ hs => letGo_before rfl hs) (fun _ hs => hs) rfl rfl rfl rfl rfl
  · have hp : (({w.own i with held := ⟨w.common.next,target,role⟩::(w.own i).held} :
      Own).all++w.common.cache.sessions++[]).Perm
        ([(⟨w.common.next,target,role⟩ : SshSession)]++((w.own i).all++w.common.cache.sessions)) := by
      simp [Own.all]
    refine h.sole.exchange hp (List.nodup_cons.mpr ⟨List.not_mem_nil,List.nodup_nil⟩) ?_
      (fun s hs => Nat.lt_succ_of_lt hs)
    intro s hs
    cases List.mem_singleton.mp hs
    exact ⟨Nat.lt_irrefl _,Nat.lt_succ_self _⟩
  · exact fun s hs => List.mem_cons_of_mem _ (h.shown i s hs)

theorem Sound.reset (h : Sound jobs w) {s : SshSession} (hs : s∈(w.own i).held) (hshown : (w.own i).shown≠some s) :
    Sound jobs ⟨{w.common with gone := s::w.common.gone},
      Function.update w.own i {w.own i with held := (w.own i).held.erase s}⟩ := by
  refine h.moves ?_ h.filed (fun _ hs' => h.shown_erase hshown hs') ?_
    (fun _ hs => List.mem_cons_of_mem _ hs) rfl rfl rfl
    rfl rfl
  · refine h.sole.transfer [s] ?_
    rw [List.perm_iff_count]
    intro a
    have hheld := (List.perm_cons_erase hs).count_eq a
    simp only [Own.all,List.count_append,List.count_cons,List.count_nil] at hheld ⊢
    omega
  · intro s' hs'
    obtain hgone | hrest := letGo_before (i:=i) (m:={w.own i with held := (w.own i).held.erase s}) rfl hs'
    · exact .inl (List.mem_cons_of_mem _ hgone)
    · exact .inr hrest

theorem Sound.destroy (h : Sound jobs w) {s : SshSession} (hs : s∈(w.own i).going) :
    Sound jobs ⟨{w.common with gone := s::w.common.gone},
      Function.update w.own i {w.own i with going := (w.own i).going.erase s}⟩ := by
  refine h.moves ?_ h.filed (h.shown i) ?_ (fun _ hs => List.mem_cons_of_mem _ hs) rfl rfl rfl rfl rfl
  · refine h.sole.transfer [s] ?_
    rw [List.perm_iff_count]
    intro a
    have hgoing := (List.perm_cons_erase hs).count_eq a
    simp only [Own.all,List.count_append,List.count_cons,List.count_nil] at hgoing ⊢
    omega
  · intro s' hs'
    by_cases heq : s'=s
    · exact .inl (heq ▸ List.mem_cons_self)
    by_cases hi : s'∈(w.own i).going
    · exact .inr (.inl ((List.mem_erase_of_ne heq).mpr hi))
    · exact .inr (.inr ⟨hs',hi⟩)

theorem Sound.checkOut (h : Sound jobs w) (hidle : (w.own i).going=[]) (swept : SshSession→Bool) (target : String)
    (need : SshSessionRole) (nowMs : ℤ) :
    let out := w.common.cache.checkOut swept w.common.health target need nowMs
    Sound jobs ⟨{w.common with cache := out.cache,letGo := out.going++w.common.letGo},Function.update w.own i
      {w.own i with held := (out.session.map Prod.fst).toList++(w.own i).held,going := out.going}⟩ := by
  intro out
  have hp : ((out.session.map Prod.fst).toList++out.going++out.cache.sessions).Perm w.common.cache.sessions :=
    w.common.cache.checkOut_perm swept w.common.health target need nowMs
  refine h.moves ?_ (w.common.cache.checkOut_filed swept _ target need nowMs h.filed) ?_
    (fun _ hs => letGo_added rfl hidle hs) (fun _ hs => hs) rfl rfl rfl rfl rfl
  · refine h.sole.transfer [] ?_
    rw [List.perm_iff_count]
    intro a
    have ha := hp.count_eq a
    simp only [Own.all,hidle,List.count_append,List.count_nil] at ha ⊢
    omega
  · exact fun s hs => List.mem_append_right _ (h.shown i s hs)

theorem Sound.checkIn (h : Sound jobs w) (hidle : (w.own i).going=[]) {s : SshSession} (hs : s∈(w.own i).held)
    (hshown : (w.own i).shown≠some s) (swept : SshSession→Bool) {target : String} {role : SshSessionRole}
    (ht : target=s.target) (hrole : role=s.role) (nowMs : ℤ) :
    let out := w.common.cache.checkIn swept w.common.health target role s nowMs
    Sound jobs ⟨{w.common with cache := out.1,letGo := out.2++w.common.letGo},Function.update w.own i
      {w.own i with held := (w.own i).held.erase s,going := out.2}⟩ := by
  intro out
  have hp : (out.2++out.1.sessions).Perm (s::w.common.cache.sessions) :=
    w.common.cache.checkIn_perm swept w.common.health target role s nowMs
  refine h.moves ?_ (w.common.cache.checkIn_filed swept _ target role s nowMs h.filed ht hrole)
    (fun _ hs' => h.shown_erase hshown hs') (fun _ hs => letGo_added rfl hidle hs)
      (fun _ hs => hs) rfl rfl rfl rfl rfl
  refine h.sole.transfer [] ?_
  rw [List.perm_iff_count]
  intro a
  have ha := hp.count_eq a
  have hheld := (List.perm_cons_erase hs).count_eq a
  simp only [Own.all,hidle,List.count_append,List.count_cons,List.count_nil] at ha hheld ⊢
  omega

theorem Sound.close (h : Sound jobs w) (hidle : (w.own i).going=[]) :
    Sound jobs ⟨{w.common with cache := w.common.cache.close.1,letGo := w.common.cache.close.2++w.common.letGo},
      Function.update w.own i {w.own i with going := w.common.cache.close.2}⟩ := by
  refine h.moves ?_ w.common.cache.close_filed (h.shown i) (fun _ hs => letGo_added rfl hidle hs)
    (fun _ hs => hs) rfl rfl
    rfl rfl rfl
  refine h.sole.transfer [] ?_
  rw [List.perm_iff_count]
  intro a
  have ha := w.common.cache.close_perm.count_eq a
  simp only [Own.all,hidle,List.count_append,List.count_nil] at ha ⊢
  omega

private theorem Sound.acts {t : World ι} {o : Op} {x : Answer o} (h : Sound jobs w)
    (hmay : (jobs i).May o (w.own i)) (ha : Acts i w o x t) : Sound jobs t := by
  obtain ⟨c,own⟩ := t
  obtain ⟨hc,hown⟩ := ha
  change own=_ at hown
  subst hown
  cases o with
  | locate | connectHold | connectTo =>
    obtain rfl := hc
    exact h.quiet _ _
  | body s path =>
    obtain rfl := hc
    exact h.body hmay.2
  | abandoned | isConnected =>
    obtain ⟨-,rfl⟩ := hc
    exact h.quiet _ _
  | publish shared raw =>
    obtain rfl := hc
    exact h.publish hmay.1 hmay.2
  | create target role =>
    obtain ⟨rfl,rfl⟩ := hc
    exact h.create target role
  | reset s =>
    obtain rfl := hc
    exact h.reset hmay.1 hmay.2
  | checkOut target need =>
    obtain ⟨swept,nowMs,rfl,rfl⟩ := hc
    exact h.checkOut hmay swept target need nowMs
  | checkIn target role s =>
    obtain ⟨swept,nowMs,rfl,rfl⟩ := hc
    exact h.checkIn hmay.1 hmay.2.1 hmay.2.2.1 swept hmay.2.2.2.1 hmay.2.2.2.2 nowMs
  | close =>
    obtain ⟨rfl,rfl⟩ := hc
    exact h.close hmay
  | cutLoose s =>
    obtain rfl := hc
    exact h.cutsLoose s
  | destroy s =>
    obtain rfl := hc
    exact h.destroy hmay.1
  | setAbandoned | abortPublished =>
    obtain rfl := hc
    exact h.quiet _ _

private theorem Sound.given {t : World ι} {o : Op} {x : Answer o} (h : Sound jobs w) (ha : Acts i w o x t) :
    Given o x := by
  cases o with
  | create target role =>
    obtain ⟨⟨rfl,-⟩,-⟩ := ha
    exact ⟨rfl,rfl⟩
  | checkOut target need =>
    obtain ⟨⟨swept,nowMs,rfl,-⟩,-⟩ := ha
    intro s r hs
    obtain ⟨-,htarget,hrole,-⟩ := w.common.cache.checkOut_session swept w.common.health target need nowMs h.filed hs
    exact ⟨htarget,hrole⟩
  | _ => trivial

/-- The rules that threads live by. -/
theorem contract (jobs : ι→Job) :
    Program.Contract Acts Drifts (fun i w => w.own i) (fun i => (jobs i).May) (fun _ => Becomes) (Sound jobs) where
  keeps _ _ _ _ _ h hmay ha := h.acts hmay ha
  gives i s o x t h _ ha := by
    refine ⟨?_,h.given ha⟩
    rw [ha.2]
    simp
  leaves i s o x t _ _ ha j hj := by
    rw [ha.2]
    simp [hj]
  drifts s t h hd := by
    refine ⟨h.drifts hd,fun _ => ?_⟩
    obtain ⟨health,rfl⟩ := hd
    rfl

end Turns

section Threads
variable {j : Job} {m : Own}

/-- A discard leaves what the thread holds. -/
theorem follows_discard (going : List SshSession) (hm : m.going=going) :
    (discard going).Follows j.May Becomes
      (fun _ n => n.going=[] ∧ n.held=m.held ∧ n.shown=m.shown ∧ n.runs=m.runs) m := by
  induction going generalizing m with
  | nil => exact ⟨hm,rfl,rfl,rfl⟩
  | cons s going ih =>
    have hs : s∈m.going := hm ▸ List.mem_cons_self
    refine follows_ask.mpr ⟨hs,?_⟩
    rintro _ _ ⟨rfl,-⟩
    refine follows_ask.mpr ⟨⟨hs,List.mem_cons_self⟩,?_⟩
    rintro _ _ ⟨rfl,-⟩
    refine ih (m:={m with going := m.going.erase s,cut := s::m.cut}) ?_
    simp [hm]

private theorem follows_checkOut (target : String) (need : SshSessionRole) (hm : m.going=[]) :
    (checkOut target need).Follows j.May Becomes
      (fun r n => n.going=[] ∧ n.held=(r.map Prod.fst).toList++m.held ∧ n.shown=m.shown ∧ n.runs=m.runs ∧
        ∀s role,r=some (s,role) → s.target=target ∧ s.role=role) m := by
  refine follows_ask.mpr ⟨hm,?_⟩
  rintro x _ ⟨rfl,hx⟩
  refine follows_bind.mpr ((follows_discard x.2 rfl).mono ?_)
  rintro _ n ⟨hgoing,hheld,hshown,hruns⟩
  exact ⟨hgoing,hheld,hshown,hruns,hx⟩

private theorem follows_checkIn {target : String} {role : SshSessionRole} {s : SshSession} (hm : m.going=[])
    (hs : s∈m.held) (hshown : m.shown≠some s) (ht : target=s.target) (hrole : role=s.role) :
    (checkIn target role s).Follows j.May Becomes (fun _ _ => True) m := by
  refine follows_ask.mpr ⟨⟨hm,hs,hshown,ht,hrole⟩,?_⟩
  rintro x _ ⟨rfl,-⟩
  exact (follows_discard x rfl).mono fun _ _ _ => trivial

private theorem follows_close (hm : m.going=[]) : close.Follows j.May Becomes (fun _ _ => True) m := by
  refine follows_ask.mpr ⟨hm,?_⟩
  rintro x _ ⟨rfl,-⟩
  exact (follows_discard x rfl).mono fun _ _ _ => trivial

private theorem follows_abandon (shared : ℕ) : (abandon shared).Follows j.May Becomes (fun _ _ => True) m :=
  follows_ask.mpr ⟨trivial,fun _ _ _ => follows_ask.mpr ⟨trivial,fun _ _ _ => trivial⟩⟩

/-- The thread has this session and no other. -/
structure Own.Has (m : Own) (session : Option SshSession) : Prop where
  going : m.going=[]
  held : m.held=session.toList

/-- The session is what the errand asks for, and filed under the role it has. -/
def Call.Fits (c : Call) (role : SshSessionRole) (s : SshSession) : Prop := s.target=c.target ∧ s.role=role

/-- What a scope leaves behind. -/
structure Scope.Left (c : Call) (scope : Scope) (m : Own) : Prop where
  has : m.Has scope.session
  fits : ∀s,scope.session=some s → c.Fits scope.heldRole s

/-- The errand that a thread is started for. -/
structure Job.Calls (j : Job) (c : Call) : Prop where
  shared : j.shared=some c.shared
  once : 0 < j.limit
  twice : c.repeats=.Allowed → 1 < j.limit

theorem Own.Has.mem {s : SshSession} (h : m.Has (some s)) : s∈m.held := by
  rw [h.held]
  exact List.mem_singleton_self s

variable {c : Call} (hj : j.Calls c)
include hj

private theorem follows_connectHeld (hm : m.Has none) :
    (connectHeld c).Follows j.May Becomes
      (fun r n => n.runs=m.runs ∧ match r with
        | .Ok s => n.Has (some s) ∧ c.Fits c.wantRole s
        | _ => n.Has none) m := by
  refine follows_ask.mpr ⟨trivial,?_⟩
  rintro stop m ⟨rfl,-⟩
  cases stop with
  | true => exact ⟨rfl,hm.going,hm.held⟩
  | false =>
    refine follows_ask.mpr ⟨trivial,?_⟩
    rintro (fresh : SshSession) _ ⟨rfl,htarget,hrole⟩
    have hheld : fresh::m.held=[fresh] := by rw [hm.held]; rfl
    refine follows_ask.mpr ⟨⟨hj.shared,?_⟩,?_⟩
    · rintro _ ⟨⟩
      exact List.mem_cons_self
    rintro _ _ ⟨rfl,-⟩
    refine follows_ask.mpr ⟨List.mem_cons_self,?_⟩
    rintro (refused : Option String) _ ⟨rfl,-⟩
    cases refused with
    | none => exact ⟨rfl,⟨hm.going,hheld⟩,htarget,hrole⟩
    | some error =>
      refine follows_ask.mpr ⟨⟨hj.shared,nofun⟩,?_⟩
      rintro _ _ ⟨rfl,-⟩
      refine follows_ask.mpr ⟨⟨List.mem_cons_self,nofun⟩,?_⟩
      rintro _ _ ⟨rfl,-⟩
      refine ⟨rfl,hm.going,?_⟩
      change (fresh::m.held).erase fresh=[]
      rw [hheld]
      simp

private theorem follows_connectFresh {session : Option SshSession} (hm : m.Has session) :
    (connectFresh c session).Follows j.May Becomes
      (fun r n => n.runs=m.runs ∧ match r with
        | .Ok s => n.Has (some s) ∧ c.Fits c.wantRole s
        | _ => n.Has none) m := by
  have rest : ∀n : Own,n.Has none → n.runs=m.runs →
      ((connectHold c.target).bind fun held =>
        if held then connectHeld c else return .Stopped).Follows j.May Becomes
        (fun r n => n.runs=m.runs ∧ match r with
          | .Ok s => n.Has (some s) ∧ c.Fits c.wantRole s
          | _ => n.Has none) n := by
    intro n hn hruns
    refine follows_ask.mpr ⟨trivial,?_⟩
    rintro held n ⟨rfl,-⟩
    cases held with
    | true => exact (follows_connectHeld hj ⟨hn.going,hn.held⟩).mono fun _ _ hr => ⟨hr.1.trans hruns,hr.2⟩
    | false => exact ⟨hruns,hn.going,hn.held⟩
  refine follows_ask.mpr ⟨⟨hj.shared,nofun⟩,?_⟩
  rintro _ _ ⟨rfl,-⟩
  cases session with
  | none => exact rest _ ⟨hm.going,hm.held⟩ rfl
  | some s =>
    refine follows_ask.mpr ⟨⟨hm.mem,nofun⟩,?_⟩
    rintro _ _ ⟨rfl,-⟩
    refine rest _ ⟨hm.going,?_⟩ rfl
    change m.held.erase s=[]
    rw [hm.held]
    simp

omit hj in
private theorem follows_onFresh {fresh : SshSession} (hm : m.Has (some fresh)) (hfits : c.Fits c.wantRole fresh)
    (hruns : m.runs < j.limit) :
    (onFresh c fresh).Follows j.May Becomes (fun scope n => scope.Left c n) m := by
  have hleft : ∀text,Scope.Left c ⟨true,text,some fresh,c.wantRole⟩ m := fun _ =>
    ⟨hm,fun _ hs => Option.some.inj hs ▸ hfits⟩
  refine follows_ask.mpr ⟨trivial,?_⟩
  rintro stop m ⟨rfl,-⟩
  cases stop with
  | true => exact hleft ""
  | false =>
    refine follows_ask.mpr ⟨⟨hm.mem,hruns⟩,?_⟩
    rintro (error : String) _ ⟨rfl,-⟩
    exact ⟨⟨hm.going,hm.held⟩,(hleft error).fits⟩

theorem follows_reconnect {session : Option SshSession} (hm : m.Has session) (hruns : m.runs < j.limit) :
    (reconnect c session).Follows j.May Becomes (fun scope n => scope.Left c n) m := by
  refine follows_bind.mpr ((follows_connectFresh hj hm).mono ?_)
  rintro r n ⟨hn,hr⟩
  cases r with
  | Ok fresh => exact follows_onFresh hr.1 hr.2 (hn.symm ▸ hruns)
  | Stopped => exact ⟨hr,nofun⟩
  | Failed error => exact ⟨hr,nofun⟩

private theorem follows_staleHit {s : SshSession} {role : SshSessionRole} (error : String) (hm : m.Has (some s))
    (hfits : c.Fits role s) (hruns : m.runs < j.limit) :
    (staleHit c s role error).Follows j.May Becomes (fun scope n => scope.Left c n) m := by
  have hleft : Scope.Left c ⟨false,error,some s,role⟩ m := ⟨hm,fun _ hs => Option.some.inj hs ▸ hfits⟩
  refine follows_ask.mpr ⟨trivial,?_⟩
  rintro stop m ⟨rfl,-⟩
  cases stop with
  | true => exact hleft
  | false =>
    refine follows_ask.mpr ⟨hm.mem,?_⟩
    rintro connected m ⟨rfl,-⟩
    cases connected with
    | true => exact hleft
    | false => exact follows_reconnect hj hm hruns

private theorem follows_onCached {s : SshSession} {role : SshSessionRole} (hm : m.Has (some s))
    (hfits : c.Fits role s) (hruns : m.runs=0) :
    (onCached c s role).Follows j.May Becomes (fun scope n => scope.Left c n) m := by
  refine follows_ask.mpr ⟨⟨hj.shared,fun _ hs => Option.some.inj hs ▸ hm.mem⟩,?_⟩
  rintro _ _ ⟨rfl,-⟩
  refine follows_ask.mpr ⟨trivial,?_⟩
  rintro stop m ⟨rfl,-⟩
  cases stop with
  | true => exact ⟨⟨hm.going,hm.held⟩,fun _ hs => Option.some.inj hs ▸ hfits⟩
  | false =>
    have hfirst : m.runs < j.limit := hruns.symm ▸ hj.once
    refine follows_ask.mpr ⟨⟨hm.mem,hfirst⟩,?_⟩
    rintro (error : String) n ⟨hn,-⟩
    have hhas : n.Has (some s) := by
      subst hn
      exact ⟨hm.going,hm.held⟩
    have hcount : n.runs=1 := by
      subst hn
      exact congrArg (·+1) hruns
    split
    · rename_i hagain
      exact follows_staleHit hj error hhas hfits (hcount.symm ▸ hj.twice hagain.2)
    · exact ⟨hhas,fun _ hs => Option.some.inj hs ▸ hfits⟩

private theorem follows_publishedScope (hm : m.Has none) (hruns : m.runs=0) :
    (publishedScope c).Follows j.May Becomes (fun scope n => scope.Left c n) m := by
  refine follows_bind.mpr ((follows_checkOut c.target c.wantRole hm.going).mono ?_)
  rintro taken n ⟨hgoing,hheld,-,hn,hfits⟩
  rw [hm.held] at hheld
  cases taken with
  | none => exact follows_reconnect hj ⟨hgoing,hheld⟩ (by rw [hn,hruns]; exact hj.once)
  | some taken => exact follows_onCached hj ⟨hgoing,hheld⟩ (hfits _ _ rfl) (hn.trans hruns)

omit hj in
private theorem follows_handBack {s : SshSession} {role : SshSessionRole} (hm : m.Has (some s))
    (hfits : c.Fits role s)
    (hshown : m.shown=none) : (handBack c s role).Follows j.May Becomes (fun _ _ => True) m := by
  have hnot : m.shown≠some s := by simp [hshown]
  refine follows_ask.mpr ⟨trivial,?_⟩
  rintro stop m ⟨rfl,-⟩
  cases stop with
  | true => exact follows_ask.mpr ⟨⟨hm.mem,hnot⟩,fun _ _ _ => trivial⟩
  | false =>
    refine follows_ask.mpr ⟨hm.mem,?_⟩
    rintro connected m ⟨rfl,-⟩
    cases connected with
    | true => exact follows_checkIn hm.going hm.mem hnot hfits.1.symm hfits.2.symm
    | false => exact follows_ask.mpr ⟨⟨hm.mem,hnot⟩,fun _ _ _ => trivial⟩

omit hj in
private theorem follows_leave {scope : Scope} (h : scope.Left c m) (hshown : m.shown=none) :
    (leave c scope).Follows j.May Becomes (fun _ _ => True) m := by
  obtain ⟨returns,text,session,role⟩ := scope
  cases session with
  | none => exact trivial
  | some s =>
    cases returns with
    | true => exact follows_ask.mpr ⟨⟨h.has.mem,by simp [hshown]⟩,fun _ _ _ => trivial⟩
    | false => exact follows_handBack h.has (h.fits s rfl) hshown

private theorem follows_onTarget (hm : m.Has none) (hruns : m.runs=0) :
    (onTarget c).Follows j.May Becomes (fun _ _ => True) m := by
  refine follows_bind.mpr ((follows_publishedScope hj hm hruns).mono ?_)
  intro scope n h
  refine follows_ask.mpr ⟨⟨hj.shared,nofun⟩,?_⟩
  rintro _ _ ⟨rfl,-⟩
  exact follows_bind.mpr (follows_leave ⟨⟨h.has.going,h.has.held⟩,h.fits⟩ rfl)

end Threads

private theorem follows_withSshSession (address : String) (shared : ℕ) (need : Need) (repeats : Repeat) :
    (withSshSession address shared need repeats).Follows (Job.errand address shared need repeats).May Becomes
      (fun _ _ => True) .none := by
  refine follows_ask.mpr ⟨trivial,?_⟩
  rintro (far : Except String (String×String)) _ ⟨rfl,-⟩
  cases far with
  | error why => exact trivial
  | ok far =>
    refine follows_onTarget ⟨rfl,?_,?_⟩ ⟨rfl,rfl⟩ rfl
    · cases repeats with
      | Allowed => exact Nat.two_pos
      | Never => exact Nat.one_pos
    · intro hagain
      cases hagain
      exact Nat.one_lt_two

private theorem follows_program (j : Job) : j.program.Follows j.May Becomes (fun _ _ => True) .none := by
  cases j with
  | errand address shared need repeats =>
    exact follows_bind.mpr ((follows_withSshSession address shared need repeats).mono fun _ _ _ => trivial)
  | abandon shared => exact follows_abandon shared
  | close => exact follows_close rfl

/-- One owner for each session, a cache within its bounds, and an abort that reaches only a session in use. -/
structure OneOwner (jobs : ι→Job) (w : World ι) : Prop where
  apart : ∀i j s,s∈(w.own i).all → s∈(w.own j).all → i=j
  uncached : ∀i s,s∈(w.own i).all → s∉w.common.cache.sessions
  single : ∀i,(w.own i).all.Nodup
  bounded : w.common.cache.entries.length≤w.common.cache.capacity
  shut : w.common.cache.closed=true → w.common.cache.entries=[]
  published : ∀b s,w.common.published b=some s → s∉w.common.cache.sessions ∧ s∉w.common.gone ∧
    ∃i,(jobs i).shared=some b ∧ s∈(w.own i).held
  runs : ∀i address shared need repeats,jobs i=.errand address shared need repeats →
    (w.own i).runs ≤ match repeats with
      | .Allowed => 2
      | .Never => 1

/-- What is asked and answered as it should be: a session handed out is healthy, to the target, and of a role
that serves; what the cache let go is destroyed only once it is cut loose; a body has its session to itself. -/
def Proper (i : ι) (w : World ι) : (o : Op)→Answer o → Prop
  | .checkOut target need,x => ∀s role,x.1=some (s,role) → w.common.health s=true ∧ s.target=target ∧
    s.role.serves need
  | .reset s,_ => s∈w.common.letGo → s∈w.common.cutLoose
  | .destroy s,_ => s∈w.common.letGo → s∈w.common.cutLoose
  | .body s _,_ => s∈(w.own i).held
  | _,_ => True

theorem Sound.oneOwner {jobs : ι→Job} {w : World ι} (h : Sound jobs w) : OneOwner jobs w where
  apart _ _ _ hi hj := h.sole.unique hi hj
  uncached _ _ hi := h.sole.unstored hi
  single i := (List.nodup_append.mp (h.sole.nodup i)).1
  bounded := w.common.cache.room
  shut := w.common.cache.shut
  published b s hs := by
    obtain ⟨i,hi,hshown⟩ := h.published b s hs
    have hheld := h.shown i s hshown
    have hall : s∈(w.own i).all := List.mem_append_left _ hheld
    exact ⟨h.sole.unstored hall,h.sole.alive hall,i,hi,hheld⟩
  runs i address shared need repeats hi := by
    have hruns := h.runs i
    rw [hi] at hruns
    cases repeats with
    | Allowed => exact hruns
    | Never => exact hruns

private theorem Sound.proper [DecidableEq ι] {jobs : ι→Job} {i : ι} {w t : World ι} {o : Op} {x : Answer o}
    (h : Sound jobs w) (hmay : (jobs i).May o (w.own i)) (ha : Acts i w o x t) : Proper i w o x := by
  cases o with
  | checkOut target need =>
    obtain ⟨⟨swept,nowMs,rfl,-⟩,-⟩ := ha
    intro s role hs
    obtain ⟨hhealth,htarget,hrole,hserves⟩ :=
      w.common.cache.checkOut_session swept w.common.health target need nowMs h.filed hs
    exact ⟨hhealth,htarget,hrole ▸ hserves⟩
  | reset s =>
    -- A session that an errand holds was not let go: what was let go is discarded or gone.
    intro hs
    have hall : s∈(w.own i).all := List.mem_append_left _ hmay.1
    obtain hgone | ⟨j,hj⟩ := h.letGo s hs
    · exact absurd hgone (h.sole.alive hall)
    · obtain rfl := h.sole.unique hall (List.mem_append_right _ hj)
      exact absurd rfl ((List.nodup_append.mp (h.oneOwner.single i)).2.2 s hmay.1 s hj)
  | destroy s => exact fun _ => h.cut i s hmay.2
  | body s path => exact hmay.1
  | _ => trivial

theorem start_sound (jobs : ι→Job) (idleMs capacity : ℤ) (health : SshSession→Bool) :
    (start jobs idleMs capacity health).Sound (fun i w => w.own i) (fun i => (jobs i).May)
    (fun _ => Becomes) (Sound jobs) (fun _ _ _ => True) where
  holds := ⟨.empty,(fun _ he => nomatch he),nofun,nofun,nofun,nofun,fun _ => Nat.zero_le _⟩
  follows i := follows_program (jobs i)

theorem Common.Performs.capacity {w t : Common} {o : Op} {x : Answer o} (h : w.Performs o x t) :
    t.cache.capacity=w.cache.capacity := by
  cases o with
  | checkOut target need =>
    obtain ⟨swept,nowMs,-,rfl⟩ := h
    exact w.cache.checkOut_capacity swept w.health target need nowMs
  | checkIn target role s =>
    obtain ⟨swept,nowMs,-,rfl⟩ := h
    exact w.cache.checkIn_capacity swept w.health target role s nowMs
  | abandoned | create | isConnected | close =>
    obtain ⟨-,rfl⟩ := h
    rfl
  | _ =>
    obtain rfl := h
    rfl

variable [DecidableEq ι]

theorem Run.capacity {P Q : Program.Pool Op Answer Unit ι (World ι)} (hrun : Run P Q) :
    Q.world.common.cache.capacity=P.world.common.cache.capacity := by
  induction hrun with
  | refl => rfl
  | tail _ hs ih =>
    cases hs with
    | turn _ ha => exact ha.1.capacity.trans ih
    | drift hd =>
      obtain ⟨health,rfl⟩ := hd
      exact ih

/-- An SSH session has one owner. -/
theorem one_owner (jobs : ι→Job) (idleMs capacity : ℤ) (health : SshSession→Bool)
    {P : Program.Pool Op Answer Unit ι (World ι)} (hrun : Run (start jobs idleMs capacity health) P) :
    OneOwner jobs P.world ∧ (P.world.common.cache.entries.length : ℤ) ≤ max 0 capacity ∧
      ∀i o k x t,P.left i=.perform o k → Acts i P.world o x t → Proper i P.world o x := by
  have h := (contract jobs).run (start_sound jobs idleMs capacity health) hrun
  refine ⟨h.holds.oneOwner,?_,fun i o k x t hk ha => h.holds.proper (h.asks hk) ha⟩
  have hcapacity : P.world.common.cache.capacity=(max 0 capacity).toNat := hrun.capacity
  have hroom := P.world.common.cache.room
  omega

theorem Run.turn {P Q : Program.Pool Op Answer Unit ι (World ι)} (hrun : Run P Q) (i : ι) {o : Op}
    {k : Answer o→Worker Unit}
    {x : Answer o} {c : Common} (hk : Q.left i=.perform o k) (hp : Q.world.common.Performs o x c) :
    Run P ⟨Function.update Q.left i (k x),⟨c,Function.update Q.world.own i ((Q.world.own i).after o x)⟩⟩ :=
  Relation.ReflTransGen.tail hrun (.turn hk ⟨hp,rfl⟩)

/-- One errand, and one abandon of it. -/
def abandonedErrand : Bool→Job
  | true => .errand "ssh://h/log" 7 .ExecOnly .Never
  | false => .abandon 7

theorem one_owner_connecting :
    ∃P : Program.Pool Op Answer Unit Bool (World Bool),Run (start abandonedErrand 1000 1 fun _ => true) P ∧
      OneOwner abandonedErrand P.world ∧ P.world.common.published 7=some ⟨0,"h",.ExecOnly⟩ ∧
      P.world.common.abandoned 7=true := by
  have begun : Run (start abandonedErrand 1000 1 fun _ => true) _ := .refl
  have located := begun.turn true (o:=.locate "ssh://h/log") (x:=.ok ("h","/log")) rfl rfl
  have missed := located.turn true (o:=.checkOut "h" .ExecOnly) (x:=(none,[])) rfl ⟨fun _ => true,0,rfl,rfl⟩
  have hidden := missed.turn true (o:=.publish 7 none) (x:=()) rfl rfl
  have held := hidden.turn true (o:=.connectHold "h") (x:=true) rfl rfl
  have asked := held.turn true (o:=.abandoned 7) (x:=false) rfl ⟨rfl,rfl⟩
  have created := asked.turn true (o:=.create "h" .ExecOnly) (x:=⟨0,"h",.ExecOnly⟩) rfl ⟨rfl,rfl⟩
  have published := created.turn true (o:=.publish 7 _) (x:=()) rfl rfl
  have abandoned := published.turn false (o:=.setAbandoned 7) (x:=()) rfl rfl
  exact ⟨_,abandoned,(one_owner _ _ _ _ abandoned).1,rfl,rfl⟩

end Loftail.SshErrand
