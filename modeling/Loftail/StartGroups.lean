import Mathlib.Data.List.Induction

/-! # Cutting a sequence at its start elements

A start element opens a group; any other joins the last group when that one was opened
by a start, and is a group of its own otherwise. A group carries the proof of its shape,
so that no other list of groups can be written down. Cutting may be resumed at the
beginning of any group, which is what an incremental scan does. -/
namespace Loftail.StartGroups

variable {α : Type*} {isStart : α→Bool}

/-- A head and what joined it. Only a start is ever joined, and only by non-starts. -/
@[ext] structure Group (isStart : α→Bool) where
  head : α
  tail : List α
  continues : ∀a∈tail,isStart a=false
  alone : isStart head=false→tail=[]

namespace Group

def single (isStart : α→Bool) (a : α) : Group isStart := ⟨a,[],by simp,fun _ => rfl⟩

def extend (g : Group isStart) (a : α) (hg : isStart g.head=true) (ha : isStart a=false) : Group isStart :=
  ⟨g.head,g.tail++[a],by
    intro b hb
    rcases List.mem_append.mp hb with hb | hb
    · exact g.continues b hb
    · exact List.mem_singleton.mp hb ▸ ha,
    fun h => by simp [hg] at h⟩

def elems (g : Group isStart) : List α := g.head::g.tail

@[simp] theorem elems_single (a : α) : (single isStart a).elems=[a] := rfl

@[simp] theorem head_single (a : α) : (single isStart a).head=a := rfl

@[simp] theorem head_extend (g : Group isStart) (a : α) (hg : isStart g.head=true) (ha : isStart a=false) :
    (g.extend a hg ha).head=g.head := rfl

@[simp] theorem elems_extend (g : Group isStart) (a : α) (hg : isStart g.head=true) (ha : isStart a=false) :
    (g.extend a hg ha).elems=g.elems++[a] := rfl

theorem elems_ne_nil (g : Group isStart) : g.elems≠[] := by simp [elems]

end Group

/-- One element onto the groups so far, the last group first. -/
def push (gs : List (Group isStart)) (a : α) : List (Group isStart) :=
  if ha : isStart a=true then .single isStart a::gs else
    match gs with
    | [] => [.single isStart a]
    | g::gs => if hg : isStart g.head=true then g.extend a hg (by simpa using ha)::gs
        else .single isStart a::g::gs

theorem push_start (gs : List (Group isStart)) {a : α} (ha : isStart a=true) :
    push gs a=.single isStart a::gs := by simp [push,ha]

theorem push_join (g : Group isStart) (gs : List (Group isStart)) {a : α} (hg : isStart g.head=true)
    (ha : isStart a=false) : push (g::gs) a=g.extend a hg ha::gs := by simp [push,ha,hg]

theorem push_alone {gs : List (Group isStart)} {a : α} (ha : isStart a=false)
    (hg : ∀g∈gs.head?,isStart g.head=false) : push gs a=.single isStart a::gs := by
  cases gs with
  | nil => simp [push,ha]
  | cons g gs =>
    have h : isStart g.head=false := hg g (by simp)
    simp [push,ha,h]

/-- The groups of a sequence, in its order. -/
def groups (isStart : α→Bool) (as : List α) : List (Group isStart) := (as.foldl push []).reverse

@[simp] theorem groups_nil : groups isStart ([] : List α)=[] := rfl

theorem groups_concat (as : List α) (a : α) :
    groups isStart (as++[a])=(push (groups isStart as).reverse a).reverse := by
  simp [groups,List.foldl_append]

private theorem push_flatten (gs : List (Group isStart)) (a : α) :
    ((push gs a).reverse.map Group.elems).flatten=(gs.reverse.map Group.elems).flatten++[a] := by
  cases ha : isStart a with
  | true => simp [push_start gs ha]
  | false =>
    cases gs with
    | nil => simp [push,ha]
    | cons g gs =>
      cases hg : isStart g.head with
      | true => simp [push_join g gs hg ha]
      | false => simp [@push_alone _ _ (g::gs) _ ha (by simpa using hg)]

/-- Grouping loses, duplicates and reorders nothing. -/
theorem groups_flatten (as : List α) : ((groups isStart as).map Group.elems).flatten=as := by
  induction as using List.reverseRecOn with
  | nil => rfl
  | append_singleton as a ih =>
    rw [groups_concat,push_flatten,List.reverse_reverse,ih]

/-- Earlier groups are out of reach of later elements. -/
private theorem foldl_push_append (as : List α) {gs hs : List (Group isStart)} (hg : gs≠[]) :
    as.foldl push (gs++hs)=as.foldl push gs++hs := by
  induction as generalizing gs with
  | nil => rfl
  | cons a as ih =>
    have hpush : push (gs++hs) a=push gs a++hs ∧ push gs a≠[] := by
      obtain ⟨g,gs,rfl⟩ := List.exists_cons_of_ne_nil hg
      cases ha : isStart a with
      | true => simp [push_start _ ha]
      | false =>
        cases hs' : isStart g.head with
        | true => simp [push_join g _ hs' ha]
        | false =>
          rw [List.cons_append,@push_alone _ _ (g::(gs++hs)) _ ha (by simpa using hs'),
            @push_alone _ _ (g::gs) _ ha (by simpa using hs')]
          simp
    rw [List.foldl_cons,List.foldl_cons,hpush.1,ih hpush.2]

/-- Where a sequence may be cut so that its two parts are grouped apart: before a start,
or while no group has been opened by one. -/
def Boundary (isStart : α→Bool) (as bs : List α) : Prop :=
  (∀b∈bs.head?,isStart b=true) ∨ ∀g∈(groups isStart as).getLast?,isStart g.head=false

theorem groups_append {as bs : List α} (h : Boundary isStart as bs) :
    groups isStart (as++bs)=groups isStart as++groups isStart bs := by
  cases bs with
  | nil => simp
  | cons b bs =>
    have hpush : push (groups isStart as).reverse b=[.single isStart b]++(groups isStart as).reverse := by
      cases hb : isStart b with
      | true => simp [push_start _ hb]
      | false =>
        rcases h with h | h
        · simp [hb] at h
        · rw [push_alone hb (by simpa [List.head?_reverse] using h)]
          rfl
    have hone : push ([] : List (Group isStart)) b=[.single isStart b] := by
      cases hb : isStart b <;> simp [push,hb]
    have hrev : as.foldl push ([] : List (Group isStart))=(groups isStart as).reverse := by simp [groups]
    rw [groups,List.foldl_append,List.foldl_cons,hrev,hpush,foldl_push_append _ (by simp),
      List.reverse_append,List.reverse_reverse,groups,groups,List.foldl_cons,hone]

/-- What follows may lengthen the last group, and opens groups behind it. -/
theorem groups_continue {as : List α} {gs : List (Group isStart)} {g : Group isStart}
    (h : groups isStart as=gs++[g]) (bs : List α) : ∃(g' : Group isStart) (later : List (Group isStart)),
      groups isStart (as++bs)=gs++g'::later ∧ g'.head=g.head := by
  have hlast : ∀g : Group isStart,∃(g' : Group isStart) (later : List (Group isStart)),
      bs.foldl push [g]=later++[g'] ∧ g'.head=g.head := by
    induction bs with
    | nil => exact fun g => ⟨g,[],rfl,rfl⟩
    | cons b bs ih =>
      intro g
      cases hb : isStart b with
      | true =>
        refine ⟨g,bs.foldl push [.single isStart b],?_,rfl⟩
        rw [List.foldl_cons,push_start _ hb]
        exact @foldl_push_append _ _ bs [.single isStart b] [g] (List.cons_ne_nil _ _)
      | false =>
        cases hg : isStart g.head with
        | true =>
          obtain ⟨g',later,hfold,hhead⟩ := ih (g.extend b hg hb)
          exact ⟨g',later,by rw [List.foldl_cons,push_join g [] hg hb,hfold],hhead⟩
        | false =>
          refine ⟨g,bs.foldl push [.single isStart b],?_,rfl⟩
          rw [List.foldl_cons,@push_alone _ _ [g] _ hb (by simpa using hg)]
          exact @foldl_push_append _ _ bs [.single isStart b] [g] (List.cons_ne_nil _ _)
  obtain ⟨g',later,hfold,hhead⟩ := hlast g
  refine ⟨g',later.reverse,?_,hhead⟩
  have hrev : as.foldl push ([] : List (Group isStart))=[g]++gs.reverse := by
    rw [← List.reverse_reverse (as.foldl push _)]
    change (groups isStart as).reverse=_
    rw [h,List.reverse_append]
    rfl
  rw [groups,List.foldl_append,hrev,foldl_push_append bs (List.cons_ne_nil _ _),hfold]
  simp

/-- The elements of one group regroup to that group. -/
theorem groups_elems (g : Group isStart) : groups isStart g.elems=[g] := by
  have hfold : ∀(ts : List α) (h : Group isStart),isStart h.head=true→(∀a∈ts,isStart a=false)→
      ∃h',ts.foldl push [h]=[h'] ∧ h'.elems=h.elems++ts := by
    intro ts
    induction ts with
    | nil => exact fun h _ _ => ⟨h,rfl,by simp⟩
    | cons a ts ih =>
      intro h hh hts
      have ha := hts a (by simp)
      obtain ⟨h',he,hel⟩ := ih (h.extend a hh ha) hh (fun b hb => hts b (by simp [hb]))
      refine ⟨h',?_,?_⟩
      · rw [List.foldl_cons,push_join h [] hh ha,he]
      · rw [hel,Group.elems_extend,List.append_assoc]
        rfl
  have hone : push ([] : List (Group isStart)) g.head=[.single isStart g.head] := by
    cases hb : isStart g.head <;> simp [push,hb]
  cases hg : isStart g.head with
  | true =>
    obtain ⟨h',he,hel⟩ := hfold g.tail (.single isStart g.head) hg g.continues
    have heq : h'=g := by
      simp only [Group.elems,Group.single,List.cons_append,List.nil_append,List.cons.injEq] at hel
      exact Group.ext hel.1 hel.2
    rw [groups,Group.elems,List.foldl_cons,hone,he,heq]
    rfl
  | false =>
    have ht := g.alone hg
    rw [groups,Group.elems,ht,List.foldl_cons,hone,List.foldl_nil,List.reverse_singleton]
    exact congrArg (fun x => [x]) (Group.ext rfl ht.symm)

/-- Once a start has opened a group, every later group is opened by one. -/
theorem groups_opened (as : List α) : (groups isStart as).Pairwise
    (fun g h => isStart g.head=true→isStart h.head=true) := by
  induction as using List.reverseRecOn with
  | nil => simp
  | append_singleton as a ih =>
    rw [groups_concat,List.pairwise_reverse]
    have hr : (groups isStart as).reverse.Pairwise (fun h g => isStart g.head=true→isStart h.head=true) := by
      simpa [List.pairwise_reverse] using ih
    generalize (groups isStart as).reverse=gs at hr
    cases ha : isStart a with
    | true =>
      rw [push_start gs ha]
      exact List.pairwise_cons.mpr ⟨fun g _ _ => ha,hr⟩
    | false =>
      cases gs with
      | nil => simp [push,ha]
      | cons g gs =>
        obtain ⟨hhead,htail⟩ := List.pairwise_cons.mp hr
        cases hg : isStart g.head with
        | true =>
          rw [push_join g gs hg ha]
          exact List.pairwise_cons.mpr ⟨fun h _ _ => hg,htail⟩
        | false =>
          rw [@push_alone _ _ (g::gs) _ ha (by simpa using hg)]
          refine List.pairwise_cons.mpr ⟨?_,hr⟩
          intro h hh hopen
          rcases List.mem_cons.mp hh with rfl | hh
          · exact absurd hopen (by simp [hg])
          · exact absurd (hhead h hh hopen) (by simp [hg])

/-- Groups of which none closes after a start has opened one are the groups of their elements. -/
theorem groups_of_opened {gs : List (Group isStart)}
    (h : gs.Pairwise (fun g h => isStart g.head=true→isStart h.head=true)) :
    groups isStart (gs.map Group.elems).flatten=gs := by
  induction gs using List.reverseRecOn with
  | nil => rfl
  | append_singleton gs g ih =>
    have ih' := ih (List.pairwise_append.mp h).1
    have hcut : Boundary isStart (gs.map Group.elems).flatten g.elems := by
      rw [Boundary,ih']
      cases hg : isStart g.head with
      | true => exact Or.inl (by simpa [Group.elems] using hg)
      | false =>
        refine Or.inr fun k hk => ?_
        have hkg := (List.pairwise_append.mp h).2.2 k (List.mem_of_getLast? hk) g (by simp)
        cases hk' : isStart k.head with
        | false => rfl
        | true => exact absurd (hkg hk') (by simp [hg])
    rw [List.map_append,List.flatten_append,List.map_singleton,List.flatten_singleton,
      groups_append hcut,ih',groups_elems]

/-- A sequence can be cut at the beginning of any of its groups. -/
theorem groups_split {as : List α} {gs hs : List (Group isStart)} (h : groups isStart as=gs++hs) :
    as=(gs.map Group.elems).flatten++(hs.map Group.elems).flatten ∧
      groups isStart (gs.map Group.elems).flatten=gs ∧ groups isStart (hs.map Group.elems).flatten=hs := by
  have hpair := @groups_opened _ isStart as
  rw [h] at hpair
  refine ⟨?_,groups_of_opened (List.pairwise_append.mp hpair).1,
    groups_of_opened (List.pairwise_append.mp hpair).2.1⟩
  have hf := @groups_flatten _ isStart as
  simpa [h] using hf.symm

/-- Before the last group stands a boundary, whatever joins that group later. -/
theorem boundary_of_last {as : List α} {gs : List (Group isStart)} {g : Group isStart}
    (h : groups isStart as=gs++[g]) (bs : List α) (hb : ∀b∈bs.head?,isStart g.head=true→isStart b=true) :
    Boundary isStart (gs.map Group.elems).flatten bs := by
  have hpair := @groups_opened _ isStart as
  rw [h] at hpair
  rw [Boundary,(groups_split h).2.1]
  cases hg : isStart g.head with
  | true => exact Or.inl fun b hb' => hb b hb' hg
  | false =>
    refine Or.inr fun k hk => ?_
    have hkg := (List.pairwise_append.mp hpair).2.2 k (List.mem_of_getLast? hk) g (by simp)
    cases hk' : isStart k.head with
    | false => rfl
    | true => exact absurd (hkg hk') (by simp [hg])

end Loftail.StartGroups
