import Loftail.FirstSeen
import Loftail.GreedyAxes
import Loftail.LogNames
import Loftail.LogPathSpelling

/-! # What the tabs of a set of open logs are called -/
namespace Loftail
open QString RemoteLocation ArchiveLocation FirstSeen GreedyAxes

namespace TabLabels

def kMaxTabQualifierChars : ℤ := 24

def splitSegments (path : Text) : List Text :=
  ((path.splitOn slash).filter (!·.isEmpty)).filter (·≠latin1 ".")

def elideMiddle (s : Text) (max : ℤ) : Text :=
  if s.length ≤ max ∨ max<3 then s
  else
    let keep := (max-1).toNat
    let head := (keep+1)/2
    s.take head++0x2026::s.drop (s.length-(keep-head))

/-- What one address contributes to the labels. -/
structure Parts where
  bare : Text
  device : Text
  container : Text
  outer : List Text
  inner : List Text
  deriving DecidableEq,Inhabited

/-- The directories above a path, root first. -/
def parentSegments (path : Text) : List Text := (splitSegments path).dropLast

section Addresses
variable (q : QUrl) (fs : FileSystem) (deviceName : Option (RemoteLocation→Text))

/-- The directories above an address that may be remote, and the host if it is one. -/
def takeLocation (address : Text) : List Text×Text :=
  match parse q address with
  | some url =>
    let device := match deviceName with
      | some name => trimmed (name url)
      | none => []
    (parentSegments url.path,if device.isEmpty then url.displayHost else device)
  | none => (parentSegments (if isRemote address then withoutPassword address else address),[])

def partsOf (address : Text) : Parts :=
  let bare := logSourceBareName q fs address
  match split q fs address with
  | some loc =>
    let (outer,device) := takeLocation q deviceName loc.container
    let name := fileName loc.container
    ⟨bare,device,if name≠bare then name else [],outer,if loc.member.isEmpty then [] else parentSegments loc.member⟩
  | none =>
    let (outer,device) := takeLocation q deviceName address
    ⟨bare,device,[],outer,[]⟩

end Addresses

/-- How many entries every list shares, read from one of its ends. -/
def commonEntries (entry : List Text→ℕ→Option Text) (lists : List (List Text)) : ℕ :=
  let n := (lists.map List.length).min?.getD 0
  ((List.range n).takeWhile fun i => lists.all fun l => entry l i=entry (lists.headD []) i).length

def commonPrefix : List (List Text)→ℕ := commonEntries fun l i => l[i]?

def commonSuffix : List (List Text)→ℕ := commonEntries fun l i => l[l.length-1-i]?

/-- A list with what its group shares stripped off both ends. -/
def residue (segs : List Text) (head tail : ℕ) : List Text :=
  let lo := min head segs.length
  let hi := max lo (segs.length-tail)
  (segs.drop lo).take (hi-lo)

/-- The path a member of a group shows. -/
def pathRun (group : List Parts) (p : Parts) : Text :=
  let outers := group.map Parts.outer
  let inners := group.map Parts.inner
  [slash].intercalate (residue p.outer (commonPrefix outers) (commonSuffix outers)++
    residue p.inner (commonPrefix inners) (commonSuffix inners))

inductive Axis | device | container | path
  deriving DecidableEq,Inhabited,Repr

/-- A name, and in brackets what it takes to tell it. -/
def bracketed (bare : Text) (components : List Text) : Text :=
  if components.isEmpty then bare else bare++latin1 " ("++(latin1 ", ").intercalate components++latin1 ")"

/-- A label built from the axes in use. -/
def labelFor (maxRunChars : ℤ) (run : Parts→Text) (use : List Axis) (p : Parts) : Text :=
  bracketed p.bare
    ((if use.contains .device && !p.device.isEmpty then [p.device] else [])++
      (if use.contains .container && !p.container.isEmpty then [p.container] else [])++
      (if use.contains .path && !(run p).isEmpty then [elideMiddle (run p) maxRunChars] else []))

/-- The label of a member of a group. The device is always spent, the other axes where they buy a distinction. -/
def memberLabel (maxQualifierChars : ℤ) (group : List Parts) (p : Parts) : Text :=
  if group.length=1 then labelFor maxQualifierChars (fun _ => []) [.device] p
  else
    let label := labelFor maxQualifierChars (pathRun group)
    label (choose label group [.container,.path] [.device]) p

/-- One more position, in the group of its key or in one of its own. -/
def addPlace (groups : List (Text×List ℕ)) (place : Text×ℕ) : List (Text×List ℕ) :=
  if groups.any fun group => group.1=place.1 then
    groups.map fun group => if group.1=place.1 then (group.1,group.2++[place.2]) else group
  else groups++[(place.1,[place.2])]

/-- The positions of each key, the keys in the order they appear. -/
def groupsBy (keys : List Text) : List (List ℕ) := (keys.zipIdx.foldl addPlace []).map Prod.snd

/-- The labels of one group, each at its place. -/
def labelGroup (maxQualifierChars : ℤ) (parts : List Parts) (labels : List Text) (members : List ℕ) : List Text :=
  let group := members.map fun i => parts.getD i default
  members.foldl (fun labels i => labels.set i (memberLabel maxQualifierChars group (parts.getD i default))) labels

def tabLabelsFor (q : QUrl) (fs : FileSystem) (addresses : List Text) (maxQualifierChars : ℤ)
    (deviceName : Option (RemoteLocation→Text)) : List Text :=
  let parts := addresses.map (partsOf q fs deviceName)
  (groupsBy (parts.map Parts.bare)).foldl (labelGroup maxQualifierChars parts) (List.replicate addresses.length [])

/-! ## The labels do not look at the order -/

section Order
variable {entry : List Text→ℕ→Option Text} {lists lists' : List (List Text)} {group group' : List Parts}

theorem entries_agree (hne : lists≠[]) (i : ℕ) :
    (lists.all fun l => entry l i=entry (lists.headD []) i)=true ↔ ∀l∈lists,∀l'∈lists,entry l i=entry l' i := by
  obtain ⟨first,rest,rfl⟩ := List.exists_cons_of_ne_nil hne
  simp only [List.all_eq_true,List.headD_cons]
  constructor
  · intro h l hl l' hl'
    exact (of_decide_eq_true (h l hl)).trans (of_decide_eq_true (h l' hl')).symm
  · intro h l hl
    exact decide_eq_true (h l hl first List.mem_cons_self)

private theorem shortest_perm {xs ys : List ℕ} (h : xs.Perm ys) : xs.min?=ys.min? := by
  cases hx : xs.min? with
  | none =>
    rw [List.min?_eq_none_iff] at hx
    rw [hx] at h
    rw [List.nil_perm.mp h]
    rfl
  | some n =>
    obtain ⟨hn,hle⟩ := List.min?_eq_some_iff.mp hx
    exact (List.min?_eq_some_iff.mpr ⟨h.mem_iff.mp hn,fun m hm => hle m (h.mem_iff.mpr hm)⟩).symm

theorem commonEntries_perm (h : lists.Perm lists') : commonEntries entry lists=commonEntries entry lists' := by
  by_cases hne : lists=[]
  · subst hne
    rw [List.nil_perm.mp h]
  · have hne' : lists'≠[] := fun hnil => hne (List.perm_nil.mp (hnil ▸ h))
    have hsame : (fun i => lists.all fun l => entry l i=entry (lists.headD []) i)=
        fun i => lists'.all fun l => entry l i=entry (lists'.headD []) i := by
      funext i
      rw [Bool.eq_iff_iff,entries_agree hne,entries_agree hne']
      simp only [h.mem_iff]
    rw [commonEntries,commonEntries,hsame,shortest_perm (h.map List.length)]

private theorem pathRun_perm (h : group.Perm group') : pathRun group=pathRun group' := by
  funext p
  have houter := h.map Parts.outer
  have hinner := h.map Parts.inner
  simp only [pathRun,commonPrefix,commonSuffix,commonEntries_perm houter,commonEntries_perm hinner]

private theorem memberLabel_perm (max : ℤ) (h : group.Perm group') :
    memberLabel max group=memberLabel max group' := by
  funext p
  simp only [memberLabel,h.length_eq,pathRun_perm h,choose_perm h]

end Order

/-! ## Every address has the label of its group -/

section Groups
variable {keys : List Text} {parts : List Parts} {labels : List Text} {k : Text} {i : ℕ} {max : ℤ}

/-- Where a key stands. -/
def placesOf (keys : List Text) (k : Text) : List ℕ := (keys.zipIdx.filter (·.1=k)).map Prod.snd

theorem mem_placesOf : i∈placesOf keys k ↔ keys[i]?=some k := by
  simp [placesOf,List.mem_zipIdx_iff_getElem?]

theorem placesOf_concat (keys : List Text) (key k : Text) :
    placesOf (keys++[key]) k=placesOf keys k++if key=k then [keys.length] else [] := by
  rw [placesOf,List.zipIdx_append,List.filter_append,List.map_append]
  by_cases h : key=k <;> simp [placesOf,h]

private theorem foldl_addPlace (keys : List Text) :
    (∀group∈keys.zipIdx.foldl addPlace [],group.2=placesOf keys group.1) ∧
      ∀k∈keys,∃group∈keys.zipIdx.foldl addPlace [],group.1=k := by
  induction keys using List.reverseRecOn with
  | nil => exact ⟨fun group h => absurd h List.not_mem_nil,fun k h => absurd h List.not_mem_nil⟩
  | append_singleton keys key ih =>
    have hzip : (keys++[key]).zipIdx=keys.zipIdx++[(key,keys.length)] := by simp [List.zipIdx_append]
    rw [hzip,List.foldl_append,List.foldl_cons,List.foldl_nil]
    generalize keys.zipIdx.foldl addPlace []=groups at ih
    obtain ⟨hplaces,hall⟩ := ih
    rw [addPlace]
    split
    · rename_i hany
      constructor
      · intro group hgroup
        obtain ⟨old,hold,rfl⟩ := List.mem_map.mp hgroup
        by_cases hkey : old.1=key
        · rw [if_pos hkey,hplaces old hold,placesOf_concat,if_pos hkey.symm]
        · rw [if_neg hkey,hplaces old hold,placesOf_concat,if_neg (Ne.symm hkey),List.append_nil]
      · intro k hk
        have hold : ∃group∈groups,group.1=k := by
          rcases List.mem_append.mp hk with hk | hk
          · exact hall k hk
          · rw [List.mem_singleton.mp hk]
            simpa using hany
        obtain ⟨old,hold,rfl⟩ := hold
        refine ⟨_,List.mem_map_of_mem hold,?_⟩
        split <;> rfl
    · rename_i hnone
      have hfresh : ∀old∈groups,old.1≠key :=
        fun old hold hkey => hnone (List.any_eq_true.mpr ⟨old,hold,decide_eq_true hkey⟩)
      constructor
      · intro group hgroup
        rcases List.mem_append.mp hgroup with hold | hnew
        · rw [hplaces group hold,placesOf_concat,if_neg (hfresh group hold).symm,List.append_nil]
        · rw [List.mem_singleton.mp hnew]
          have hempty : placesOf keys key=[] := by
            rw [List.eq_nil_iff_forall_not_mem]
            intro i hi
            obtain ⟨old,hold,hkey⟩ := hall key (List.mem_of_getElem? (mem_placesOf.mp hi))
            exact hfresh old hold hkey
          rw [placesOf_concat,hempty,if_pos rfl]
          rfl
      · intro k hk
        rcases List.mem_append.mp hk with hk | hk
        · obtain ⟨old,hold,hkey⟩ := hall k hk
          exact ⟨old,List.mem_append_left _ hold,hkey⟩
        · rw [List.mem_singleton.mp hk]
          exact ⟨_,List.mem_append_right _ (List.mem_singleton.mpr rfl),rfl⟩

/-- The parts that share a name. -/
def sharing (parts : List Parts) (bare : Text) : List Parts := parts.filter (·.bare=bare)

private theorem placesOf_parts (parts : List Parts) (k : Text) :
    (placesOf (parts.map Parts.bare) k).map (fun i => parts.getD i default)=sharing parts k := by
  induction parts using List.reverseRecOn with
  | nil => rfl
  | append_singleton parts p ih =>
    have hold : (placesOf (parts.map Parts.bare) k).map (fun i => (parts++[p]).getD i default)=
        (placesOf (parts.map Parts.bare) k).map fun i => parts.getD i default := by
      apply List.map_congr_left
      intro i hi
      have hlt : i<parts.length := by
        have hlt := (List.getElem?_eq_some_iff.mp (mem_placesOf.mp hi)).1
        rwa [List.length_map] at hlt
      rw [List.getD_eq_getElem?_getD,List.getD_eq_getElem?_getD,List.getElem?_append_left hlt]
    rw [List.map_append,List.map_singleton,placesOf_concat,List.map_append,hold,ih,sharing,sharing,
      List.filter_append]
    by_cases hp : p.bare=k <;> simp [hp]

/-- Each of these places is written once or more often, and always alike. -/
theorem foldl_set {α : Type*} (v : ℕ→α) (members : List ℕ) (labels : List α) (i : ℕ) :
    (members.foldl (fun labels i => labels.set i (v i)) labels)[i]?=
      if i∈members ∧ i<labels.length then some (v i) else labels[i]? := by
  induction members generalizing labels with
  | nil => simp
  | cons m members ih =>
    rw [List.foldl_cons,ih,List.length_set,List.getElem?_set]
    simp only [List.mem_cons]
    by_cases him : m=i
    · subst him
      by_cases hm : m∈members <;> by_cases hlt : m<labels.length <;> simp [hm,hlt]
    · simp [him,Ne.symm him]

/-- The label that belongs at a place. -/
def placedLabel (max : ℤ) (parts : List Parts) (i : ℕ) : Text :=
  memberLabel max (sharing parts (parts.getD i default).bare) (parts.getD i default)

private theorem labelGroup_at (labels : List Text) (k : Text) (i : ℕ) :
    (labelGroup max parts labels (placesOf (parts.map Parts.bare) k))[i]?=
      if i∈placesOf (parts.map Parts.bare) k ∧ i<labels.length then some
      (placedLabel max parts i) else labels[i]? := by
  rw [labelGroup,placesOf_parts,foldl_set]
  by_cases hi : i∈placesOf (parts.map Parts.bare) k ∧ i<labels.length
  · rw [if_pos hi,if_pos hi]
    have hbare : (parts.getD i default).bare=k := by
      have hat := mem_placesOf.mp hi.1
      rw [List.getElem?_map] at hat
      obtain ⟨p,hp,hk⟩ := Option.map_eq_some_iff.mp hat
      rw [List.getD_eq_getElem?_getD,hp]
      exact hk
    rw [placedLabel,hbare]
  · rw [if_neg hi,if_neg hi]

theorem labelGroup_length (labels : List Text) (members : List ℕ) :
    (labelGroup max parts labels members).length=labels.length := by
  rw [labelGroup]
  generalize members.map _=group
  induction members generalizing labels with
  | nil => rfl
  | cons i members ih => rw [List.foldl_cons,ih,List.length_set]

private theorem foldl_labelGroup_length (labels : List Text) (groups : List (List ℕ)) :
    (groups.foldl (labelGroup max parts) labels).length=labels.length := by
  induction groups generalizing labels with
  | nil => rfl
  | cons members groups ih => rw [List.foldl_cons,ih,labelGroup_length]

/-- A place is labelled once its group has been, and stays so. -/
theorem foldl_labelGroup {groups : List (List ℕ)} (hgroups : ∀members∈groups,∃k,members=placesOf
    (parts.map Parts.bare) k)
    (hi : i<labels.length) (h : labels[i]?=some (placedLabel max parts i) ∨ ∃members∈groups,i∈members) :
    (groups.foldl (labelGroup max parts) labels)[i]?=some (placedLabel max parts i) := by
  induction groups generalizing labels with
  | nil => exact h.resolve_right (by simp)
  | cons members groups ih =>
    obtain ⟨k,rfl⟩ := hgroups members List.mem_cons_self
    rw [List.foldl_cons]
    apply ih (fun members hm => hgroups members (List.mem_cons_of_mem _ hm)) (by rwa [labelGroup_length])
    rw [labelGroup_at]
    by_cases hmem : i∈placesOf (parts.map Parts.bare) k
    · exact Or.inl (if_pos ⟨hmem,hi⟩)
    · rw [if_neg fun hboth => hmem hboth.1]
      refine h.imp_right ?_
      rintro ⟨members,hm,him⟩
      rcases List.mem_cons.mp hm with rfl | hm
      · exact absurd him hmem
      · exact ⟨members,hm,him⟩

/-- The labels, one address at a time. -/
theorem tabLabelsFor_eq (q : QUrl) (fs : FileSystem) (addresses : List Text) (max : ℤ)
    (deviceName : Option (RemoteLocation→Text)) : tabLabelsFor q fs addresses max deviceName=addresses.map fun a =>
      memberLabel max (sharing (addresses.map (partsOf q fs deviceName)) (partsOf q fs deviceName a).bare)
        (partsOf q fs deviceName a) := by
  apply List.ext_getElem?
  intro i
  rw [List.getElem?_map]
  cases ha : addresses[i]? with
  | none =>
    rw [List.getElem?_eq_none_iff] at ha
    rw [Option.map_none,List.getElem?_eq_none_iff,tabLabelsFor,foldl_labelGroup_length,List.length_replicate]
    exact ha
  | some a =>
    have hlt := (List.getElem?_eq_some_iff.mp ha).1
    have hpart : (addresses.map (partsOf q fs deviceName)).getD i default=partsOf q fs deviceName a := by
      rw [List.getD_eq_getElem?_getD,List.getElem?_map,ha]
      rfl
    obtain ⟨hplaces,hall⟩ := foldl_addPlace ((addresses.map (partsOf q fs deviceName)).map Parts.bare)
    have hkey : ((addresses.map (partsOf q fs deviceName)).map Parts.bare)[i]?=some
      (partsOf q fs deviceName a).bare := by
      rw [List.getElem?_map,List.getElem?_map,ha]
      rfl
    rw [Option.map_some,tabLabelsFor,foldl_labelGroup,placedLabel,hpart]
    · intro members hm
      obtain ⟨group,hgroup,rfl⟩ := List.mem_map.mp hm
      exact ⟨group.1,hplaces group hgroup⟩
    · rwa [List.length_replicate]
    · obtain ⟨group,hgroup,hbare⟩ := hall _ (List.mem_of_getElem? hkey)
      refine Or.inr ⟨group.2,List.mem_map_of_mem hgroup,?_⟩
      rw [hplaces group hgroup,hbare]
      exact mem_placesOf.mpr hkey

end Groups

/-! ## What a label tells -/

section Telling
variable {max : ℤ} {run : Parts→Text} {use : List Axis} {p p' : Parts} {group : List Parts}

/-- What an axis adds to a label. -/
def axisText (max : ℤ) (run : Parts→Text) : Axis→Parts→Text
  | .device,p => p.device
  | .container,p => p.container
  | .path,p => elideMiddle (run p) max

theorem elideMiddle_isEmpty (s : Text) (max : ℤ) : (elideMiddle s max).isEmpty=s.isEmpty := by
  rw [elideMiddle]
  split
  · rfl
  · rename_i h
    cases s with
    | nil =>
      rw [List.length_nil] at h
      omega
    | cons u s => simp

/-- A label is made of its name and of what the axes in use add. -/
theorem labelFor_built (hbare : p.bare=p'.bare) (h : ∀axis∈use,axisText max run axis p=axisText max run axis p') :
    labelFor max run use p=labelFor max run use p' := by
  have hdevice : (if use.contains .device && !p.device.isEmpty then [p.device] else [])=
      if use.contains .device && !p'.device.isEmpty then [p'.device] else [] := by
    by_cases hu : Axis.device∈use
    · rw [show p.device=p'.device from h _ hu]
    · simp [hu]
  have hcontainer : (if use.contains .container && !p.container.isEmpty then [p.container] else [])=
      if use.contains .container && !p'.container.isEmpty then [p'.container] else [] := by
    by_cases hu : Axis.container∈use
    · rw [show p.container=p'.container from h _ hu]
    · simp [hu]
  have hpath : (if use.contains .path && !(run p).isEmpty then [elideMiddle (run p) max] else [])=
      if use.contains .path && !(run p').isEmpty then [elideMiddle (run p') max] else [] := by
    rw [← elideMiddle_isEmpty (run p) max,← elideMiddle_isEmpty (run p') max]
    by_cases hu : Axis.path∈use
    · rw [show elideMiddle (run p) max=elideMiddle (run p') max from h _ hu]
    · simp [hu]
  rw [labelFor,labelFor,hbare,hdevice,hcontainer,hpath]

/-- A label is a name, or a name with something in brackets. -/
theorem bracketed_cases (bare : Text) (components : List Text) :
    ∃added,bracketed bare components=bare++added ∧ (added=[] ∨ latin1 " ("<+:added) := by
  rw [bracketed]
  split
  · exact ⟨[],(List.append_nil _).symm,Or.inl rfl⟩
  · exact ⟨_,by rw [List.append_assoc,List.append_assoc],Or.inr (List.prefix_append _ _)⟩

private theorem extended {u v : UInt16} {a x added added' : Text} (huv : u≠v) (hne : x≠[]) (h : added=x++added')
    (hadded : added=[] ∨ [u,v]<+:added) (hadded' : added'=[] ∨ [u,v]<+:added') : a++[u,v]<+:a++x := by
  rw [List.prefix_append_right_inj]
  obtain ⟨c,x,rfl⟩ := List.exists_cons_of_ne_nil hne
  obtain rfl | ⟨rest,rfl⟩ := hadded
  · cases h
  · obtain ⟨rfl,htail⟩ := List.cons.inj h
    cases x with
    | nil =>
      -- The bracket would open where the other label has its blank.
      obtain rfl | ⟨rest',rfl⟩ := hadded'
      · cases htail
      · exact absurd (List.cons.inj htail).1.symm huv
    | cons d x =>
      rw [(List.cons.inj htail).1]
      exact ⟨x,rfl⟩

/-- One label of two names: the one name is written as the other with something in brackets. -/
theorem bracketed_names {name name' : Text} {components components' : List Text}
    (h : bracketed name components=bracketed name' components') (hne : name≠name') :
    name++latin1 " ("<+:name' ∨ name'++latin1 " ("<+:name := by
  obtain ⟨added,hadded,hcase⟩ := bracketed_cases name components
  obtain ⟨added',hadded',hcase'⟩ := bracketed_cases name' components'
  rw [hadded,hadded'] at h
  have hopen : latin1 " ("=[0x20,0x28] := by decide
  rw [hopen] at hcase hcase' ⊢
  rcases List.append_eq_append_iff.mp h with ⟨x,hbare,hx⟩ | ⟨x,hbare,hx⟩
  · left
    rw [hbare]
    exact extended (by decide) (fun hnil => hne (by rw [hbare,hnil,List.append_nil])) hx hcase hcase'
  · right
    rw [hbare]
    exact extended (by decide) (fun hnil => hne (by rw [hbare,hnil,List.append_nil])) hx hcase' hcase

theorem memberLabel_bracketed (max : ℤ) (group : List Parts) (p : Parts) :
    ∃components,memberLabel max group p=bracketed p.bare components := by
  rw [memberLabel]
  split
  · exact ⟨_,rfl⟩
  · exact ⟨_,rfl⟩

/-- Two members of a group read alike over some axes although one of these axes tells them apart. -/
def Confused (max : ℤ) (group : List Parts) : Prop :=
  ∃use,.device∈use ∧ ∃p∈group,∃p'∈group,labelFor max (pathRun group) use p=labelFor max (pathRun group) use p' ∧
    ∃axis∈use,axisText max (pathRun group) axis p≠axisText max (pathRun group) axis p'

/-- Members of an unconfused group with one label agree on every axis. -/
theorem memberLabel_agree (hbare : ∀p∈group,∀p'∈group,p.bare=p'.bare) (hclear : ¬Confused max group) (hp : p∈group)
    (hp' : p'∈group) (h : memberLabel max group p=memberLabel max group p') :
    ∀axis,axisText max (pathRun group) axis p=axisText max (pathRun group) axis p' := by
  rw [memberLabel,memberLabel] at h
  split at h
  · rename_i hone
    obtain ⟨a,rfl⟩ := List.length_eq_one_iff.mp hone
    rw [List.mem_singleton.mp hp,List.mem_singleton.mp hp']
    exact fun _ => rfl
  · have hlabel : labelFor max (pathRun group) (choose (labelFor max (pathRun group)) group
      [.container,.path] [.device]) p=
        labelFor max (pathRun group) (choose (labelFor max (pathRun group)) group [.container,.path]
          [.device]) p' := h
    have hagree := @choose_agree _ _ _ _ _ (labelFor max (pathRun group))
      (axisText max (pathRun group)) _ _ _ _ _ hp hp' ?_ ?_
      hlabel
    · rcases hagree with rfl | hall
      · exact fun _ => rfl
      · intro axis
        exact hall axis (by cases axis <;> simp)
    · intro more a ha b hb hlabel axis haxis
      by_contra hdiffer
      exact hclear ⟨_,List.mem_cons_self,a,ha,b,hb,hlabel,axis,haxis,hdiffer⟩
    · intro use a ha b hb hall
      exact labelFor_built (hbare a ha b hb) hall

end Telling

theorem mem_sharing {parts : List Parts} {bare : Text} {p : Parts} : p∈sharing parts bare ↔ p∈parts ∧
    p.bare=bare := by
  simp [sharing]

/-- Labels do not look at the order of the logs; and two logs with one label agree in name, device, container and
path run, or a path run of their group is elided, or labels of that group read alike though an axis in use tells
their logs apart, or the name of the one is that of the other with something in brackets. -/
theorem tabLabelsFor_tells (q : QUrl) (fs : FileSystem) (addresses : List Text) (max : ℤ)
    (deviceName : Option (RemoteLocation→Text)) :
    (∀addresses' : List Text,addresses.Perm addresses' → ∀(i j : ℕ) (a : Text),addresses[i]?=some a→
      addresses'[j]?=some a→
      (tabLabelsFor q fs addresses max deviceName)[i]?=(tabLabelsFor q fs addresses' max deviceName)[j]?) ∧
    ∀(i j : ℕ) (a b : Text),addresses[i]?=some a→addresses[j]?=some b→
      (tabLabelsFor q fs addresses max deviceName)[i]?=(tabLabelsFor q fs addresses max deviceName)[j]? → 
      let p := partsOf q fs deviceName a
      let p' := partsOf q fs deviceName b
      let group := sharing (addresses.map (partsOf q fs deviceName)) p.bare
      (p.bare=p'.bare ∧ p.device=p'.device ∧ p.container=p'.container ∧ pathRun group p=pathRun group p') ∨
        (p.bare=p'.bare ∧ ((∃m∈group,elideMiddle (pathRun group m) max≠pathRun group m) ∨ Confused max group)) ∨
        p.bare++latin1 " ("<+:p'.bare ∨ p'.bare++latin1 " ("<+:p.bare := by
  constructor
  · intro addresses' hperm i j a hi hj
    have hgroup (bare : Text) := (hperm.map (partsOf q fs deviceName)).filter (·.bare=bare)
    rw [tabLabelsFor_eq,tabLabelsFor_eq,List.getElem?_map,List.getElem?_map,hi,hj,Option.map_some,Option.map_some,
      sharing,sharing,memberLabel_perm max (hgroup _)]
  · intro i j a b hi hj hlabel p p' group
    rw [tabLabelsFor_eq,List.getElem?_map,List.getElem?_map,hi,hj,Option.map_some,Option.map_some,
      Option.some_inj] at hlabel
    have hp : p∈group := mem_sharing.mpr ⟨List.mem_map_of_mem (List.mem_of_getElem? hi),rfl⟩
    by_cases hbare : p.bare=p'.bare
    · have hp' : p'∈group := mem_sharing.mpr ⟨List.mem_map_of_mem (List.mem_of_getElem? hj),hbare.symm⟩
      by_cases hclear : Confused max group
      · exact Or.inr (Or.inl ⟨hbare,Or.inr hclear⟩)
      by_cases helided : ∃m∈group,elideMiddle (pathRun group m) max≠pathRun group m
      · exact Or.inr (Or.inl ⟨hbare,Or.inl helided⟩)
      have hwhole : ∀m∈group,elideMiddle (pathRun group m) max=pathRun group m := by
        intro m hm
        by_contra hcut
        exact helided ⟨m,hm,hcut⟩
      have hone : ∀m∈group,∀m'∈group,m.bare=m'.bare :=
        fun m hm m' hm' => (mem_sharing.mp hm).2.trans (mem_sharing.mp hm').2.symm
      have hlabel : memberLabel max group p=memberLabel max
        (sharing (addresses.map (partsOf q fs deviceName)) p'.bare) p' :=
        hlabel
      rw [← hbare] at hlabel
      have hagree := memberLabel_agree hone hclear hp hp' hlabel
      refine Or.inl ⟨hbare,hagree .device,hagree .container,?_⟩
      rw [← hwhole p hp,← hwhole p' hp']
      exact hagree .path
    · obtain ⟨components,hleft⟩ := memberLabel_bracketed max group p
      obtain ⟨components',hright⟩ :=
        memberLabel_bracketed max (sharing (addresses.map (partsOf q fs deviceName)) p'.bare) p'
      exact Or.inr (Or.inr (bracketed_names (hleft.symm.trans (hlabel.trans hright)) hbare))

/-- Logs with one label agree in all that labels are built from, or a path run of their group is elided. -/
def Told (q : QUrl) (fs : FileSystem) (addresses : List Text) (max : ℤ)
    (deviceName : Option (RemoteLocation→Text)) : Prop :=
  ∀(i j : ℕ) (a b : Text),addresses[i]?=some a→addresses[j]?=some b→
    (tabLabelsFor q fs addresses max deviceName)[i]?=(tabLabelsFor q fs addresses max deviceName)[j]? → 
    let p := partsOf q fs deviceName a
    let p' := partsOf q fs deviceName b
    let group := sharing (addresses.map (partsOf q fs deviceName)) p.bare
    (p.bare=p'.bare ∧ p.device=p'.device ∧ p.container=p'.container ∧ pathRun group p=pathRun group p') ∨
      ∃m∈group,elideMiddle (pathRun group m) max≠pathRun group m

/-- A name may hold the brackets of another; and a device that reads as the directory of a second log hides what
tells that log from a third. -/
theorem tabLabelsFor_merged :
    ¬Told plainUrl plainFiles [latin1 "/app.log (x)",latin1 "serial://x/app.log"] kMaxTabQualifierChars none ∧
      ¬Told plainUrl plainFiles [latin1 "serial://x/app.log",latin1 "/x/app.log",latin1 "/y/app.log"]
        kMaxTabQualifierChars none := by
  constructor
  · intro h
    have hsame := h 0 1 _ _ rfl rfl (by decide +kernel)
    revert hsame
    decide +kernel
  · intro h
    have hsame := h 1 2 _ _ rfl rfl (by decide +kernel)
    revert hsame
    decide +kernel

/-- Two logs keep their labels when they change places. -/
theorem tabLabelsFor_swapped :
    (tabLabelsFor plainUrl plainFiles [latin1 "/a/app.log",latin1 "/b/app.log"] kMaxTabQualifierChars none)[0]?=
      (tabLabelsFor plainUrl plainFiles [latin1 "/b/app.log",latin1 "/a/app.log"] kMaxTabQualifierChars none)[1]? :=
  (tabLabelsFor_tells plainUrl plainFiles [latin1 "/a/app.log",latin1 "/b/app.log"] kMaxTabQualifierChars none).1 _
    (List.Perm.swap _ _ _) 0 1 _ rfl rfl

end TabLabels

end Loftail
