import Loftail.ArchiveCuts

/-! # The split of a remote address -/
namespace Loftail
open QString RemoteLocation ArchiveLocation

/-- What a path alone is cut into: the path of the container, and the member. -/
def splitPath (q : QUrl) (tr : Transport) (rawPath : Text) : Option (Text×Text) :=
  (archiveCut rawPath).bind fun cut => (pathOf q tr (rawPath.take cut)).bind fun path =>
    if !isContainerName path && !isSingleStreamName path then none else some (path,rawPath.drop (cut+1))

/-- Something before the path of an address has an archive extension and takes the cut: the device id. -/
def cutsBeforePath : Transport→Text→Bool
  | .discovered,head => isArchiveComponent (((head.drop kDiscoverScheme.length).dropWhile (·≠slash)).drop 1)
  | .serial,_ | .telnet,_ | .ssh,_ => false

section Splits
variable {q : QUrl} {fs : FileSystem} {tr : Transport} {loc : RemoteLocation} {s head x p r m path : Text} {k : ℕ}

theorem isRemote_of_parse (h : parse q s=some loc) : isRemote s := by
  unfold parse at h
  split at h
  case isTrue => cases h
  case isFalse hs => simpa using hs

theorem isRemote_of_head (h : HeadOf tr head) {t : Text} : isRemote (head++t) := by
  cases h with
  | serial hfold => rw [List.append_assoc,(schemes hfold (by decide)).2.2.2]; decide
  | discovered hfold => rw [List.append_assoc,(schemes hfold (by decide)).2.2.2]; decide
  | telnet hfold => rw [List.append_assoc,(schemes hfold (by decide)).2.2.2]; decide
  | ssh hfold =>
    rcases hfold with hfold|hfold
    · rw [List.append_assoc,(schemes hfold (by decide)).2.2.2]; decide
    · rw [List.append_assoc,(schemes hfold (by decide)).2.2.2]; decide

theorem remotePathStart_eq {h a t : Text} (hcolon : 0x3A∉h) (ha : slash∉a) :
    remotePathStart (h++latin1 "://"++(a++slash::t))=some (h++latin1 "://"++a).length := by
  have hlen : (h++latin1 "://").length=h.length+3 := by simp [latin1]
  have hsum : (h++latin1 "://"++a).length=(h++latin1 "://").length+a.length := List.length_append
  rw [remotePathStart,indexOf_scheme hcolon,Option.bind_some,← hlen,List.drop_left,indexOf_append ha,
    Option.map_some,hsum]

theorem ends_slash {a : Text} (h : ∀u∈a,endsAuthority u=false) : slash∉a :=
  fun hm => absurd (h slash hm) (by decide)

/-- The path begins right after the head, but for a discovered address: after its type. -/
theorem remotePathStart_head (h : HeadOf tr head) (htr : tr≠.discovered) :
    remotePathStart (head++slash::x)=some head.length := by
  cases h with
  | serial hfold hslash =>
    rw [List.append_assoc]
    exact remotePathStart_eq (colon_of_fold hfold (by decide)) hslash
  | discovered => exact absurd rfl htr
  | telnet hfold hends =>
    rw [List.append_assoc]
    exact remotePathStart_eq (colon_of_fold hfold (by decide)) (ends_slash hends)
  | ssh hfold hends =>
    rw [List.append_assoc]
    have hcolon : ∀h : Text,(h.map foldCase=latin1 "ssh" ∨ h.map foldCase=latin1 "sftp") → 0x3A∉h := by
      rintro h (hfold|hfold) <;> exact colon_of_fold hfold (by decide)
    exact remotePathStart_eq (hcolon _ hfold) (ends_slash hends)

/-- The cut of an accepted address, told from its head and its path. -/
theorem split_eq (h : Accepted q s loc head x) :
    split q fs s=if cutsBeforePath loc.transport head then none else
      (archiveCut (slash::x)).bind fun cut => (parse q (head++(slash::x).take cut)).bind fun url =>
        if !isContainerName url.path && !isSingleStreamName url.path then none
        else some ⟨url.toString q,(slash::x).drop (cut+1)⟩ := by
  have hparse := h.parse
  have hremote := isRemote_of_parse hparse
  have hhead := h.headOf
  obtain rfl := h.spelled
  have hne : (head++slash::x).isEmpty=false := by simp
  rw [split,hne,hremote,hparse]
  simp only [Bool.false_eq_true,if_false,if_true,Option.bind_some]
  by_cases htr : loc.transport=.discovered
  · rw [htr] at hhead ⊢
    clear h hparse hremote hne htr
    cases hhead with
    | @discovered h type id hfold htype hid =>
      have hassoc : h++latin1 "://"++(type++slash::id)++slash::x=(h++latin1 "://"++type)++
        slash::(id++slash::x) := by simp
      have hassoc' : h++latin1 "://"++(type++slash::id)=(h++latin1 "://"++type)++slash::id := by simp
      have hstart : remotePathStart ((h++latin1 "://"++type)++slash::(id++slash::x))=some
        (h++latin1 "://"++type).length := by
        rw [List.append_assoc]
        exact remotePathStart_eq (colon_of_fold hfold (by decide)) htype
      have hlen : kDiscoverScheme.length=h.length+3 := by rw [length_of_fold hfold]; decide
      have hid' : cutsBeforePath .discovered (h++latin1 "://"++(type++slash::id))=isArchiveComponent id := by
        rw [cutsBeforePath,drop_scheme hlen,dropWhile_slash htype]
        rfl
      rw [hid',hassoc,hstart,Option.bind_some,List.drop_left,archiveCut_component hid]
      split
      case isTrue =>
        have htake : ((h++latin1 "://"++type)++slash::(id++slash::x)).take
          ((h++latin1 "://"++type).length+(id.length+1))=
            h++latin1 "://"++(type++slash::id) := by
          rw [← hassoc,List.take_left' (by simp; omega)]
        rw [Option.bind_some,htake,discovered_pathless hfold htype hid,Option.bind_none]
      case isFalse =>
        rw [Option.bind_map]
        congr 1
        funext cut
        have htake : ((h++latin1 "://"++type)++slash::(id++slash::x)).take
            ((h++latin1 "://"++type).length+(cut+(id.length+1)))=h++latin1 "://"++(type++slash::id)++
              (slash::x).take cut := by
          have hsum : (h++latin1 "://"++type).length+(cut+(id.length+1))=
            (h++latin1 "://"++(type++slash::id)).length+cut := by
            simp
            omega
          rw [← hassoc,hsum,List.take_length_add_append]
        have hdrop : (slash::(id++slash::x)).drop (cut+(id.length+1)+1)=(slash::x).drop (cut+1) := by
          have hsum : cut+(id.length+1)+1=(slash::id).length+(cut+1) := by
            simp
            omega
          rw [hsum,← List.cons_append,List.drop_length_add_append]
        simp only [Function.comp_apply,htake,hdrop]
  · have hbefore : cutsBeforePath loc.transport head=false := by
      cases htrans : loc.transport <;> simp_all [cutsBeforePath]
    rw [hbefore,remotePathStart_head hhead htr,Option.bind_some,List.drop_left]
    simp only [Bool.false_eq_true,if_false,List.take_length_add_append]

theorem archiveCut_slash (h : archiveCut (slash::x)=some k) : ∃y,(slash::x).take k=slash::y := by
  obtain ⟨a,r,hs,rfl,-,harchive,-⟩ := archiveCut_cut h
  rw [hs,List.take_left]
  cases a with
  | nil => exact absurd harchive (by decide)
  | cons c a =>
    obtain ⟨rfl,-⟩ := List.cons.inj hs
    exact ⟨a,rfl⟩

/-- An accepted address is split where its path alone is, unless something before the path takes the cut. -/
theorem split_accepted (fs : FileSystem) (h : Accepted q s loc head x) :
    split q fs s=if cutsBeforePath loc.transport head then none else
      (splitPath q loc.transport (slash::x)).map fun cut =>
      ⟨({loc with path := cut.1} : RemoteLocation).toString q,cut.2⟩ := by
  rw [split_eq h]
  split
  case isTrue => rfl
  case isFalse =>
    rw [splitPath]
    cases hcut : archiveCut (slash::x) with
    | none => rfl
    | some cut =>
      obtain ⟨y,hy⟩ := archiveCut_slash hcut
      rw [Option.bind_some,Option.bind_some,hy,parse_head h.headOf,h.names,Option.bind_some]
      cases pathOf q loc.transport (slash::y) with
      | none => rfl
      | some path =>
        simp only [Option.map_some,Option.bind_some]
        split <;> rfl

theorem splitPath_cut (h : splitPath q tr (slash::x)=some (path,m)) :
    ∃y r,slash::x=slash::y++r ∧ pathOf q tr (slash::y)=some path ∧ (r=[] ∧ m=[] ∨ r=slash::m) ∧
      splitPath q tr (slash::y)=some (path,[]) ∧ archiveCut (slash::x)=some (y.length+1) := by
  obtain ⟨cut,hcut,h⟩ := Option.bind_eq_some_iff.mp h
  obtain ⟨y,hy⟩ := archiveCut_slash hcut
  obtain ⟨a,r,hs,rfl,hr,harchive,hagain⟩ := archiveCut_cut hcut
  rw [hs,List.take_left] at hy
  subst hy
  rw [hs,List.take_left] at h
  obtain ⟨p,hp,h⟩ := Option.bind_eq_some_iff.mp h
  split at h
  case isTrue => cases h
  case isFalse hnamed =>
    obtain ⟨rfl,hm⟩ := Prod.mk.inj (Option.some.inj h)
    rw [← List.drop_drop,List.drop_left] at hm
    refine ⟨y,r,hs,hp,?_,?_,hcut⟩
    · rcases hr with rfl|⟨t,rfl⟩
      · exact .inl ⟨rfl,hm.symm⟩
      · exact .inr (congrArg (slash::·) hm)
    · rw [splitPath,hagain,Option.bind_some,List.take_length,hp,Option.bind_some,if_neg hnamed]
      simp

end Splits

/-! ### Addresses with one path -/

/-- The path as it is written in a remote address: what follows the authority, or the two names of a discovered
device. -/
def pathPart (s : Text) : Text :=
  let raw := s.drop ((remotePathStart s).getD s.length)
  if startsWithFolded s kDiscoverScheme then (raw.drop 1).dropWhile (·≠slash) else raw

/-- The device id as it is written in a discovered address. -/
def idPart (s : Text) : Text := ((s.drop ((remotePathStart s).getD s.length)).drop 1).takeWhile (·≠slash)

/-- Two addresses are cut into one container path and one member, or neither is cut. -/
def SplitAlike (q : QUrl) (fs : FileSystem) (a b : Text) : Prop :=
  match split q fs a,split q fs b with
  | none,none => True
  | some x,some y => pathPart x.container=pathPart y.container ∧ x.member=y.member
  | some _,none | none,some _ => False

section Alike
variable {q : QUrl} {fs : FileSystem} {tr : Transport} {la lb : RemoteLocation} {a b head x : Text}

theorem discovered_parts (h : HeadOf .discovered head) :
    pathPart (head++slash::x)=slash::x ∧ isArchiveComponent
    (idPart (head++slash::x))=cutsBeforePath .discovered head := by
  cases h with
  | @discovered h type id hfold htype hid =>
    have hassoc : h++latin1 "://"++(type++slash::id)++slash::x=h++latin1 "://"++(type++slash::(id++slash::x)) :=
      by simp
    have hstart := remotePathStart_eq (t:=id++slash::x) (colon_of_fold hfold (by decide)) htype
    have hscheme := (schemes (t:=type++slash::(id++slash::x)) hfold (by decide)).2.1
    have hdrop : (h++latin1 "://"++(type++slash::(id++slash::x))).drop (h++latin1 "://"++type).length=
        slash::(id++slash::x) := by rw [← List.append_assoc,List.drop_left]
    have hlen : kDiscoverScheme.length=h.length+3 := by rw [length_of_fold hfold]; decide
    rw [hassoc,pathPart,idPart,hstart,hscheme,Option.getD_some,hdrop,cutsBeforePath,drop_scheme hlen,
      dropWhile_slash htype]
    simp only [decide_true,if_true,List.drop_one,List.tail_cons,dropWhile_slash hid,takeWhile_slash hid,and_self]

theorem pathPart_head (h : HeadOf tr head) : pathPart (head++slash::x)=slash::x := by
  by_cases htr : tr=.discovered
  · subst htr
    exact (discovered_parts h).1
  · have hscheme : startsWithFolded (head++slash::x) kDiscoverScheme=false := by
      cases h with
      | serial hfold => rw [List.append_assoc,(schemes hfold (by decide)).2.1]; decide
      | discovered => exact absurd rfl htr
      | telnet hfold => rw [List.append_assoc,(schemes hfold (by decide)).2.1]; decide
      | ssh hfold =>
        rcases hfold with hfold|hfold
        · rw [List.append_assoc,(schemes hfold (by decide)).2.1]; decide
        · rw [List.append_assoc,(schemes hfold (by decide)).2.1]; decide
    rw [pathPart,remotePathStart_head h htr,hscheme,Option.getD_some,List.drop_left]
    rfl

theorem container_path (hq : q.Lawful) (h : Accepted q a la head x) (path : Text) :
    pathPart (({la with path} : RemoteLocation).toString q)=spellOf q la.transport (pathToUrl path) := by
  obtain ⟨hhead,-⟩ := names_again hq h
  obtain ⟨t,ht⟩ := spelled_slash hq la.transport path
  rw [toString_eq]
  simp only [headText_path]
  rw [ht,pathPart_head hhead]

/-- Addresses of one transport with one path are split alike, but for discovered ones: there an archive
extension on one device id alone hides the archive in the path. -/
theorem splitAlike_iff (hq : q.Lawful) (ha : parse q a=some la) (hb : parse q b=some lb)
    (htr : la.transport=lb.transport) (hpath : pathPart a=pathPart b) :
    SplitAlike q fs a b↔la.transport≠.discovered ∨ isArchiveComponent (idPart a)=isArchiveComponent (idPart b) ∨
      splitPath q la.transport (pathPart a)=none := by
  obtain ⟨heada,xa,hacca⟩ := accepted_of_parse hq.isRooted ha
  obtain ⟨headb,xb,haccb⟩ := accepted_of_parse hq.isRooted hb
  have hpa : pathPart a=slash::xa := hacca.spelled▸pathPart_head hacca.headOf
  have hpb : pathPart b=slash::xb := haccb.spelled▸pathPart_head haccb.headOf
  have hx : slash::xa=slash::xb := by rw [← hpa,← hpb,hpath]
  have hida : la.transport=.discovered → isArchiveComponent (idPart a)=cutsBeforePath la.transport heada := by
    intro h
    have hhead := hacca.headOf
    rw [h] at hhead ⊢
    exact hacca.spelled▸(discovered_parts hhead).2
  have hidb : la.transport=.discovered → isArchiveComponent (idPart b)=cutsBeforePath la.transport headb := by
    intro h
    have hhead := haccb.headOf
    rw [← htr,h] at hhead
    rw [h]
    exact haccb.spelled▸(discovered_parts hhead).2
  have hnone : ∀head,la.transport≠.discovered → cutsBeforePath la.transport head=false := by
    intro head h
    cases htrans : la.transport <;> simp_all [cutsBeforePath]
  rw [SplitAlike,split_accepted fs hacca,split_accepted fs haccb,← htr,← hx,hpa]
  cases hcut : splitPath q la.transport (slash::xa) with
  | none => simp
  | some cut =>
    have hsame : pathPart (({la with path := cut.1} : RemoteLocation).toString q)=
        pathPart (({lb with path := cut.1} : RemoteLocation).toString q) := by
      rw [container_path hq hacca,container_path hq haccb,htr]
    rw [← htr] at hsame
    simp only [Option.map_some]
    generalize RemoteLocation.toString q _=ca at hsame ⊢
    generalize RemoteLocation.toString q _=cb at hsame ⊢
    by_cases h : la.transport=.discovered
    · rw [hida h,hidb h]
      cases cutsBeforePath la.transport heada <;> cases cutsBeforePath la.transport headb <;> simp [h,hsame]
    · rw [hnone heada h,hnone headb h]
      simp [h,hsame]

end Alike
end Loftail
