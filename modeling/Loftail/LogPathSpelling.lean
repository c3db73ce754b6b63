import Loftail.ArchiveSplits

/-! # One log, one spelling -/
namespace Loftail
open QString RemoteLocation ArchiveLocation

section Passes
variable {q : QUrl} {fs : FileSystem} {s : Text} {n : ℕ}

/-- Within so many passes nothing moves any more. -/
def Settles (q : QUrl) (fs : FileSystem) : ℕ→Text→Prop
  | 0,s => normalizeLogPathOnce q fs s=s
  | n+1,s => normalizeLogPathOnce q fs s=s ∨ Settles q fs n (normalizeLogPathOnce q fs s)

theorem Settles.of_fixed (h : normalizeLogPathOnce q fs s=s) : Settles q fs n s := by
  cases n with
  | zero => exact h
  | succ n => exact .inl h

theorem Settles.later (h : Settles q fs n s) : Settles q fs (n+1) s := by
  induction n generalizing s with
  | zero => exact .inl h
  | succ n ih =>
    rcases h with h|h
    · exact .inl h
    · exact .inr (ih h)

theorem passes_of_fixed (h : normalizeLogPathOnce q fs s=s) : normalizePasses q fs n s=s := by
  cases n with
  | zero => rfl
  | succ n => rw [normalizePasses,if_pos h]

private theorem passes_settle (h : Settles q fs n s) :
    normalizeLogPathOnce q fs (normalizePasses q fs n s)=normalizePasses q fs n s := by
  induction n generalizing s with
  | zero => exact h
  | succ n ih =>
    rw [normalizePasses]
    split
    case isTrue hs => exact hs
    case isFalse hs => exact ih (h.resolve_left hs)

/-- Where the passes settle, the spelling is final. -/
theorem normalizeLogPath_again (h : Settles q fs (kMaxNormalizePasses-1) (normalizeLogPathOnce q fs s)) :
    normalizeLogPath q fs (normalizeLogPath q fs s)=normalizeLogPath q fs s := by
  have hfixed : normalizeLogPathOnce q fs (normalizeLogPath q fs s)=normalizeLogPath q fs s := passes_settle h
  conv_lhs => rw [normalizeLogPath,hfixed]
  exact passes_of_fixed hfixed

end Passes

/-! ### Remote addresses -/

/-- A normal form: its head and its path are spelled as their own normal forms are. -/
structure NormalForm (q : QUrl) (s : Text) (loc : RemoteLocation) (x : Text) : Prop where
  accepted : Accepted q s loc (headText q loc) x
  path : slash::x=spellOf q loc.transport (pathToUrl loc.path)

section Remote
variable {q : QUrl} {fs : FileSystem} {loc : RemoteLocation} {s t x y p r m head path container member : Text}
  {tr : Transport}

theorem NormalForm.spelled (h : NormalForm q s loc x) : s=loc.toString q :=
    by rw [h.accepted.spelled,h.path,toString_eq]

theorem NormalForm.normalize (h : NormalForm q s loc x) : RemoteLocation.normalize q s=s := by
  rw [RemoteLocation.normalize,h.accepted.parse]
  exact h.spelled.symm

/-- An accepted address whose names read back has a normal form. -/
theorem normalForm_of_accepted (hq : q.Lawful) (h : Accepted q s loc head x)
    (hnames : headNames q loc.transport (headText q loc)=some {loc with path := []}) :
    ∃y,NormalForm q (loc.toString q) loc y := by
  obtain ⟨y,hy⟩ := spelled_slash hq loc.transport loc.path
  obtain ⟨t,ht⟩ := pathToUrl_slash loc.path
  obtain ⟨u,hroot,hu⟩ := pathOf_rooted hq h.path
  have hpath := pathOf_spell hq h.path (List.append_nil _).symm ⟨t,ht.symm⟩ (.inl rfl)
  refine ⟨y,⟨by rw [toString_eq,hy],(names_again hq h).1,hnames,?_⟩,hy.symm⟩
  rw [← hy,hpath,hu,pathToUrl_pathFromUrl hroot]

/-- A path that is spelled is cut where its spelling is cut. -/
theorem spellOf_cut (hq : q.Lawful) {u : Text} (h : spellOf q tr u=p++slash::m) :
    ∃a b,u=a++slash::b ∧ spellOf q tr a=p ∧ spellOf q tr b=m := by
  induction hn : u.length using Nat.strong_induction_on generalizing u p with
  | _ n ih =>
    have hmem : slash∈u := slash_of_spellOf hq (by rw [h]; simp)
    obtain ⟨a,b,rfl,ha⟩ := List.eq_append_cons_of_mem hmem
    have ha' : slash∉spellOf q tr a := fun hs => ha (slash_of_spellOf hq hs)
    rw [spellOf_slash hq] at h
    rcases List.append_eq_append_iff.mp h with ⟨p',rfl,hp'⟩|⟨c,hc,hm⟩
    · cases p' with
      | nil => exact ⟨a,b,rfl,by simp,(List.cons.inj hp').2⟩
      | cons v p' =>
        obtain ⟨rfl,hb⟩ := List.cons.inj hp'
        have hlen : b.length < n := by
          rw [← hn]
          simp
          omega
        obtain ⟨a',b',rfl,hp,hm⟩ := ih b.length hlen hb rfl
        exact ⟨a++slash::a',b',by simp,by rw [spellOf_slash hq,hp],hm⟩
    · cases c with
      | nil => exact ⟨a,b,rfl,by simpa using hc,(List.cons.inj hm).2.symm⟩
      | cons v c =>
        obtain ⟨rfl,-⟩ := List.cons.inj hm
        exact absurd (by rw [hc]; simp) ha'

/-- What leads a normal form, cut at a separator of its path, is one too. -/
theorem NormalForm.leading (hq : q.Lawful) (h : NormalForm q s loc x) (hx : slash::x=slash::y++r)
    (hr : r=[] ∨ [slash] <+: r) (hpath : pathOf q loc.transport (slash::y)=some path) :
    NormalForm q (headText q loc++slash::y) {loc with path} y := by
  have haccepted : Accepted q (headText q loc++slash::y) {loc with path} (headText q loc) y :=
    ⟨rfl,h.accepted.headOf,h.accepted.names,hpath⟩
  refine ⟨haccepted,?_⟩
  rcases hr with rfl|⟨m,rfl⟩
  · rw [List.append_nil] at hx
    rw [← hx,h.accepted.path] at hpath
    obtain rfl := Option.some.inj hpath
    rw [← hx]
    exact h.path
  · obtain ⟨a,b,hu,ha,-⟩ := spellOf_cut hq (h.path.symm.trans hx)
    have hroot : [slash] <+: a := by
      obtain ⟨t,ht⟩ := pathToUrl_slash loc.path
      cases a with
      | nil =>
        rw [spellOf_nil hq] at ha
        cases ha
      | cons v a =>
        rw [ht] at hu
        obtain ⟨rfl,-⟩ := List.cons.inj hu
        exact ⟨a,rfl⟩
    have hread := pathOf_spell hq h.accepted.path hu hroot (.inr ⟨b,rfl⟩)
    rw [ha,hpath] at hread
    obtain rfl := Option.some.inj hread
    rw [pathToUrl_pathFromUrl hroot]
    exact ha.symm

theorem archive_toString (h : NormalForm q s loc x) :
    ArchiveLocation.toString q fs ⟨s,m⟩=if !isContainerName s || m.isEmpty then s else s++slash::m := by
  have hne : s.isEmpty=false := by
    rw [h.accepted.spelled]
    simp
  have hremote := isRemote_of_parse h.accepted.parse
  rw [ArchiveLocation.toString,hne]
  simp [hremote,h.normalize,isSingleStream]

theorem once_refused (fs : FileSystem) (hremote : isRemote s) (hparse : parse q s=none) :
    normalizeLogPathOnce q fs s=s := by
  have hsplit : split q fs s=none := by
    rw [split,hremote,hparse]
    simp
  rw [normalizeLogPathOnce,hsplit]
  simp [RemoteLocation.normalize,hparse]

/-- A normal form that ends where it is cut does not move. -/
theorem once_container (h : NormalForm q s loc x) (hcut : splitPath q loc.transport (slash::x)=some (loc.path,[])) :
    normalizeLogPathOnce q fs s=s := by
  rw [normalizeLogPathOnce,split_accepted fs h.accepted,hcut]
  split
  case h_1 at' hat =>
    split at hat
    case isTrue => cases hat
    case isFalse =>
      obtain rfl := Option.some.inj hat
      have hspelled : ({loc with path := loc.path} : RemoteLocation).toString q=s := h.spelled.symm
      simp only [hspelled]
      rw [archive_toString h]
      simp
  case h_2 => exact h.normalize

/-- What a pass makes of an address that is cut inside a normal form. -/
theorem once_cut (hq : q.Lawful) (h : NormalForm q s loc x) (hx : slash::x=slash::y++r) (hr : r=[] ∨ [slash] <+: r)
    (hpath : pathOf q loc.transport (slash::y)=some path)
    (hsplit : split q fs t=some ⟨({loc with path} : RemoteLocation).toString q,m⟩)
    (hcut : splitPath q loc.transport (slash::y)=some (path,[]))
    (ht : m=[] ∨ t=headText q loc++slash::y++slash::m) : Settles q fs 1 t := by
  have hlead := h.leading hq hx hr hpath
  have hfixed : normalizeLogPathOnce q fs (headText q loc++slash::y)=headText q loc++slash::y :=
    once_container hlead hcut
  rw [← hlead.spelled] at hsplit
  have hone : normalizeLogPathOnce q fs t=
      if !isContainerName (headText q loc++slash::y) || m.isEmpty then headText q loc++slash::y
      else headText q loc++slash::y++slash::m := by
    rw [normalizeLogPathOnce,hsplit]
    exact archive_toString hlead
  split at hone
  case isTrue => exact .inr (by rw [hone]; exact hfixed)
  case isFalse hm =>
    refine .inl ?_
    rcases ht with rfl|ht
    · simp at hm
    · rw [hone,ht]

theorem settles_normal (hq : q.Lawful) (h : NormalForm q s loc x) : Settles q fs 1 s := by
  have hsplit := split_accepted fs h.accepted
  cases hs : split q fs s with
  | none =>
    apply Settles.of_fixed
    rw [normalizeLogPathOnce,hs]
    exact h.normalize
  | some at' =>
    rw [hs] at hsplit
    split at hsplit
    case isTrue => cases hsplit
    case isFalse =>
      obtain ⟨⟨path,m⟩,hcut,rfl⟩ := Option.map_eq_some_iff.mp hsplit.symm
      obtain ⟨y,r,hx,hpath,hm,hagain,-⟩ := splitPath_cut hcut
      refine once_cut hq h hx ?_ hpath hs hagain ?_
      · rcases hm with ⟨rfl,-⟩|rfl
        · exact .inl rfl
        · exact .inr ⟨m,rfl⟩
      · rcases hm with ⟨-,rfl⟩|rfl
        · exact .inl rfl
        · refine .inr ?_
          rw [h.accepted.spelled,hx,List.append_assoc]

private theorem archive_of_container (h : isContainerName s) : isArchiveComponent (lastComponent s) := by
  rw [isArchiveComponent]
  exact Bool.or_eq_true_iff.mpr (.inl h)

/-- A member behind a normal form is behind every cut that the normal form has. -/
theorem settles_member (hq : q.Lawful) (h : NormalForm q s loc x) (hname : isContainerName s) :
    Settles q fs 2 (s++slash::m) := by
  have hspelled : s++slash::m=headText q loc++slash::(x++slash::m) := by
    rw [h.accepted.spelled]
    simp
  have hremote : isRemote (s++slash::m) := by
    rw [hspelled]
    exact isRemote_of_head h.accepted.headOf
  cases hparse : parse q (s++slash::m) with
  | none => exact .of_fixed (once_refused fs hremote hparse)
  | some whole =>
    obtain ⟨path,hpath,hwhole⟩ : ∃path,pathOf q loc.transport (slash::(x++slash::m))=some path ∧
      {loc with path}=whole := by
      rw [hspelled,parse_head h.accepted.headOf,h.accepted.names,Option.bind_some] at hparse
      exact Option.map_eq_some_iff.mp hparse
    have haccepted : Accepted q (s++slash::m) {loc with path} (headText q loc) (x++slash::m) :=
      ⟨hspelled,h.accepted.headOf,h.accepted.names,hpath⟩
    have hsplit := split_accepted fs haccepted
    cases hs : split q fs (s++slash::m) with
    | none =>
      obtain ⟨y,hnormal⟩ := normalForm_of_accepted hq haccepted h.accepted.names
      have hone : normalizeLogPathOnce q fs (s++slash::m)=({loc with path} : RemoteLocation).toString q := by
        rw [normalizeLogPathOnce,hs]
        simp [RemoteLocation.normalize,haccepted.parse]
      exact .inr (by rw [hone]; exact settles_normal hq hnormal)
    | some at' =>
      rw [hs] at hsplit
      split at hsplit
      case isTrue => cases hsplit
      case isFalse =>
        obtain ⟨⟨path',m'⟩,hcut,rfl⟩ := Option.map_eq_some_iff.mp hsplit.symm
        obtain ⟨y,r,hx,hpath',hm,hagain,hlen⟩ := splitPath_cut hcut
        have hlast : isArchiveComponent (lastComponent (slash::x)) := by
          have hafter : lastComponent (headText q loc++slash::x)=lastComponent (slash::x) :=
            lastComponent_after ⟨x,rfl⟩
          rw [← hafter,← h.accepted.spelled]
          exact archive_of_container hname
        obtain ⟨k,hk,hle⟩ := archiveCut_le (t:=slash::m) hlast (.inr ⟨m,rfl⟩)
        rw [List.cons_append,hlen] at hk
        obtain rfl := Option.some.inj hk
        have hr : r=[] ∨ [slash] <+: r := by
          rcases hm with ⟨rfl,-⟩|rfl
          · exact .inl rfl
          · exact .inr ⟨m',rfl⟩
        -- the cut is in the normal form, so what follows it ends in the member
        obtain ⟨r',hx',hr'⟩ : ∃r',slash::x=slash::y++r' ∧ r=r'++slash::m := by
          rw [← List.cons_append] at hx
          rcases List.append_eq_append_iff.mp hx with ⟨a,ha,hm⟩|⟨c,hc,hr⟩
          · have hnil : a=[] := by
              have hlen' := congrArg List.length ha
              simp only [List.length_append,List.length_cons] at hlen' hle
              exact List.eq_nil_of_length_eq_zero (by omega)
            subst hnil
            exact ⟨[],by simpa using ha.symm,by simpa using hm.symm⟩
          · exact ⟨c,hc,hr⟩
        have hr'' : r'=[] ∨ [slash] <+: r' := by
          cases r' with
          | nil => exact .inl rfl
          | cons v r' =>
            rcases hr with rfl|⟨z,rfl⟩
            · simp at hr'
            · obtain ⟨rfl,-⟩ := List.cons.inj hr'
              exact .inr ⟨r',rfl⟩
        refine (once_cut hq h hx' hr'' hpath' hs hagain ?_).later
        rcases hm with ⟨-,rfl⟩|rfl
        · exact .inl rfl
        · refine .inr ?_
          rw [hspelled,hx,List.append_assoc]

/-- A remote address settles, where the names in it read back. -/
theorem settles_remote (hq : q.Lawful) (hremote : isRemote s)
    (hmarks : (parse q s).isSome → ∀raw∈rawNames s,¬MarkedTwice raw) : Settles q fs 3
    (normalizeLogPathOnce q fs s) := by
  cases hparse : parse q s with
  | none =>
    have hfixed := once_refused fs hremote hparse
    exact .of_fixed (by rw [hfixed,hfixed])
  | some loc =>
    obtain ⟨head,x,haccepted⟩ := accepted_of_parse hq.isRooted hparse
    have hnames := (names_again hq haccepted).2.mpr (rawNames_eq haccepted▸hmarks (by rw [hparse]; rfl))
    have hsplit := split_accepted fs haccepted
    cases hs : split q fs s with
    | none =>
      obtain ⟨y,hnormal⟩ := normalForm_of_accepted hq haccepted hnames
      have hone : normalizeLogPathOnce q fs s=loc.toString q := by
        rw [normalizeLogPathOnce,hs]
        simp [RemoteLocation.normalize,hparse]
      rw [hone]
      exact (settles_normal hq hnormal).later.later
    | some at' =>
      rw [hs] at hsplit
      split at hsplit
      case isTrue => cases hsplit
      case isFalse =>
        obtain ⟨⟨path,m⟩,hcut,rfl⟩ := Option.map_eq_some_iff.mp hsplit.symm
        obtain ⟨y,r,-,hpath,-,-,-⟩ := splitPath_cut hcut
        have hcontainer : Accepted q (head++slash::y) {loc with path} head y :=
          ⟨rfl,haccepted.headOf,haccepted.names,hpath⟩
        obtain ⟨z,hnormal⟩ := normalForm_of_accepted hq hcontainer hnames
        have hone : normalizeLogPathOnce q fs s=if !isContainerName
          (({loc with path} : RemoteLocation).toString q) || m.isEmpty
            then ({loc with path} : RemoteLocation).toString q
            else ({loc with path} : RemoteLocation).toString q++slash::m := by
          rw [normalizeLogPathOnce,hs]
          exact archive_toString hnormal
        rw [hone]
        split
        case isTrue => exact (settles_normal hq hnormal).later.later
        case isFalse hname =>
          refine (settles_member hq hnormal ?_).later
          simp only [Bool.or_eq_true,Bool.not_eq_true',not_or,Bool.not_eq_false] at hname
          exact hname.1

end Remote

/-! ### Local addresses -/

/-- A path whose last component has an archive extension. -/
def ArchivePath (s : Text) : Prop := isArchiveComponent (lastComponent s)

/-- What the file system promises: a cleaned absolute path is a fixed point and is absolute, a component with an
archive extension is kept at its end, and what leads a path that cleaning moved is clean as well. -/
structure FileSystem.Lawful (fs : FileSystem) : Prop where
  fixed (p : Text) : absoluteLocalPath fs (absoluteLocalPath fs p)=absoluteLocalPath fs p
  rooted {p : Text} : ArchivePath p → holdsNul p=false → ∃u t,absoluteLocalPath fs p=u::t ∧ (u=slash ∨ u=0x3A)
  kept {p : Text} : ArchivePath p → holdsNul p=false → lastComponent (absoluteLocalPath fs p)=lastComponent p
  leading {p a b : Text} : absoluteLocalPath fs p≠p → absoluteLocalPath fs p=a++slash::b → ArchivePath a →
    absoluteLocalPath fs a=a

section Local
variable {q : QUrl} {fs : FileSystem} {s t a b c m p r : Text} {k : ℕ}

private theorem isRemote_append (h : isRemote a) : isRemote (a++b) := by
  have hone : ∀word,startsWithFolded a word → startsWithFolded (a++b) word := by
    intro word hw
    rw [startsWithFolded_iff] at hw ⊢
    rw [List.map_append]
    exact hw.trans (List.prefix_append _ _)
  simp only [isRemote,Bool.or_eq_true] at h ⊢
  rcases h with (((h|h)|h)|h)|h
  · exact .inl (.inl (.inl (.inl (hone _ h))))
  · exact .inl (.inl (.inl (.inr (hone _ h))))
  · exact .inl (.inl (.inr (hone _ h)))
  · exact .inl (.inr (hone _ h))
  · exact .inr (hone _ h)

theorem local_leading (h : isRemote (a++b)=false) : isRemote a=false := by
  by_contra ha
  rw [isRemote_append (by simpa using ha)] at h
  cases h

theorem local_rooted {u : UInt16} (hu : u=slash ∨ u=0x3A) : isRemote (u::t)=false := by
  have hone : ∀v word,(v=0x73 ∨ v=0x74 ∨ v=0x64) → startsWithFolded (u::t) (v::word)=false := by
    intro v word hv
    have hne : v≠foldCase u := by
      rcases hu with rfl|rfl <;> rcases hv with rfl|rfl|rfl <;> decide
    simp [startsWithFolded,List.isPrefixOf,hne]
  have hssh : latin1 "ssh://"=0x73::latin1 "sh://" := by decide
  have hsftp : latin1 "sftp://"=0x73::latin1 "ftp://" := by decide
  have hserial : kSerialScheme=0x73::latin1 "erial://" := by decide
  have htelnet : kTelnetScheme=0x74::latin1 "elnet://" := by decide
  have hdiscover : kDiscoverScheme=0x64::latin1 "iscover://" := by decide
  rw [isRemote,hssh,hsftp,hserial,htelnet,hdiscover,hone _ _ (.inl rfl),hone _ _ (.inl rfl),hone _ _ (.inl rfl),
    hone _ _ (.inr (.inl rfl)),hone _ _ (.inr (.inr rfl))]
  rfl

private theorem normalize_local (h : isRemote s=false) : RemoteLocation.normalize q s=s := by
  simp [RemoteLocation.normalize,RemoteLocation.parse,h]

theorem once_whole (h : isRemote s=false) (hs : split q fs s=none) : normalizeLogPathOnce q fs s=s := by
  rw [normalizeLogPathOnce,hs]
  exact normalize_local h

theorem archivePath_ne_nil (h : ArchivePath s) : s≠[] := by
  rintro rfl
  exact absurd h (by unfold ArchivePath; decide)

private theorem archivePath_iff : ArchivePath s↔isContainerName s || isSingleStreamName s := by
  unfold ArchivePath isArchiveComponent isContainerName isSingleStreamName
  cases endsWithAny (lastComponent s) kContainerSuffixes <;> simp

theorem local_toString (hne : c≠[]) (h : isRemote c=false) :
    ArchiveLocation.toString q fs ⟨c,m⟩=
      if !isContainerName c || m.isEmpty then absoluteLocalPath fs c else absoluteLocalPath fs c++slash::m := by
  have hempty : c.isEmpty=false := by simpa using hne
  simp [ArchiveLocation.toString,hempty,h,isSingleStream,fromNativeSeparators]

/-- One pass over a file that is there. -/
theorem once_file (h : isRemote s=false) (hfile : fs.isFile s) :
    normalizeLogPathOnce q fs s=s ∨ ArchivePath s ∧ normalizeLogPathOnce q fs s=absoluteLocalPath fs s := by
  cases s with
  | nil => exact .inl (once_whole h rfl)
  | cons u s =>
    have hsplit : split q fs (u::s)=if isContainerName (u::s) || isSingleStreamName (u::s) then some
      ⟨u::s,[]⟩ else none := by
      simp [split,h,fromNativeSeparators,hfile]
    split at hsplit
    case isTrue hname =>
      refine .inr ⟨archivePath_iff.mpr hname,?_⟩
      rw [normalizeLogPathOnce,hsplit]
      exact (local_toString (by simp) h).trans (by simp)
    case isFalse => exact .inl (once_whole h hsplit)

/-- One pass over what is not a file: the container is made absolute and clean. -/
theorem once_path (h : isRemote s=false) (hfile : fs.isFile s=false) :
    normalizeLogPathOnce q fs s=s ∨
    ∃c r,s=c++r ∧ (r=[] ∨ [slash] <+: r) ∧ archiveCut s=some c.length ∧ ArchivePath c ∧ archiveCut c=some c.length ∧
      (normalizeLogPathOnce q fs s=absoluteLocalPath fs c ∨
        ∃m,r=slash::m ∧ normalizeLogPathOnce q fs s=absoluteLocalPath fs c++slash::m) := by
  cases s with
  | nil => exact .inl (once_whole h rfl)
  | cons u s =>
    have hsplit : split q fs (u::s)=
        (archiveCut (u::s)).map fun cut => ⟨(u::s).take cut,(u::s).drop (cut+1)⟩ := by
      simp [split,h,fromNativeSeparators,hfile]
    cases hcut : archiveCut (u::s) with
    | none => exact .inl (once_whole h (by rw [hsplit,hcut]; rfl))
    | some k =>
      obtain ⟨c,r,hs,rfl,hr,harchive,hagain⟩ := archiveCut_cut hcut
      rw [hcut,hs] at hsplit
      simp only [Option.map_some,List.take_left,← List.drop_drop,List.drop_left] at hsplit
      rw [hs] at h
      have hone : ArchiveLocation.toString q fs ⟨c,r.drop 1⟩=
          if !isContainerName c || (r.drop 1).isEmpty then absoluteLocalPath fs c
          else absoluteLocalPath fs c++slash::r.drop 1 :=
        local_toString (archivePath_ne_nil harchive) (local_leading h)
      refine .inr ⟨c,r,hs,hr,rfl,harchive,hagain,?_⟩
      rw [hs,normalizeLogPathOnce,hsplit]
      simp only
      rw [hone]
      split
      case isTrue => exact .inl rfl
      case isFalse hm =>
        rcases hr with rfl|⟨m,rfl⟩
        · simp at hm
        · exact .inr ⟨m,rfl,rfl⟩

/-- A clean container with nothing behind it does not move. -/
theorem once_clean (h : isRemote c=false) (hclean : absoluteLocalPath fs c=c) (hcut : archiveCut c=some c.length) :
    normalizeLogPathOnce q fs c=c := by
  cases hfile : fs.isFile c with
  | true =>
    rcases once_file (q:=q) h hfile with hone|⟨-,hone⟩
    · exact hone
    · rw [hone,hclean]
  | false =>
    rcases once_path (q:=q) h hfile with hone|⟨c',r,hs,-,hcut',-,-,hone⟩
    · exact hone
    · rw [hcut] at hcut'
      have hlen := congrArg List.length hs
      rw [List.length_append,Option.some.inj hcut'] at hlen
      obtain rfl : r=[] := List.eq_nil_of_length_eq_zero (by omega)
      obtain rfl : c=c' := by simpa using hs
      rcases hone with hone|⟨m,hm,-⟩
      · rw [hone,hclean]
      · cases hm

/-- What cleaning moved settles at once, with a member behind it or not. -/
theorem settles_moved (hfs : fs.Lawful) (harchive : ArchivePath c) (hmoved : absoluteLocalPath fs c≠c)
    (ht : t=absoluteLocalPath fs c++r) (hr : r=[] ∨ [slash] <+: r) (hfile : fs.isFile t=false) :
    Settles q fs 1 t := by
  have hnul : holdsNul c=false := by
    by_contra hn
    exact hmoved (by rw [absoluteLocalPath,if_pos (by simpa using hn)])
  obtain ⟨u,v,huv,hu⟩ := hfs.rooted harchive hnul
  have hlocal : isRemote t=false := by
    rw [ht,huv,List.cons_append]
    exact local_rooted hu
  have hlast : isArchiveComponent (lastComponent (absoluteLocalPath fs c)) := by
    rw [hfs.kept harchive hnul]
    exact harchive
  rcases once_path (q:=q) hlocal hfile with hone|⟨a,r',hs,hr',hcut,harchive',hagain,hone⟩
  · exact .inl hone
  · obtain ⟨k,hk,hle⟩ := archiveCut_le hlast hr
    rw [← ht,hcut] at hk
    obtain rfl := Option.some.inj hk
    have hclean : absoluteLocalPath fs a=a := by
      rw [ht] at hs
      rcases List.append_eq_append_iff.mp hs with ⟨x,ha,-⟩|⟨x,hc,hx⟩
      · have hnil : x=[] := by
          have hlen := congrArg List.length ha
          rw [List.length_append] at hlen
          exact List.eq_nil_of_length_eq_zero (by omega)
        rw [ha,hnil,List.append_nil]
        exact hfs.fixed c
      · cases x with
        | nil =>
          rw [List.append_nil] at hc
          rw [← hc]
          exact hfs.fixed c
        | cons w x =>
          rcases hr' with rfl|⟨z,rfl⟩
          · cases hx
          · obtain ⟨rfl,-⟩ := List.cons.inj hx
            exact hfs.leading hmoved hc harchive'
    have hlocal' : isRemote a=false := local_leading (hs▸hlocal)
    rcases hone with hone|⟨m,rfl,hone⟩
    · rw [hclean] at hone
      exact .inr (by rw [hone]; exact once_clean hlocal' hclean hagain)
    · rw [hclean,← hs] at hone
      exact .inl hone

theorem moved_local (hfs : fs.Lawful) (harchive : ArchivePath c) (hmoved : absoluteLocalPath fs c≠c) :
    isRemote (absoluteLocalPath fs c++r)=false := by
  have hnul : holdsNul c=false := by
    by_contra hn
    exact hmoved (by rw [absoluteLocalPath,if_pos (by simpa using hn)])
  obtain ⟨u,v,huv,hu⟩ := hfs.rooted harchive hnul
  rw [huv,List.cons_append]
  exact local_rooted hu

theorem settles_clean (hfs : fs.Lawful) (harchive : ArchivePath c) :
    Settles q fs 1 (absoluteLocalPath fs c) ∨ absoluteLocalPath fs c=c := by
  by_cases hmoved : absoluteLocalPath fs c=c
  · exact .inr hmoved
  · refine .inl ?_
    have hlocal : isRemote (absoluteLocalPath fs c)=false := by
      have h := moved_local (r:=[]) hfs harchive hmoved
      rwa [List.append_nil] at h
    cases hfile : fs.isFile (absoluteLocalPath fs c) with
    | true =>
      apply Settles.of_fixed
      rcases once_file (q:=q) hlocal hfile with hone|⟨-,hone⟩
      · exact hone
      · rw [hone,hfs.fixed]
    | false => exact settles_moved hfs harchive hmoved (List.append_nil _).symm (.inl rfl) hfile

/-- A cleaned container with a member behind it settles; a file that is there is cleaned as a whole. -/
theorem settles_behind (hfs : fs.Lawful) (harchive : ArchivePath c) (hmoved : absoluteLocalPath fs c≠c) :
    Settles q fs 2 (absoluteLocalPath fs c++slash::m) := by
  have hlocal := moved_local (r:=slash::m) hfs harchive hmoved
  cases hfile : fs.isFile (absoluteLocalPath fs c++slash::m) with
  | true =>
    rcases once_file (q:=q) hlocal hfile with hone|⟨harchive',hone⟩
    · exact .of_fixed hone
    · rcases settles_clean (q:=q) hfs harchive' with h|h
      · exact .inr (by rw [hone]; exact h)
      · exact .of_fixed (by rw [hone,h])
  | false => exact (settles_moved hfs harchive hmoved rfl (.inr ⟨m,rfl⟩) hfile).later

private theorem settles_local (hfs : fs.Lawful) (h : isRemote s=false) : Settles q fs 3
    (normalizeLogPathOnce q fs s) := by
  cases hfile : fs.isFile s with
  | true =>
    rcases once_file (q:=q) h hfile with hone|⟨harchive,hone⟩
    · exact .of_fixed (by rw [hone,hone])
    · rcases settles_clean (q:=q) hfs harchive with hs|hs
      · rw [hone]
        exact hs.later.later
      · exact .of_fixed (by rw [hone,hs,hone,hs])
  | false =>
    rcases once_path (q:=q) h hfile with hone|⟨c,r,hs,-,-,harchive,hagain,hone⟩
    · exact .of_fixed (by rw [hone,hone])
    · by_cases hmoved : absoluteLocalPath fs c=c
      · rcases hone with hone|⟨m,rfl,hone⟩
        · have hfixed := once_clean (q:=q) (local_leading (hs▸h)) hmoved hagain
          rw [hone,hmoved]
          exact .of_fixed hfixed
        · rw [hmoved,← hs] at hone
          exact .of_fixed (by rw [hone,hone])
      · rcases hone with hone|⟨m,-,hone⟩
        · rw [hone]
          exact ((settles_clean hfs harchive).resolve_right hmoved).later.later
        · rw [hone]
          exact (settles_behind hfs harchive hmoved).later

/-- Normalizing is final, where no name in an accepted address is marked twice. -/
theorem normalizeLogPath_idempotent (hq : q.Lawful) (hfs : fs.Lawful)
    (hmarks : (RemoteLocation.parse q s).isSome → ∀raw∈rawNames s,¬MarkedTwice raw) :
    normalizeLogPath q fs (normalizeLogPath q fs s)=normalizeLogPath q fs s := by
  apply normalizeLogPath_again
  cases hremote : isRemote s with
  | true => exact settles_remote hq hremote hmarks
  | false => exact settles_local hfs hremote

end Local

/-- **One log, one spelling**, told exactly. Normalizing is idempotent and an address of a serial line or of a
discovered device reads back from its normal form, for each address, where the names in it are not marked twice.
Two addresses of one transport with one path are split alike unless they are discovered and an archive extension
is on one device id alone. -/
theorem one_log_one_spelling (q : QUrl) (fs : FileSystem) (hq : q.Lawful) (hfs : fs.Lawful) :
    (∀s : Text,
      (normalizeLogPath q fs (normalizeLogPath q fs s)=normalizeLogPath q fs s ∧
        ∀loc,RemoteLocation.parse q s=some loc → loc.transport=.serial ∨ loc.transport=.discovered →
          RemoteLocation.parse q (loc.toString q)=some loc)↔
      ((RemoteLocation.parse q s).isSome → ∀raw∈rawNames s,¬MarkedTwice raw)) ∧
    ∀(a b : Text) (la lb : RemoteLocation),RemoteLocation.parse q a=some la → RemoteLocation.parse q b=some lb →
      la.transport=lb.transport → pathPart a=pathPart b →
      (SplitAlike q fs a b↔la.transport≠.discovered ∨ isArchiveComponent (idPart a)=isArchiveComponent (idPart b) ∨
        splitPath q la.transport (pathPart a)=none) := by
  refine ⟨?_,fun a b la lb ha hb htr hpath => splitAlike_iff hq ha hb htr hpath⟩
  intro s
  constructor
  · rintro ⟨-,hback⟩ hsome
    obtain ⟨loc,hparse⟩ := Option.isSome_iff_exists.mp hsome
    obtain ⟨head,x,haccepted⟩ := accepted_of_parse hq.isRooted hparse
    by_cases htr : loc.transport=.serial ∨ loc.transport=.discovered
    · exact (parse_toString_iff hq haccepted).mp (hback loc hparse htr)
    · rw [rawNames_eq haccepted]
      cases htrans : loc.transport <;> simp_all [headRaw]
  · intro hmarks
    refine ⟨normalizeLogPath_idempotent hq hfs hmarks,?_⟩
    intro loc hparse htr
    obtain ⟨head,x,haccepted⟩ := accepted_of_parse hq.isRooted hparse
    exact (parse_toString_iff hq haccepted).mpr (hmarks (by rw [hparse]; rfl))

/-! ### One host, and one working directory -/

/-- The host `h` on port 22, with paths of letters, digits and dots. -/
def plainUrl : QUrl where
  readHead head := if head=latin1 "ssh://h:22" ∨
    head=latin1 "telnet://h:22" then some ⟨[],latin1 "h",some 22⟩ else none
  readPath path :=
    if [slash] <+: path ∧ path.all (fun u => u=slash || u=0x2E || (0x61≤u && u≤0x7A) || (0x30≤u && u≤0x39)) then
      some path
    else none
  spellHead scheme _ := scheme++latin1 "://"++latin1 "h:22"
  spellPath path := path

/-- No file is there yet, and paths are relative to `/w`. -/
def plainFiles : FileSystem where
  isFile _ := false
  absoluteFilePath path := if [slash] <+: path then path else latin1 "/w"++slash::path
  cleanPath path := path
  isAbsolutePath path := [slash].isPrefixOf path

theorem plainUrl_lawful : plainUrl.Lawful where
  rooted {t p u} h := by
    simp only [plainUrl,Option.ite_none_right_eq_some,Option.some.injEq] at h
    obtain ⟨⟨⟨x,hx⟩,-⟩,rfl⟩ := h
    obtain ⟨rfl,-⟩ := List.cons.inj hx
    exact ⟨rfl,p,rfl⟩
  head_shape {head url port scheme} _ _ _ _ _ _ := ⟨latin1 "h:22",rfl,by simp [latin1]; decide⟩
  head_reads {head url port scheme} h _ _ _ hscheme hport _ _ := by
    simp only [plainUrl,Option.ite_none_right_eq_some,Option.some.injEq] at h
    obtain ⟨-,rfl⟩ := h
    obtain rfl : 22=port := hport
    rcases hscheme with rfl|rfl <;> decide
  spell_nil := rfl
  spell_slash _ _ := rfl
  slash_of_spell h := h
  path_reads {t p r} h hroot _ _ := by
    simp only [plainUrl,Option.ite_none_right_eq_some,Option.some.injEq] at h ⊢
    obtain ⟨⟨-,hall⟩,rfl⟩ := h
    rw [List.all_append,Bool.and_eq_true] at hall
    exact ⟨⟨hroot,hall.1⟩,trivial⟩

theorem plainFiles_absolute {p : Text} :
    absoluteLocalPath plainFiles p=if holdsNul p ∨ [slash] <+: p then p else latin1 "/w"++slash::p := by
  have hclean : ∀path,cleanedToFixedPoint plainFiles path=path := by
    intro path
    simp [cleanedToFixedPoint,cleanPasses,kMaxCleanPasses,plainFiles]
  rw [absoluteLocalPath,hclean]
  by_cases hnul : holdsNul p
  · simp [hnul]
  · by_cases hroot : [slash] <+: p <;> simp [hnul,hroot,plainFiles]

private theorem plainFiles_lawful : plainFiles.Lawful where
  fixed p := by
    by_cases h : holdsNul p ∨ [slash] <+: p
    · rw [plainFiles_absolute (p:=p),if_pos h,plainFiles_absolute,if_pos h]
    · have hroot : [slash] <+: latin1 "/w"++slash::p := ⟨latin1 "w"++slash::p,rfl⟩
      rw [plainFiles_absolute (p:=p),if_neg h,plainFiles_absolute,if_pos (.inr hroot)]
  rooted {p} _ hnul := by
    by_cases hroot : [slash] <+: p
    · obtain ⟨t,rfl⟩ := hroot
      exact ⟨slash,t,by rw [plainFiles_absolute,if_pos (.inr ⟨t,rfl⟩)]; rfl,.inl rfl⟩
    · exact ⟨slash,latin1 "w"++slash::p,by rw [plainFiles_absolute,if_neg (by simp [hnul,hroot])]; rfl,.inl rfl⟩
  kept {p} _ _ := by
    rw [plainFiles_absolute]
    split
    case isTrue => rfl
    case isFalse =>
      rcases lastComponent_cases p with hp|⟨a,b,rfl,hb⟩
      · rw [lastComponent_slash hp,lastComponent_plain hp]
      · have hassoc : latin1 "/w"++slash::(a++slash::b)=(latin1 "/w"++slash::a)++slash::b := by simp
        rw [hassoc,lastComponent_slash hb,lastComponent_slash hb]
  leading {p a b} hmoved habs harchive := by
    have hp : ¬(holdsNul p ∨ [slash] <+: p) := fun h => hmoved (by rw [plainFiles_absolute,if_pos h])
    rw [plainFiles_absolute,if_neg hp] at habs
    rw [plainFiles_absolute,if_pos]
    refine .inr ?_
    cases a with
    | nil => exact absurd rfl (archivePath_ne_nil harchive)
    | cons u a =>
      have hw : latin1 "/w"=slash::latin1 "w" := by decide
      rw [hw] at habs
      obtain ⟨rfl,-⟩ := List.cons.inj habs
      exact ⟨a,rfl⟩

theorem one_log_one_spelling_discovered :
    normalizeLogPath plainUrl plainFiles
    (normalizeLogPath plainUrl plainFiles (latin1 "discover://T/box/u.tar/a%20b"))=
      normalizeLogPath plainUrl plainFiles (latin1 "discover://T/box/u.tar/a%20b") := by
  have hall := (one_log_one_spelling plainUrl plainFiles plainUrl_lawful plainFiles_lawful).1
  refine ((hall (latin1 "discover://T/box/u.tar/a%20b")).mpr fun _ => ?_).1
  decide +kernel

/-- An archive extension on the device id hides the archive in the path. -/
theorem device_id_hides_archive :
    ¬∀(a b : Text) (la lb : RemoteLocation),RemoteLocation.parse plainUrl a=some la →
      RemoteLocation.parse plainUrl b=some lb → la.transport=lb.transport → pathPart a=pathPart b →
      SplitAlike plainUrl plainFiles a b := by
  intro h
  have ha : (RemoteLocation.parse plainUrl (latin1 "discover://T/box.zip/u.tar/m"))=
      some {transport := .discovered,discoveryType := latin1 "T",host := latin1 "box.zip"
            path := latin1 "/u.tar/m"} := by
    decide +kernel
  have hb : (RemoteLocation.parse plainUrl (latin1 "discover://T/box/u.tar/m"))=
      some {transport := .discovered,discoveryType := latin1 "T",host := latin1 "box"
            path := latin1 "/u.tar/m"} := by
    decide +kernel
  have hnone : split plainUrl plainFiles (latin1 "discover://T/box.zip/u.tar/m")=none := by decide +kernel
  have hsome : split plainUrl plainFiles (latin1 "discover://T/box/u.tar/m")=
      some ⟨latin1 "discover://T/box/u.tar",latin1 "m"⟩ := by decide +kernel
  have halike := h _ _ _ _ ha hb rfl (by decide +kernel)
  rw [SplitAlike,hnone,hsome] at halike
  exact halike

end Loftail
