import Loftail.RemoteAddresses

/-! # The normal form of a remote address reads back -/
namespace Loftail
open QString RemoteLocation

section Texts
variable {a b s u t : Text} {exclude : Bytes}

theorem holdsNoncharacter_slash : holdsNoncharacter (a++slash::b)=(holdsNoncharacter a || holdsNoncharacter b) := by
  have hslash : ∀t,holdsNoncharacter (slash::t)=holdsNoncharacter t := by
    intro t
    cases t with
    | nil => rfl
    | cons v t =>
      have hhigh : isHighSurrogate slash=false := by decide
      have hnon : isNoncharacter slash.toNat=false := by decide
      rw [holdsNoncharacter,hhigh,hnon]
      simp
  induction a using holdsNoncharacter.induct with
  | case1 => simp [hslash,holdsNoncharacter]
  | case2 v =>
    have hlow : isLowSurrogate slash=false := by decide
    simp [holdsNoncharacter,hlow,hslash]
  | case3 v w t h ih => simp only [List.cons_append,holdsNoncharacter,h,if_true,ih,Bool.or_assoc]
  | case4 v w t h ih =>
    rw [List.cons_append] at ih
    simp only [List.cons_append,holdsNoncharacter,h,Bool.false_eq_true,if_false,ih,Bool.or_assoc]

theorem holdsNul_append : holdsNul (a++b)=(holdsNul a || holdsNul b) := by
  unfold holdsNul
  induction a with
  | nil => rfl
  | cons v a ih => simp only [List.cons_append,List.contains_cons,ih,Bool.or_assoc]

theorem pathFromUrl_cases (s : Text) : pathFromUrl s=s ∨ ∃t,s=slash::t ∧ pathFromUrl s=t := by
  unfold pathFromUrl
  split
  case isTrue h =>
    have hlatin : latin1 "/~"=[slash,0x7E] := by decide
    rw [hlatin,List.isPrefixOf_iff_prefix] at h
    obtain ⟨r,rfl⟩ := h
    exact .inr ⟨0x7E::r,rfl,rfl⟩
  case isFalse => exact .inl rfl

@[simp] theorem holdsNoncharacter_pathFromUrl : holdsNoncharacter (pathFromUrl s)=holdsNoncharacter s := by
  rcases pathFromUrl_cases s with h|⟨t,rfl,h⟩
  · rw [h]
  · rw [h]
    exact (holdsNoncharacter_slash (a:=[])).symm

@[simp] theorem holdsNul_pathFromUrl : holdsNul (pathFromUrl s)=holdsNul s := by
  rcases pathFromUrl_cases s with h|⟨t,rfl,h⟩
  · rw [h]
  · rw [h]
    exact (holdsNul_append (a:=[slash])).symm

theorem wellFormed_cons {v : UInt16} (hv : v≠0x25) : escapesAreWellFormed (v::t)=escapesAreWellFormed t := by
  rw [escapesAreWellFormed]
  · exact fun _ _ _ h _ => hv h
  · exact hv

theorem wellFormed_append (ha : escapesAreWellFormed a) (hb : escapesAreWellFormed b) :
    escapesAreWellFormed (a++b) := by
  induction a using escapesAreWellFormed.induct with
  | case1 => exact hb
  | case2 x y t ih =>
    simp only [escapesAreWellFormed,Bool.and_eq_true] at ha
    simp only [List.cons_append,escapesAreWellFormed,Bool.and_eq_true]
    exact ⟨ha.1,ih ha.2⟩
  | case3 t h => simp [escapesAreWellFormed] at ha
  | case4 x t hx hx' ih =>
    rw [wellFormed_cons hx'] at ha
    rw [List.cons_append,wellFormed_cons hx']
    exact ih ha

theorem wellFormed_plain (h : 0x25∉s) : escapesAreWellFormed s := by
  induction s with
  | nil => rfl
  | cons v s ih =>
    rw [List.mem_cons,not_or] at h
    rw [wellFormed_cons (Ne.symm h.1)]
    exact ih h.2

theorem isHex_digit : ∀n : Fin 16,isHex (hexUpper (UInt8.ofNat n.val)) := by decide

theorem wellFormed_encoding (hascii : ∀b∈exclude,b < 0x80) : escapesAreWellFormed
    (toPercentEncoding s exclude) := by
  unfold toPercentEncoding
  induction QString.toUtf8 s with
  | nil => rfl
  | cons b bs ih =>
    rw [List.flatMap_cons]
    apply wellFormed_append _ ih
    cases escape_cases hascii b with
    | inl h =>
      rw [h.1]
      apply wellFormed_plain
      rw [List.mem_singleton]
      intro he
      apply h.2.1
      apply UInt8.toNat_inj.mp
      have hn := congrArg UInt16.toNat he
      simpa using hn.symm
    | inr h =>
      obtain ⟨m,hm⟩ := high_half b
      obtain ⟨n,hn⟩ := low_half b
      rw [h,hm,hn,escapesAreWellFormed,isHex_digit,isHex_digit]
      rfl

theorem fromPercentEncoding_slash : ∃cs,fromPercentEncoding (slash::t)=ofCodePoints ('/'::cs) := by
  have hbytes : QString.toUtf8 (slash::t)=0x2F::QString.toUtf8 t := toUtf8_ascii (by decide) t
  have hdecoded : ∃bs,percentDecoded (0x2F::QString.toUtf8 t)=0x2F::bs := by
    match QString.toUtf8 t with
    | [] => exact ⟨[],rfl⟩
    | [x] => exact ⟨[x],rfl⟩
    | x::y::bs => exact ⟨percentDecoded (x::y::bs),rfl⟩
  obtain ⟨bs,hbs⟩ := hdecoded
  have hone : String.utf8EncodeChar '/'=[0x2F] := by decide
  have hfirst := decodeFrom_encodeChar '/' bs
  rw [hone,List.singleton_append] at hfirst
  refine ⟨decodeFrom 0 bs,?_⟩
  rw [fromPercentEncoding,hbytes,hbs,fromUtf8,← hfirst]
  rfl

theorem slash_ascii : ∀b∈ascii "/~",b < 0x80 := by simp [ascii]

end Texts

/-! ### Paths -/

/-- The spelling of a path. -/
def spellOf (q : QUrl) : Transport→Text→Text
  | .serial,path | .discovered,path => toPercentEncoding path (ascii "/~")
  | .telnet,path | .ssh,path => q.spellPath path

section Paths
variable {q : QUrl} {tr : Transport} {x path p r a b : Text}

theorem spellOf_slash (hq : q.Lawful) : spellOf q tr (a++slash::b)=spellOf q tr a++slash::spellOf q tr b := by
  cases tr with
  | serial | discovered => exact toPercentEncoding_slash (by decide) a b
  | telnet | ssh => exact hq.spell_slash a b

theorem spellOf_nil (hq : q.Lawful) : spellOf q tr []=[] := by
  cases tr with
  | serial | discovered => rfl
  | telnet | ssh => exact hq.spell_nil

theorem slash_of_spellOf (hq : q.Lawful) (h : slash∈spellOf q tr a) : slash∈a := by
  cases tr with
  | serial | discovered => exact (slash_of_toPercentEncoding slash_ascii h).1
  | telnet | ssh => exact hq.slash_of_spell h

theorem leading_clean (hr : r=[] ∨ [slash] <+: r) (hnon : holdsNoncharacter (p++r)=false) :
    holdsNoncharacter p=false := by
  cases hr with
  | inl h => rwa [h,List.append_nil] at hnon
  | inr h =>
    obtain ⟨t,rfl⟩ := h
    have hcut := holdsNoncharacter_slash (a:=p) (b:=t)
    rw [List.singleton_append,hcut,Bool.or_eq_false_iff] at hnon
    exact hnon.1

/-- What leads a path that was decoded, cut at a separator, was decoded too. -/
theorem leading_decoded {cs : List Char} (hr : r=[] ∨ [slash] <+: r) (h : ofCodePoints cs=p++r) :
    ∃ds,p=ofCodePoints ds := by
  cases hr with
  | inl hnil => exact ⟨cs,by rw [h,hnil,List.append_nil]⟩
  | inr hs =>
    obtain ⟨t,rfl⟩ := hs
    obtain ⟨ds,-,-,hp,-⟩ := ofCodePoints_cut h
    exact ⟨ds,hp.symm⟩

private theorem cutPath_spell (h : cutPath (slash::x)=some path) (hp : pathToUrl path=p++r) (hroot : [slash] <+: p)
    (hr : r=[] ∨ [slash] <+: r) : cutPath (toPercentEncoding p (ascii "/~"))=some (pathFromUrl p) := by
  obtain ⟨cs,hcs⟩ := fromPercentEncoding_slash (t:=x)
  have hrooted : [slash] <+: fromPercentEncoding (slash::x) := by
    rw [hcs]
    exact ⟨ofCodePoints cs,rfl⟩
  simp only [cutPath,Option.ite_none_right_eq_some,Bool.and_eq_true,Bool.not_eq_true',Option.some.injEq] at h
  obtain ⟨⟨⟨-,hnon⟩,hnul⟩,rfl⟩ := h
  rw [holdsNoncharacter_pathFromUrl] at hnon
  rw [holdsNul_pathFromUrl] at hnul
  rw [pathToUrl_pathFromUrl hrooted] at hp
  obtain ⟨ds,hds⟩ := leading_decoded hr (hcs.symm.trans hp)
  have hread : fromPercentEncoding (toPercentEncoding p (ascii "/~"))=p := by
    rw [hds,fromPercentEncoding_toPercentEncoding slash_ascii,dropMark_eq_iff.mpr]
    intro hmark
    cases ds with
    | nil => cases hmark
    | cons d ds =>
      obtain rfl : d = '\uFEFF' := by simpa using hmark
      obtain ⟨t,ht⟩ := hroot
      rw [hds] at ht
      have hone : units '\uFEFF'=[0xFEFF] := by decide
      rw [ofCodePoints_cons,hone] at ht
      exact absurd (List.cons.inj ht).1 (by decide)
  rw [hp] at hnon hnul
  have hnon' := leading_clean hr hnon
  rw [holdsNul_append,Bool.or_eq_false_iff] at hnul
  have hne : (pathFromUrl p).isEmpty=false := by simpa using pathFromUrl_ne_nil hroot
  simp [cutPath,hread,wellFormed_encoding slash_ascii,hne,hnon',hnul.1]

theorem pathOf_rooted (hq : q.Lawful) (h : pathOf q tr (slash::x)=some path) : ∃u,[slash] <+: u ∧
    path=pathFromUrl u := by
  have hcut : cutPath (slash::x)=some path → ∃u,[slash] <+: u ∧ path=pathFromUrl u := by
    intro h
    obtain ⟨cs,hcs⟩ := fromPercentEncoding_slash (t:=x)
    simp only [cutPath,Option.ite_none_right_eq_some,Option.some.injEq] at h
    exact ⟨_,⟨ofCodePoints cs,hcs.symm⟩,h.2.symm⟩
  have hurl : urlPath q (slash::x)=some path → ∃u,[slash] <+: u ∧ path=pathFromUrl u := by
    intro h
    obtain ⟨read,hread,h⟩ := Option.bind_eq_some_iff.mp h
    simp only [Option.ite_none_right_eq_some,Bool.and_eq_true,Bool.not_eq_true',Option.some.injEq] at h
    refine ⟨read,?_,h.2.symm⟩
    cases read with
    | nil =>
      have hnil : pathFromUrl []=[] := by decide
      rw [hnil] at h
      cases h.1.1
    | cons u t => exact ⟨t,by rw [(hq.rooted hread).1]; rfl⟩
  cases tr with
  | serial | discovered => exact hcut h
  | telnet | ssh => exact hurl h

/-- A path that was read is read again from its spelling, and so is what leads it up to a separator. -/
theorem pathOf_spell (hq : q.Lawful) (h : pathOf q tr (slash::x)=some path) (hp : pathToUrl path=p++r)
    (hroot : [slash] <+: p) (hr : r=[] ∨ [slash] <+: r) : pathOf q tr (spellOf q tr p)=some (pathFromUrl p) := by
  have hurl : urlPath q (slash::x)=some path → urlPath q (q.spellPath p)=some (pathFromUrl p) := by
    intro h
    obtain ⟨read,hread,h⟩ := Option.bind_eq_some_iff.mp h
    simp only [Option.ite_none_right_eq_some,Bool.and_eq_true,Bool.not_eq_true',Option.some.injEq] at h
    obtain ⟨⟨hne,hnon⟩,rfl⟩ := h
    have hrooted : [slash] <+: read := by
      cases read with
      | nil =>
        have hnil : pathFromUrl []=[] := by decide
        rw [hnil] at hne
        cases hne
      | cons u t => exact ⟨t,by rw [(hq.rooted hread).1]; rfl⟩
    rw [pathToUrl_pathFromUrl hrooted] at hp
    rw [holdsNoncharacter_pathFromUrl,hp] at hnon
    have hnon' := leading_clean hr hnon
    rw [hp] at hread
    simp [urlPath,hq.path_reads hread hroot hr hnon',pathFromUrl_ne_nil hroot,hnon']
  cases tr with
  | serial | discovered => exact cutPath_spell h hp hroot hr
  | telnet | ssh => exact hurl h

end Paths

/-! ### Names -/

/-- An account, where there is one, and a device. -/
def spellAuthority (user device : Text) : Text := (if user.isEmpty then [] else toPercentEncoding user
    []++[0x40])++device

/-- The normal form of a head. -/
def headText (q : QUrl) (loc : RemoteLocation) : Text :=
  match loc.transport with
  | .discovered =>
    latin1 "discover"++latin1 "://"++(toPercentEncoding loc.discoveryType []++slash::toPercentEncoding loc.host [])
  | .serial => latin1 "serial"++latin1 "://"++spellAuthority loc.user loc.host
  | .telnet => q.spellHead (latin1 "telnet") ⟨loc.user,loc.host,some loc.port⟩
  | .ssh => q.spellHead (latin1 "ssh") ⟨loc.user,loc.host,some loc.port⟩

/-- The names as they are written in a head that is cut by hand. -/
def headRaw : Transport→Text→List Text
  | .serial,head => [(splitUserinfo (head.drop kSerialScheme.length)).1]
  | .discovered,head =>
    let rest := head.drop kDiscoverScheme.length
    [rest.takeWhile (·≠slash),(rest.dropWhile (·≠slash)).drop 1]
  | .telnet,_ | .ssh,_ => []

/-- The names as they are written in an address that is cut by hand: the account of a serial address, the type
and the id of a discovered one. -/
def rawNames (s : Text) : List Text :=
  if startsWithFolded s kSerialScheme then [(splitUserinfo ((s.drop kSerialScheme.length).takeWhile (·≠slash))).1]
  else if startsWithFolded s kDiscoverScheme then
    let rest := s.drop kDiscoverScheme.length
    [rest.takeWhile (·≠slash),((rest.dropWhile (·≠slash)).drop 1).takeWhile (·≠slash)]
  else []

/-- Two byte order marks in front: one is dropped, and the next would be dropped when the name is read again. -/
def MarkedTwice (raw : Text) : Prop := mark++mark <+: percentDecoded (QString.toUtf8 raw)

instance (raw : Text) : Decidable (MarkedTwice raw) := inferInstanceAs (Decidable (_ <+: _))

section Names
variable {q : QUrl} {tr : Transport} {loc : RemoteLocation} {head s x authority rawType rawId user device : Text}

theorem toString_eq : loc.toString q=headText q loc++spellOf q loc.transport (pathToUrl loc.path) := by
  have hdiscover : kDiscoverScheme=latin1 "discover"++latin1 "://" := by decide
  have hserial : kSerialScheme=latin1 "serial"++latin1 "://" := by decide
  unfold RemoteLocation.toString headText
  split <;> simp_all [spellOf,spellAuthority]

theorem none_ascii : ∀b∈([] : Bytes),b < 0x80 := by simp

theorem sign_not_mem {u : UInt16} (hu : u=0x2F ∨ u=0x40 ∨ u=0x3A) : u∉toPercentEncoding s [] := by
  rcases hu with rfl|rfl|rfl
  · exact fun h => absurd (slash_of_toPercentEncoding none_ascii h).2 (by simp)
  · exact at_not_mem_toPercentEncoding (b:=0x40) none_ascii (.inl rfl) (by simp)
  · exact at_not_mem_toPercentEncoding (b:=0x3A) none_ascii (.inr rfl) (by simp)

theorem device_sign {u : UInt16} (h : isValidSerialDeviceName device)
    (hu : u=0x2F ∨ u=0x40 ∨ u=0x25) : u∉device := by
  intro hmem
  have hall := (Bool.and_eq_true_iff.mp h).2
  have hone := List.all_eq_true.mp hall u hmem
  rcases hu with rfl|rfl|rfl <;> exact absurd hone (by decide)

private theorem device_ne_nil (h : isValidSerialDeviceName device) : device≠[] := by
  rintro rfl
  cases h

/-- An authority as it is spelled comes apart into the account and the device it was spelled from. -/
theorem splitUserinfo_spelled (hdevice : isValidSerialDeviceName device) :
    splitUserinfo (spellAuthority user device)=(toPercentEncoding user [],device) := by
  have hat : 0x40∉device := device_sign hdevice (.inr (.inl rfl))
  cases user with
  | nil => simp [spellAuthority,splitUserinfo,lastIndexOf_none hat]
  | cons v user =>
    have hcolon : 0x3A∉toPercentEncoding (v::user) [] := sign_not_mem (.inr (.inr rfl))
    have hspelled : spellAuthority (v::user) device=toPercentEncoding (v::user) []++0x40::device :=
      by simp [spellAuthority]
    have hafter : (toPercentEncoding (v::user) []++0x40::device).drop
      ((toPercentEncoding (v::user) []).length+1)=device := by
      rw [← List.drop_drop,List.drop_left]
      rfl
    rw [hspelled,splitUserinfo,lastIndexOf_append hat]
    simp only [List.take_left,hafter,indexOf_none hcolon]

private theorem spellAuthority_slash (hdevice : isValidSerialDeviceName device) :
    slash∉spellAuthority user device := by
  have hhost : slash∉device := device_sign hdevice (.inl rfl)
  have huser : slash∉toPercentEncoding user [] := sign_not_mem (.inl rfl)
  have hat : slash≠0x40 := by decide
  unfold spellAuthority
  split <;> simp [hhost,huser,hat]

private theorem spellAuthority_wellFormed (hdevice : isValidSerialDeviceName device) :
    escapesAreWellFormed (spellAuthority user device) := by
  have hhost : escapesAreWellFormed device := wellFormed_plain (device_sign hdevice (.inr (.inr rfl)))
  unfold spellAuthority
  split
  · exact hhost
  · exact wellFormed_append (wellFormed_append (wellFormed_encoding none_ascii) (by decide)) hhost

private theorem headNames_spelled_serial :
    headNames q .serial (latin1 "serial"++latin1 "://"++spellAuthority user device)=
      serialNames (spellAuthority user device) := headNames_serial (by decide)

private theorem serial_again (h : serialNames authority=some loc) :
    HeadOf .serial (headText q loc) ∧
      (headNames q .serial (headText q loc)=some loc↔¬MarkedTwice (splitUserinfo authority).1) := by
  simp only [serialNames,Option.ite_none_right_eq_some,Bool.and_eq_true,Bool.not_eq_true',Option.some.injEq] at h
  obtain ⟨⟨⟨⟨⟨-,hdevice⟩,huser⟩,hhost⟩,hnul⟩,rfl⟩ := h
  generalize (splitUserinfo authority).1=raw at huser hnul ⊢
  generalize (splitUserinfo authority).2=device at hdevice hhost ⊢
  refine ⟨.serial (by decide) (spellAuthority_slash hdevice) ?_,?_⟩
  · have hne := device_ne_nil hdevice
    simp [spellAuthority,hne]
  · rw [MarkedTwice,← decoded_again_iff none_ascii]
    simp only [headText,headNames_spelled_serial,serialNames,splitUserinfo_spelled hdevice,
      Option.ite_none_right_eq_some,Bool.and_eq_true,Bool.not_eq_true',Option.some.injEq]
    constructor
    · rintro ⟨-,hloc⟩
      rw [RemoteLocation.mk.injEq] at hloc
      exact hloc.2.1
    · intro hagain
      rw [hagain]
      exact ⟨⟨⟨⟨⟨spellAuthority_wellFormed hdevice,hdevice⟩,huser⟩,hhost⟩,hnul⟩,rfl⟩

private theorem discovered_again (h : discoveredNames rawType rawId=some loc) :
    HeadOf .discovered (headText q loc) ∧
      (headNames q .discovered (headText q loc)=some loc↔¬MarkedTwice rawType ∧ ¬MarkedTwice rawId) := by
  simp only [discoveredNames,Option.ite_none_right_eq_some,Bool.and_eq_true,Bool.not_eq_true',
    Option.some.injEq] at h
  obtain ⟨⟨⟨⟨⟨⟨⟨⟨⟨-,-⟩,-⟩,htype⟩,hid⟩,hnon⟩,hnon'⟩,hnul⟩,hnul'⟩,rfl⟩ := h
  have htype' : fromPercentEncoding rawType≠[] := by simpa using htype
  have hid' : fromPercentEncoding rawId≠[] := by simpa using hid
  refine ⟨.discovered (by decide) (sign_not_mem (.inl rfl)) (sign_not_mem (.inl rfl))
    (toPercentEncoding_ne_nil htype')
    (toPercentEncoding_ne_nil hid'),?_⟩
  have hat : (toPercentEncoding (fromPercentEncoding rawType) []).contains 0x40=false := by
    have hmem : 0x40∉toPercentEncoding (fromPercentEncoding rawType) [] := sign_not_mem (.inr (.inl rfl))
    simpa using hmem
  rw [MarkedTwice,MarkedTwice,← decoded_again_iff none_ascii,← decoded_again_iff none_ascii]
  simp only [headText,headNames_discovered (q:=q) (h:=latin1 "discover") (by decide) (sign_not_mem (.inl rfl)),
    discoveredNames,wellFormed_encoding none_ascii,hat,Option.ite_none_right_eq_some,Bool.and_eq_true,
      Bool.not_eq_true',
    Option.some.injEq]
  constructor
  · rintro ⟨-,hloc⟩
    rw [RemoteLocation.mk.injEq] at hloc
    exact ⟨hloc.2.2.2.2.2.1,hloc.2.2.1⟩
  · rintro ⟨hagain,hagain'⟩
    rw [hagain,hagain']
    simp [htype',hid',hnon,hnon',hnul,hnul']

theorem url_again (hq : q.Lawful) (htr : tr=.ssh ∨ tr=.telnet) (h : urlNames q tr head=some loc) :
    HeadOf tr (headText q loc) ∧ headNames q tr (headText q loc)=some loc := by
  obtain ⟨url,hread,h⟩ := Option.bind_eq_some_iff.mp h
  simp only [Option.ite_none_right_eq_some,Bool.and_eq_true,Bool.not_eq_true',decide_eq_true_eq,
    Option.some.injEq] at h
  obtain ⟨⟨⟨⟨⟨hhost,huser⟩,hnon⟩,hlow⟩,hhigh⟩,rfl⟩ := h
  have hne : url.host≠[] := by simpa using hhost
  have hport : url.port.getD (url.port.getD (defaultPortFor tr))=url.port.getD (defaultPortFor tr) := by
    cases url.port <;> rfl
  have hagain : ∀scheme,scheme=latin1 "ssh" ∨ scheme=latin1 "telnet" →
      urlNames q tr (q.spellHead scheme ⟨url.userName,url.host,some (url.port.getD (defaultPortFor tr))⟩)=
        some {transport := tr,user := url.userName,host := url.host,port := url.port.getD (defaultPortFor tr)} :=
    fun scheme hscheme => by
      simp [urlNames,hq.head_reads hread hne huser hnon hscheme hport hlow hhigh,hne,huser,hnon,hlow,hhigh]
  rcases htr with rfl|rfl
  · obtain ⟨authority,hshape,hends⟩ := hq.head_shape hread hne (.inl rfl) hport hlow hhigh
    constructor
    · rw [headText,hshape]
      exact .ssh (.inl (by decide)) hends
    · exact hagain _ (.inl rfl)
  · obtain ⟨authority,hshape,hends⟩ := hq.head_shape hread hne (.inr rfl) hport hlow hhigh
    constructor
    · rw [headText,hshape]
      exact .telnet (by decide) hends
    · exact hagain _ (.inr rfl)

theorem headText_path {path : Text} : headText q {loc with path}=headText q loc := rfl

/-- The head of an accepted address has a normal form, whose names are the same where none is marked twice. -/
theorem names_again (hq : q.Lawful) (h : Accepted q s loc head x) :
    HeadOf loc.transport (headText q loc) ∧
      (headNames q loc.transport (headText q loc)=some {loc with path := []}↔
        ∀raw∈headRaw loc.transport head,¬MarkedTwice raw) := by
  have hnames := h.names
  have hhead := h.headOf
  have hpathless : headText q loc=headText q {loc with path := []} := headText_path.symm
  rw [hpathless]
  generalize loc.transport=tr at hnames hhead ⊢
  generalize ({loc with path := []} : RemoteLocation)=names at hnames ⊢
  clear h
  cases hhead with
  | @serial h authority hfold hslash =>
    have hlen : kSerialScheme.length=h.length+3 := by rw [length_of_fold hfold]; decide
    rw [headNames_serial hfold] at hnames
    obtain ⟨hhead,hagain⟩ := serial_again (q:=q) hnames
    refine ⟨hhead,?_⟩
    rw [hagain,headRaw,drop_scheme hlen]
    simp
  | @discovered h type id hfold htype =>
    have hlen : kDiscoverScheme.length=h.length+3 := by rw [length_of_fold hfold]; decide
    rw [headNames_discovered hfold htype] at hnames
    obtain ⟨hhead,hagain⟩ := discovered_again (q:=q) hnames
    refine ⟨hhead,?_⟩
    rw [hagain,headRaw,drop_scheme hlen]
    simp only [takeWhile_slash htype,dropWhile_slash htype]
    simp
  | telnet =>
    obtain ⟨hhead,hagain⟩ := url_again hq (.inr rfl) hnames
    exact ⟨hhead,by simp [hagain,headRaw]⟩
  | ssh =>
    obtain ⟨hhead,hagain⟩ := url_again hq (.inl rfl) hnames
    exact ⟨hhead,by simp [hagain,headRaw]⟩

theorem rawNames_eq (h : Accepted q s loc head x) : rawNames s=headRaw loc.transport head := by
  have hspelled := h.spelled
  have hhead := h.headOf
  generalize loc.transport=tr at hhead ⊢
  clear h
  subst hspelled
  cases hhead with
  | @serial h authority hfold hslash =>
    rw [List.append_assoc]
    obtain ⟨hserial,-,-,-⟩ := schemes (t:=authority++slash::x) hfold (by decide)
    have hlen : kSerialScheme.length=h.length+3 := by rw [length_of_fold hfold]; decide
    rw [rawNames,hserial,drop_scheme hlen,takeWhile_slash hslash,headRaw,drop_scheme hlen]
    simp
  | @discovered h type id hfold htype hid =>
    rw [List.append_assoc,List.append_assoc type,List.cons_append]
    obtain ⟨hserial,hdiscover,-,-⟩ := schemes (t:=type++slash::(id++slash::x)) hfold (by decide)
    have hlen : kDiscoverScheme.length=h.length+3 := by rw [length_of_fold hfold]; decide
    have hother : ¬latin1 "discover"=latin1 "serial" := by decide
    rw [rawNames,hserial,hdiscover,drop_scheme hlen,headRaw,drop_scheme hlen]
    simp only [takeWhile_slash htype,dropWhile_slash htype,List.drop_one,List.tail_cons,takeWhile_slash hid]
    simp [hother]
  | @telnet h authority hfold =>
    rw [List.append_assoc]
    obtain ⟨hserial,hdiscover,-,-⟩ := schemes (t:=authority++slash::x) hfold (by decide)
    have hother : ¬latin1 "telnet"=latin1 "serial" := by decide
    have hother' : ¬latin1 "telnet"=latin1 "discover" := by decide
    rw [rawNames,hserial,hdiscover,headRaw]
    simp [hother,hother']
  | @ssh h authority hfold =>
    rw [List.append_assoc]
    have hcolon : 0x3A∉h.map foldCase := by
      rcases hfold with hfold|hfold <;> rw [hfold] <;> decide
    obtain ⟨hserial,hdiscover,-,-⟩ := schemes (t:=authority++slash::x) rfl hcolon
    have hother : ¬h.map foldCase=latin1 "serial" := by
      rcases hfold with hfold|hfold <;> rw [hfold] <;> decide
    have hother' : ¬h.map foldCase=latin1 "discover" := by
      rcases hfold with hfold|hfold <;> rw [hfold] <;> decide
    rw [rawNames,hserial,hdiscover,headRaw]
    simp [hother,hother']

theorem pathToUrl_slash (path : Text) : ∃t,pathToUrl path=slash::t := by
  unfold pathToUrl
  split
  case isTrue h =>
    obtain ⟨t,ht⟩ := List.isPrefixOf_iff_prefix.mp h
    exact ⟨t,ht.symm⟩
  case isFalse => exact ⟨path,rfl⟩

theorem spelled_slash (hq : q.Lawful) (tr : Transport) (path : Text) : ∃t,spellOf q tr
    (pathToUrl path)=slash::t := by
  obtain ⟨t,ht⟩ := pathToUrl_slash path
  refine ⟨spellOf q tr t,?_⟩
  have hcut : spellOf q tr ([]++slash::t)=spellOf q tr []++slash::spellOf q tr t := spellOf_slash hq
  rwa [List.nil_append,spellOf_nil hq,← ht,List.nil_append] at hcut

/-- An accepted address reads back from its normal form in every field where no name in it is marked twice. -/
theorem parse_toString_iff (hq : q.Lawful) (h : Accepted q s loc head x) :
    parse q (loc.toString q)=some loc↔∀raw∈rawNames s,¬MarkedTwice raw := by
  obtain ⟨hhead,hagain⟩ := names_again hq h
  obtain ⟨t,ht⟩ := spelled_slash hq loc.transport loc.path
  obtain ⟨t',ht'⟩ := pathToUrl_slash loc.path
  have hpath := pathOf_spell hq h.path (List.append_nil _).symm ⟨t',ht'.symm⟩ (.inl rfl)
  have hback : pathFromUrl (pathToUrl loc.path)=loc.path := by
    obtain ⟨u,hroot,hu⟩ := pathOf_rooted hq h.path
    rw [hu,pathToUrl_pathFromUrl hroot]
  rw [rawNames_eq h,← hagain,toString_eq,ht,parse_head hhead,← ht,hpath,hback]
  constructor
  · intro hparse
    obtain ⟨names,hnames,hloc⟩ := Option.bind_eq_some_iff.mp hparse
    obtain ⟨-,hnil⟩ := headNames_eq hhead hnames
    rw [hnames]
    congr 1
    rw [← Option.some.inj hloc]
    cases names
    cases hnil
    rfl
  · intro hnames
    rw [hnames]
    rfl

end Names
end Loftail
