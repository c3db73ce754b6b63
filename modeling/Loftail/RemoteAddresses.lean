import Loftail.RemoteLocation
import Mathlib.Data.List.TakeWhile

/-! # The head of a remote address, and its path -/
namespace Loftail
open QString RemoteLocation

section Texts
variable {u c : UInt16} {a b s t word : Text} {n : ℕ}

theorem QString.indexOf_append (h : c∉a) : indexOf [c] (a++c::b)=some a.length := by
  induction a with
  | nil => simp [indexOf]
  | cons u a ih =>
    rw [List.mem_cons,not_or] at h
    simp [indexOf,h.1,ih h.2]

theorem QString.indexOf_cut (h : indexOf [c] s=some n) : ∃a b,s=a++c::b ∧ a.length=n ∧ c∉a := by
  induction s generalizing n with
  | nil => simp [indexOf] at h
  | cons u s ih =>
    by_cases hu : c=u
    · refine ⟨[],s,by simp [hu],?_,by simp⟩
      simpa [indexOf,hu] using h
    · simp only [indexOf,List.isPrefixOf,beq_iff_eq,hu,Bool.and_true,if_false,Option.map_eq_some_iff] at h
      obtain ⟨m,hm,rfl⟩ := h
      obtain ⟨a,b,rfl,hlen,hmem⟩ := ih hm
      exact ⟨u::a,b,rfl,by simp [hlen],by simp [hu,hmem]⟩

theorem QString.indexOf_none (h : c∉s) : indexOf [c] s=none := by
  induction s with
  | nil => rfl
  | cons u s ih =>
    rw [List.mem_cons,not_or] at h
    simp [indexOf,h.1,ih h.2]

/-- The colon that closes a scheme is the first one. -/
theorem QString.indexOf_scheme {h : Text} (hcolon : 0x3A∉h) : indexOf (latin1 "://")
    (h++latin1 "://"++t)=some h.length := by
  induction h with
  | nil => rfl
  | cons u h ih =>
    rw [List.mem_cons,not_or] at hcolon
    have hfirst : (latin1 "://").isPrefixOf (u::(h++latin1 "://"++t))=false := by
      have hlatin : latin1 "://"=[0x3A,0x2F,0x2F] := by decide
      simp [hlatin,List.isPrefixOf,hcolon.1]
    rw [List.cons_append,List.cons_append,indexOf,hfirst,ih hcolon.2]
    rfl

theorem lastIndexOf_none (h : c∉t) : lastIndexOf c t=none := by
  induction t with
  | nil => rfl
  | cons u t ih =>
    rw [List.mem_cons,not_or] at h
    simp [lastIndexOf,ih h.2,Ne.symm h.1]

theorem lastIndexOf_append (h : c∉b) : lastIndexOf c (a++c::b)=some a.length := by
  induction a with
  | nil => simp [lastIndexOf,lastIndexOf_none h]
  | cons u a ih => simp [lastIndexOf,ih]

theorem foldCase_sign (hc : c=0x3A ∨ c=0x2F) : foldCase u=c↔u=c := by
  have hall : ∀n : Fin 0x5B,foldCase (UInt16.ofNat n.val)=0x3A ∨ foldCase (UInt16.ofNat n.val)=0x2F →
      UInt16.ofNat n.val=foldCase (UInt16.ofNat n.val) := by decide +kernel
  constructor
  · intro h
    by_cases hlow : u.toNat < 0x5B
    · have hu := hall ⟨u.toNat,hlow⟩
      simp only [UInt16.ofNat_toNat] at hu
      rw [h] at hu
      exact hu hc
    · have hup : ¬(0x41≤u ∧ u≤0x5A) := by
        rw [UInt16.le_iff_toNat_le,UInt16.le_iff_toNat_le]
        simp only [UInt16.reduceToNat]
        omega
      unfold foldCase at h
      rw [if_neg hup] at h
      split at h
      · rcases hc with rfl|rfl <;> exact absurd h (by decide)
      · split at h
        · rcases hc with rfl|rfl <;> exact absurd h (by decide)
        · exact h
  · rintro rfl
    rcases hc with rfl|rfl <;> decide

theorem colon_of_fold {h name : Text} (hfold : h.map foldCase=name) (hname : 0x3A∉name) : 0x3A∉h := by
  intro hmem
  apply hname
  rw [← hfold,List.mem_map]
  exact ⟨0x3A,hmem,by decide⟩

theorem startsWithFolded_iff : startsWithFolded s word↔word <+: s.map foldCase := List.isPrefixOf_iff_prefix

/-- A text that begins with a scheme, in whatever case, spells its separator as it is. -/
theorem scheme_of_folded {name : Text} (h : startsWithFolded s (name++latin1 "://")) :
    ∃head t,s=head++latin1 "://"++t ∧ head.map foldCase=name := by
  obtain ⟨t,ht⟩ := startsWithFolded_iff.mp h
  rw [List.append_assoc] at ht
  obtain ⟨head,s',rfl,hhead,hs'⟩ := List.map_eq_append_iff.mp ht.symm
  obtain ⟨sign,t',rfl,hsign,-⟩ := List.map_eq_append_iff.mp hs'
  have hlatin : latin1 "://"=[0x3A,0x2F,0x2F] := by decide
  have hsame : sign=latin1 "://" := by
    rw [hlatin] at hsign ⊢
    have hlen : sign.length=3 := by simpa using congrArg List.length hsign
    obtain ⟨x,y,z,rfl⟩ := List.length_eq_three.mp hlen
    simp only [List.map_cons,List.map_nil,List.cons.injEq,and_true] at hsign
    rw [(foldCase_sign (.inl rfl)).mp hsign.1,(foldCase_sign (.inr rfl)).mp hsign.2.1,
      (foldCase_sign (.inr rfl)).mp hsign.2.2]
  exact ⟨head,t',by rw [hsame,List.append_assoc],hhead⟩

private theorem folded_scheme_iff {head name : Text} (hhead : 0x3A∉head) (hname : 0x3A∉name) :
    startsWithFolded (head++latin1 "://"++t) (name++latin1 "://")↔head.map foldCase=name := by
  constructor
  · intro h
    obtain ⟨head',t',heq,hfold⟩ := scheme_of_folded h
    have hlen := congrArg (indexOf (latin1 "://")) heq
    rw [indexOf_scheme hhead,indexOf_scheme (colon_of_fold hfold hname)] at hlen
    rw [List.append_assoc,List.append_assoc] at heq
    obtain ⟨rfl,-⟩ := List.append_inj heq (Option.some.inj hlen)
    exact hfold
  · rintro rfl
    rw [startsWithFolded_iff]
    refine ⟨t.map foldCase,?_⟩
    have hsign : (latin1 "://").map foldCase=latin1 "://" := by decide
    rw [List.map_append,List.map_append,hsign]

private theorem folded_scheme {head name name' : Text} (hfold : head.map foldCase=name) (hname : 0x3A∉name)
    (hname' : 0x3A∉name') :
    startsWithFolded (head++latin1 "://"++t) (name'++latin1 "://")=decide (name=name') := by
  rw [Bool.eq_iff_iff,folded_scheme_iff (colon_of_fold hfold hname) hname',hfold,decide_eq_true_iff]

theorem pathToUrl_pathFromUrl (hu : [slash] <+: s) : pathToUrl (pathFromUrl s)=s := by
  obtain ⟨t,rfl⟩ := hu
  have hlatin : latin1 "/~"=[slash,0x7E] := by decide
  unfold pathFromUrl
  split
  case isTrue h =>
    rw [hlatin,List.isPrefixOf_iff_prefix] at h
    obtain ⟨r,hr⟩ := h
    obtain rfl : 0x7E::r=t := by simpa using hr
    rfl
  case isFalse => rfl

theorem pathFromUrl_ne_nil (hu : [slash] <+: s) : pathFromUrl s≠[] := by
  intro h
  have hback := pathToUrl_pathFromUrl hu
  rw [h] at hback
  have hlatin : latin1 "/~"=[slash,0x7E] := by decide
  have hroot : pathFromUrl (pathToUrl [])=[slash] := by decide
  rw [hback,h] at hroot
  cases hroot

end Texts

/-! ### Heads -/

/-- What an address begins with, up to its path. -/
inductive HeadOf : Transport→Text→Prop
  | serial {h authority : Text} (hfold : h.map foldCase=latin1 "serial") (hslash : slash∉authority)
    (hne : authority≠[]) :
    HeadOf .serial (h++latin1 "://"++authority)
  | discovered {h type id : Text} (hfold : h.map foldCase=latin1 "discover") (htype : slash∉type) (hid : slash∉id)
    (htype' : type≠[]) (hid' : id≠[]) : HeadOf .discovered (h++latin1 "://"++(type++slash::id))
  | telnet {h authority : Text} (hfold : h.map foldCase=latin1 "telnet")
      (hends : ∀u∈authority,endsAuthority u=false) :
    HeadOf .telnet (h++latin1 "://"++authority)
  | ssh {h authority : Text} (hfold : h.map foldCase=latin1 "ssh" ∨ h.map foldCase=latin1 "sftp")
    (hends : ∀u∈authority,endsAuthority u=false) : HeadOf .ssh (h++latin1 "://"++authority)

/-- The names in a serial authority, where they may be in an address. -/
def serialNames (authority : Text) : Option RemoteLocation :=
  let loc : RemoteLocation := {
    transport := .serial
    user := fromPercentEncoding (splitUserinfo authority).1
    host := (splitUserinfo authority).2}
  if escapesAreWellFormed authority && isValidSerialDeviceName loc.host && !holdsNoncharacter loc.user &&
    !holdsNoncharacter loc.host && !holdsNul loc.user then some loc else none

/-- A device type and a device id. -/
def discoveredNames (rawType rawId : Text) : Option RemoteLocation :=
  let loc : RemoteLocation := {
    transport := .discovered
    discoveryType := fromPercentEncoding rawType
    host := fromPercentEncoding rawId}
  if escapesAreWellFormed rawType && escapesAreWellFormed rawId && !rawType.contains 0x40 &&
    !loc.discoveryType.isEmpty &&
    !loc.host.isEmpty && !holdsNoncharacter loc.discoveryType && !holdsNoncharacter loc.host && !holdsNul
      loc.discoveryType &&
    !holdsNul loc.host then some loc else none

/-- What `QUrl` reads from a head. -/
def urlNames (q : QUrl) (transport : Transport) (head : Text) : Option RemoteLocation :=
  (q.readHead head).bind fun url =>
    let loc : RemoteLocation := {
      transport
      user := url.userName
      host := url.host
      port := url.port.getD (defaultPortFor transport)}
    if !loc.host.isEmpty && !holdsNoncharacter loc.user && !holdsNoncharacter loc.host && 1≤loc.port &&
      loc.port≤65535 then
      some loc else none

/-- The names in a head. -/
def headNames (q : QUrl) : Transport→Text→Option RemoteLocation
  | .serial,head => serialNames (head.drop kSerialScheme.length)
  | .discovered,head =>
    let rest := head.drop kDiscoverScheme.length
    discoveredNames (rest.takeWhile (·≠slash)) ((rest.dropWhile (·≠slash)).drop 1)
  | transport,head => urlNames q transport head

/-- The path of a hand-cut address. -/
def cutPath (rawPath : Text) : Option Text :=
  let path := pathFromUrl (fromPercentEncoding rawPath)
  if escapesAreWellFormed rawPath && !path.isEmpty && !holdsNoncharacter path && !holdsNul path then
    some path else none

def urlPath (q : QUrl) (rawPath : Text) : Option Text :=
  (q.readPath rawPath).bind fun read =>
    let path := pathFromUrl read
    if !path.isEmpty && !holdsNoncharacter path then some path else none

/-- The path as an address of a transport spells it. -/
def pathOf (q : QUrl) : Transport→Text→Option Text
  | .serial,rawPath | .discovered,rawPath => cutPath rawPath
  | .telnet,rawPath | .ssh,rawPath => urlPath q rawPath

section Heads
variable {q : QUrl} {tr : Transport} {head rawPath x : Text}

theorem drop_scheme {h t word : Text} (hlen : word.length=h.length+3) :
    (h++latin1 "://"++t).drop word.length=t := by
  have hlatin : (h++latin1 "://").length=word.length := by
    rw [List.length_append,hlen]
    rfl
  rw [← hlatin,List.drop_left]

theorem length_of_fold {h name : Text} (hfold : h.map foldCase=name) : h.length=name.length := by
  rw [← hfold,List.length_map]

/-- Which scheme an address has is what the text before its first colon folds to. -/
theorem schemes {h t name : Text} (hfold : h.map foldCase=name) (hname : 0x3A∉name) :
    startsWithFolded (h++latin1 "://"++t) kSerialScheme=decide (name=latin1 "serial") ∧
    startsWithFolded (h++latin1 "://"++t) kDiscoverScheme=decide (name=latin1 "discover") ∧
    startsWithFolded (h++latin1 "://"++t) kTelnetScheme=decide (name=latin1 "telnet") ∧
    isRemote (h++latin1 "://"++t)=decide (name=latin1 "ssh" ∨ name=latin1 "sftp" ∨ name=latin1 "serial" ∨
      name=latin1 "telnet" ∨ name=latin1 "discover") := by
  have hscheme : ∀name' : Text,0x3A∉name' →
      startsWithFolded (h++latin1 "://"++t) (name'++latin1 "://")=decide (name=name') :=
    fun name' => folded_scheme hfold hname
  have hssh := hscheme (latin1 "ssh") (by decide)
  have hsftp := hscheme (latin1 "sftp") (by decide)
  have hserial := hscheme (latin1 "serial") (by decide)
  have htelnet := hscheme (latin1 "telnet") (by decide)
  have hdiscover := hscheme (latin1 "discover") (by decide)
  refine ⟨hserial,hdiscover,htelnet,?_⟩
  have hssh' : latin1 "ssh"++latin1 "://"=latin1 "ssh://" := by decide
  have hsftp' : latin1 "sftp"++latin1 "://"=latin1 "sftp://" := by decide
  have hserial' : latin1 "serial"++latin1 "://"=kSerialScheme := by decide
  have htelnet' : latin1 "telnet"++latin1 "://"=kTelnetScheme := by decide
  have hdiscover' : latin1 "discover"++latin1 "://"=kDiscoverScheme := by decide
  rw [hssh'] at hssh
  rw [hsftp'] at hsftp
  rw [hserial'] at hserial
  rw [htelnet'] at htelnet
  rw [hdiscover'] at hdiscover
  rw [isRemote,hssh,hsftp,hserial,htelnet,hdiscover]
  simp only [Bool.decide_or,Bool.or_assoc]

private theorem parse_serial {h authority : Text} (hfold : h.map foldCase=latin1 "serial")
    (hslash : slash∉authority) (hne : authority≠[]) :
    parse q (h++latin1 "://"++authority++slash::x)=
      (serialNames authority).bind fun loc => (cutPath (slash::x)).map fun path => {loc with path} := by
  rw [List.append_assoc (h++latin1 "://")]
  obtain ⟨hserial,-,-,hremote⟩ := schemes (t:=authority++slash::x) hfold (by decide)
  have hrest : (h++latin1 "://"++(authority++slash::x)).drop kSerialScheme.length=authority++slash::x :=
    drop_scheme (by rw [length_of_fold hfold]; decide)
  have hlen : authority.length≠0 := by simpa using hne
  rw [parse,hremote,hserial]
  simp only [decide_true,or_true,true_or,Bool.not_true,Bool.false_eq_true,if_false,if_true]
  simp only [parseSerial,hrest,indexOf_append hslash,Option.bind_some,List.take_left,List.drop_left,hlen,if_false,
    serialNames,cutPath,isValid,kDefaultPort]
  have hempty : isValidSerialDeviceName []=false := rfl
  clear hrest hserial hremote
  split_ifs <;> simp_all

private theorem parse_discovered {h type id : Text} (hfold : h.map foldCase=latin1 "discover")
    (htype : slash∉type) (hid : slash∉id) (htype' : type≠[]) (hid' : id≠[]) :
    parse q (h++latin1 "://"++(type++slash::id)++slash::x)=
      (discoveredNames type id).bind fun loc => (cutPath (slash::x)).map fun path => {loc with path} := by
  rw [List.append_assoc (h++latin1 "://"),List.append_assoc type,List.cons_append]
  obtain ⟨hserial,hdiscover,-,hremote⟩ := schemes (t:=type++slash::(id++slash::x)) hfold (by decide)
  have hrest : (h++latin1 "://"++(type++slash::(id++slash::x))).drop kDiscoverScheme.length=type++
    slash::(id++slash::x) :=
    drop_scheme (by rw [length_of_fold hfold]; decide)
  have hlen : type.length≠0 := by simpa using htype'
  have hlen' : id.length≠0 := by simpa using hid'
  have hafter : (type++slash::(id++slash::x)).drop (type.length+1)=id++slash::x := by
    rw [← List.drop_drop,List.drop_left]
    rfl
  have hother : ¬latin1 "discover"=latin1 "serial" := by decide
  rw [parse,hremote,hserial,hdiscover]
  simp only [decide_true,or_true,Bool.not_true,Bool.false_eq_true,if_false,if_true,hother,decide_false]
  simp only [parseDiscovered,hrest,indexOf_append htype,hafter,indexOf_append hid,Option.bind_some,List.take_left,
    List.drop_left,hlen,hlen',if_false,discoveredNames,cutPath,isValid,kDefaultPort]
  clear hrest hserial hremote hdiscover hafter
  split_ifs <;> simp_all

private theorem urlHead_append {h authority t : Text} (hcolon : 0x3A∉h)
    (hends : ∀u∈authority,endsAuthority u=false) :
    urlHead (h++latin1 "://"++(authority++slash::t))=h++latin1 "://"++authority := by
  have hlen : (h++latin1 "://").length=h.length+3 := by simp [latin1]
  rw [urlHead,indexOf_scheme hcolon]
  simp only [← hlen,List.take_left,List.drop_left]
  rw [List.takeWhile_append_of_pos (by simpa using hends)]
  simp [endsAuthority,slash]

theorem parse_url {h authority name : Text} (hfold : h.map foldCase=name)
    (hends : ∀u∈authority,endsAuthority u=false)
    (htr : tr=.telnet ∧ name=latin1 "telnet" ∨ tr=.ssh ∧ (name=latin1 "ssh" ∨ name=latin1 "sftp")) :
    parse q (h++latin1 "://"++authority++slash::x)=
      (urlNames q tr (h++latin1 "://"++authority)).bind fun loc =>
        (urlPath q (slash::x)).map fun path => {loc with path} := by
  have hname : 0x3A∉name := by
    rcases htr with ⟨-,rfl⟩|⟨-,rfl|rfl⟩ <;> decide
  obtain ⟨hserial,hdiscover,htelnet,hremote⟩ := schemes (t:=authority++slash::x) hfold hname
  have hremote' : isRemote (h++latin1 "://"++(authority++slash::x))=true := by
    rw [hremote]
    rcases htr with ⟨-,rfl⟩|⟨-,rfl|rfl⟩ <;> decide
  have hserial' : startsWithFolded (h++latin1 "://"++(authority++slash::x)) kSerialScheme=false := by
    rw [hserial]
    rcases htr with ⟨-,rfl⟩|⟨-,rfl|rfl⟩ <;> decide
  have hdiscover' : startsWithFolded (h++latin1 "://"++(authority++slash::x)) kDiscoverScheme=false := by
    rw [hdiscover]
    rcases htr with ⟨-,rfl⟩|⟨-,rfl|rfl⟩ <;> decide
  have htelnet' : (if startsWithFolded (h++latin1 "://"++(authority++slash::x)) kTelnetScheme then Transport.telnet
      else Transport.ssh)=tr := by
    rw [htelnet]
    rcases htr with ⟨rfl,rfl⟩|⟨rfl,rfl|rfl⟩ <;> decide
  have hafter : (h++latin1 "://"++(authority++slash::x)).drop (h++latin1 "://"++authority).length=slash::x := by
    rw [← List.append_assoc,List.drop_left]
  rw [List.append_assoc (h++latin1 "://"),parse]
  simp only [hremote',hserial',hdiscover',htelnet',Bool.not_true,Bool.false_eq_true,if_false,
    urlHead_append (colon_of_fold hfold hname) hends,hafter,urlNames,urlPath,isValid]
  clear hremote hremote' hserial hserial' hdiscover hdiscover' htelnet htelnet' hafter
  cases q.readHead (h++latin1 "://"++authority) with
  | none => rfl
  | some url =>
    cases q.readPath (slash::x) with
    | none =>
      simp only [Option.bind_some,Option.bind_none,Option.map_none]
      split_ifs <;> rfl
    | some p =>
      simp only [Option.bind_some]
      split_ifs <;> simp_all
      omega

theorem headNames_serial {h authority : Text} (hfold : h.map foldCase=latin1 "serial") :
    headNames q .serial (h++latin1 "://"++authority)=serialNames authority := by
  have hrest : (h++latin1 "://"++authority).drop kSerialScheme.length=authority :=
    drop_scheme (by rw [length_of_fold hfold]; decide)
  rw [headNames,hrest]

theorem takeWhile_slash {a t : Text} (ha : slash∉a) : (a++slash::t).takeWhile (·≠slash)=a := by
  rw [List.takeWhile_append_of_pos]
  · simp
  · intro u hu
    simpa using fun he : u=slash => ha (he▸hu)

theorem dropWhile_slash {a t : Text} (ha : slash∉a) : (a++slash::t).dropWhile (·≠slash)=slash::t := by
  rw [List.dropWhile_append_of_pos]
  · simp
  · intro u hu
    simpa using fun he : u=slash => ha (he▸hu)

theorem headNames_discovered {h type id : Text} (hfold : h.map foldCase=latin1 "discover") (htype : slash∉type) :
    headNames q .discovered (h++latin1 "://"++(type++slash::id))=discoveredNames type id := by
  have hrest : (h++latin1 "://"++(type++slash::id)).drop kDiscoverScheme.length=type++slash::id :=
    drop_scheme (by rw [length_of_fold hfold]; decide)
  rw [headNames,hrest,takeWhile_slash htype,dropWhile_slash htype]
  rfl

/-- An address is read in two parts, its names from its head and its path from the rest. -/
theorem parse_head (hhead : HeadOf tr head) :
    parse q (head++slash::x)=(headNames q tr head).bind fun loc => (pathOf q tr (slash::x)).map fun path =>
    {loc with path} := by
  cases hhead with
  | serial hfold hslash hne => rw [parse_serial hfold hslash hne,headNames_serial hfold]; rfl
  | discovered hfold htype hid htype' hid' =>
    rw [parse_discovered hfold htype hid htype' hid',headNames_discovered hfold htype]; rfl
  | telnet hfold hends => exact parse_url hfold hends (.inl ⟨rfl,rfl⟩)
  | ssh hfold hends => exact parse_url rfl hends (.inr ⟨rfl,hfold⟩)

/-- A head with nothing after it addresses no log. -/
theorem discovered_pathless {h type id : Text} (hfold : h.map foldCase=latin1 "discover") (htype : slash∉type)
    (hid : slash∉id) : parse q (h++latin1 "://"++(type++slash::id))=none := by
  obtain ⟨hserial,hdiscover,-,hremote⟩ := schemes (t:=type++slash::id) hfold (by decide)
  have hrest : (h++latin1 "://"++(type++slash::id)).drop kDiscoverScheme.length=type++slash::id :=
    drop_scheme (by rw [length_of_fold hfold]; decide)
  have hafter : (type++slash::id).drop (type.length+1)=id := by
    rw [← List.drop_drop,List.drop_left]
    rfl
  have hother : ¬latin1 "discover"=latin1 "serial" := by decide
  rw [parse,hremote,hserial,hdiscover]
  simp only [decide_true,or_true,Bool.not_true,Bool.false_eq_true,if_false,if_true,hother,decide_false]
  simp only [parseDiscovered,hrest,indexOf_append htype,hafter,indexOf_none hid,Option.bind_some,Option.bind_none]

end Heads

/-- What `QUrl` promises: a path that is not empty begins at the separator, the normal form of a head is a fixed
point, and a path is spelled separator by separator so that it reads back. -/
structure QUrl.Lawful (q : QUrl) : Prop where
  rooted {t p : Text} {u : UInt16} : q.readPath t=some (u::p) → u=slash ∧ ∃x,t=slash::x
  head_shape {head : Text} {url : Authority} {port : ℤ} {scheme : Text} : q.readHead head=some url → url.host≠[] →
    scheme=latin1 "ssh" ∨ scheme=latin1 "telnet" → url.port.getD port=port → 1≤port → port≤65535 →
    ∃authority,q.spellHead scheme ⟨url.userName,url.host,some port⟩=scheme++latin1 "://"++authority ∧
      ∀u∈authority,endsAuthority u=false
  head_reads {head : Text} {url : Authority} {port : ℤ} {scheme : Text} : q.readHead head=some url → url.host≠[] →
    holdsNoncharacter url.userName=false → holdsNoncharacter url.host=false →
    scheme=latin1 "ssh" ∨ scheme=latin1 "telnet" → url.port.getD port=port → 1≤port → port≤65535 →
    q.readHead (q.spellHead scheme ⟨url.userName,url.host,some port⟩)=some ⟨url.userName,url.host,some port⟩
  spell_nil : q.spellPath []=[]
  spell_slash (a b : Text) : q.spellPath (a++slash::b)=q.spellPath a++slash::q.spellPath b
  slash_of_spell {a : Text} : slash∈q.spellPath a → slash∈a
  path_reads {t p r : Text} : q.readPath t=some (p++r) → [slash] <+: p → r=[] ∨ [slash] <+: r →
    holdsNoncharacter p=false → q.readPath (q.spellPath p)=some p

/-- A path that is not empty begins at the separator. -/
def QUrl.Rooted (q : QUrl) : Prop := ∀(t p : Text) (u : UInt16),q.readPath t=some (u::p) → u=slash ∧ ∃x,t=slash::x

theorem QUrl.Lawful.isRooted {q : QUrl} (hq : q.Lawful) : q.Rooted := fun _ _ _ => hq.rooted

section Parsed
variable {q : QUrl} {s head rawPath : Text} {loc : RemoteLocation} {tr : Transport}

private theorem serial_head (hserial : startsWithFolded s kSerialScheme) (h : parseSerial s=some loc) :
    ∃head x,s=head++slash::x ∧ HeadOf .serial head := by
  have hname : kSerialScheme=latin1 "serial"++latin1 "://" := by decide
  obtain ⟨head,t,rfl,hfold⟩ := scheme_of_folded (hname▸hserial)
  have hrest : (head++latin1 "://"++t).drop kSerialScheme.length=t :=
    drop_scheme (by rw [length_of_fold hfold]; decide)
  rw [parseSerial,hrest,Option.bind_eq_some_iff] at h
  obtain ⟨cut,hcut,h⟩ := h
  obtain ⟨a,b,rfl,rfl,ha⟩ := indexOf_cut hcut
  refine ⟨head++latin1 "://"++a,b,by simp,.serial hfold ha ?_⟩
  rintro rfl
  simp at h

private theorem discovered_head (hdiscover : startsWithFolded s kDiscoverScheme) (h : parseDiscovered s=some loc) :
    ∃head x,s=head++slash::x ∧ HeadOf .discovered head := by
  have hname : kDiscoverScheme=latin1 "discover"++latin1 "://" := by decide
  obtain ⟨head,t,rfl,hfold⟩ := scheme_of_folded (hname▸hdiscover)
  have hrest : (head++latin1 "://"++t).drop kDiscoverScheme.length=t :=
    drop_scheme (by rw [length_of_fold hfold]; decide)
  rw [parseDiscovered,hrest,Option.bind_eq_some_iff] at h
  obtain ⟨first,hfirst,h⟩ := h
  obtain ⟨a,b,rfl,rfl,ha⟩ := indexOf_cut hfirst
  have hafter : (a++slash::b).drop (a.length+1)=b := by
    rw [← List.drop_drop,List.drop_left]
    rfl
  rw [hafter,Option.bind_eq_some_iff] at h
  obtain ⟨idLength,hid,h⟩ := h
  obtain ⟨i,x,rfl,rfl,hi⟩ := indexOf_cut hid
  refine ⟨head++latin1 "://"++(a++slash::i),x,by simp,.discovered hfold ha hi ?_ ?_⟩
  · rintro rfl
    simp at h
  · rintro rfl
    simp at h

private theorem url_head {urlPath : Text} (hq : q.Rooted)
    (hscheme : startsWithFolded s (latin1 "ssh://") ∨ startsWithFolded s (latin1 "sftp://") ∨
      startsWithFolded s kTelnetScheme)
    (hread : q.readPath (s.drop (urlHead s).length)=some urlPath) (hne : urlPath≠[]) :
    ∃tr head x,s=head++slash::x ∧ HeadOf tr head := by
  obtain ⟨head,t,rfl,hfold⟩ : ∃head t,s=head++latin1 "://"++t ∧ ((head.map foldCase=latin1 "ssh" ∨
      head.map foldCase=latin1 "sftp") ∨ head.map foldCase=latin1 "telnet") := by
    have hssh : latin1 "ssh://"=latin1 "ssh"++latin1 "://" := by decide
    have hsftp : latin1 "sftp://"=latin1 "sftp"++latin1 "://" := by decide
    have htelnet : kTelnetScheme=latin1 "telnet"++latin1 "://" := by decide
    rw [hssh,hsftp,htelnet] at hscheme
    rcases hscheme with hs|hs|hs
    · obtain ⟨head,t,rfl,hfold⟩ := scheme_of_folded hs
      exact ⟨head,t,rfl,.inl (.inl hfold)⟩
    · obtain ⟨head,t,rfl,hfold⟩ := scheme_of_folded hs
      exact ⟨head,t,rfl,.inl (.inr hfold)⟩
    · obtain ⟨head,t,rfl,hfold⟩ := scheme_of_folded hs
      exact ⟨head,t,rfl,.inr hfold⟩
  have hcolon : 0x3A∉head := by
    rcases hfold with (hfold|hfold)|hfold <;> exact colon_of_fold hfold (by decide)
  have hlen : (head++latin1 "://").length=head.length+3 := by simp [latin1]
  have hurl : urlHead (head++latin1 "://"++t)=head++latin1 "://"++t.takeWhile (fun u => !endsAuthority u) := by
    rw [urlHead,indexOf_scheme hcolon]
    simp only [← hlen,List.take_left,List.drop_left]
  have hends : ∀u∈t.takeWhile (fun u => !endsAuthority u),endsAuthority u=false := by
    intro u hu
    simpa using List.mem_takeWhile_imp hu
  have hsplit : t=t.takeWhile (fun u => !endsAuthority u)++t.dropWhile (fun u => !endsAuthority u) :=
    List.takeWhile_append_dropWhile.symm
  generalize t.takeWhile (fun u => !endsAuthority u)=a at hurl hends hsplit
  generalize t.dropWhile (fun u => !endsAuthority u)=rest at hsplit
  subst hsplit
  rw [hurl,← List.append_assoc,List.drop_left] at hread
  obtain ⟨u,p,rfl⟩ := List.exists_cons_of_ne_nil hne
  obtain ⟨-,x,rfl⟩ := hq _ _ _ hread
  cases hfold with
  | inl hfold => exact ⟨.ssh,head++latin1 "://"++a,x,by simp,.ssh hfold hends⟩
  | inr hfold => exact ⟨.telnet,head++latin1 "://"++a,x,by simp,.telnet hfold hends⟩

/-- Every address that is accepted has a head, and a path after it. -/
theorem exists_head (hq : q.Rooted) (h : parse q s=some loc) : ∃tr head x,s=head++slash::x ∧ HeadOf tr head := by
  unfold parse at h
  split at h
  case isTrue => cases h
  case isFalse hremote =>
  split at h
  case isTrue hserial => exact ⟨_,serial_head hserial h⟩
  case isFalse hserial =>
  split at h
  case isTrue hdiscover => exact ⟨_,discovered_head hdiscover h⟩
  case isFalse hdiscover =>
    rw [Option.bind_eq_some_iff] at h
    obtain ⟨url,-,h⟩ := h
    rw [Option.bind_eq_some_iff] at h
    obtain ⟨urlPath,hread,h⟩ := h
    have hscheme : startsWithFolded s (latin1 "ssh://") ∨ startsWithFolded s (latin1 "sftp://") ∨
        startsWithFolded s kTelnetScheme := by
      simp only [Bool.not_eq_true] at hserial hdiscover
      simp only [isRemote,hserial,hdiscover,Bool.or_false,Bool.not_eq_true,Bool.not_eq_false',
        Bool.or_eq_true] at hremote
      exact or_assoc.mp hremote
    refine url_head hq hscheme hread ?_
    rintro rfl
    have hnil : pathFromUrl []=[] := by decide
    simp [isValid,hnil] at h

theorem headNames_eq (hhead : HeadOf tr head) (h : headNames q tr head=some loc) : loc.transport=tr ∧
    loc.path=[] := by
  cases hhead with
  | serial =>
    simp only [headNames,serialNames,Option.ite_none_right_eq_some,Option.some.injEq] at h
    obtain ⟨-,rfl⟩ := h
    exact ⟨rfl,rfl⟩
  | discovered =>
    simp only [headNames,discoveredNames,Option.ite_none_right_eq_some,Option.some.injEq] at h
    obtain ⟨-,rfl⟩ := h
    exact ⟨rfl,rfl⟩
  | telnet =>
    simp only [headNames,urlNames,Option.bind_eq_some_iff,Option.ite_none_right_eq_some,Option.some.injEq] at h
    obtain ⟨-,-,-,rfl⟩ := h
    exact ⟨rfl,rfl⟩
  | ssh =>
    simp only [headNames,urlNames,Option.bind_eq_some_iff,Option.ite_none_right_eq_some,Option.some.injEq] at h
    obtain ⟨-,-,-,rfl⟩ := h
    exact ⟨rfl,rfl⟩

/-- The names and the path of an accepted address. -/
structure Accepted (q : QUrl) (s : Text) (loc : RemoteLocation) (head x : Text) : Prop where
  spelled : s=head++slash::x
  headOf : HeadOf loc.transport head
  names : headNames q loc.transport head=some {loc with path := []}
  path : pathOf q loc.transport (slash::x)=some loc.path

theorem accepted_of_parse (hq : q.Rooted) (h : parse q s=some loc) : ∃head x,Accepted q s loc head x := by
  obtain ⟨tr,head,x,rfl,hhead⟩ := exists_head hq h
  rw [parse_head hhead,Option.bind_eq_some_iff] at h
  obtain ⟨names,hnames,h⟩ := h
  obtain ⟨path,hpath,rfl⟩ := Option.map_eq_some_iff.mp h
  obtain ⟨rfl,hnil⟩ := headNames_eq hhead hnames
  refine ⟨head,x,rfl,hhead,?_,hpath⟩
  rw [hnames]
  congr 1
  cases names
  cases hnil
  rfl

theorem Accepted.parse {x : Text} (h : Accepted q s loc head x) : parse q s=some loc := by
  rw [h.spelled,parse_head h.headOf,h.names,h.path]
  rfl

end Parsed
end Loftail
