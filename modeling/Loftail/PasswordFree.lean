import Loftail.LogNames
import Loftail.LogPathSpelling

/-! # Addresses that differ in the password alone -/
namespace Loftail
open QString RemoteLocation ArchiveLocation

def schemeNames : List Text := [latin1 "ssh",latin1 "sftp",latin1 "serial",latin1 "telnet",latin1 "discover"]

/-- What stands around the password of a remote address. The password begins after the first colon of the
authority and ends before its last `@`; the authority ends at the next separator. -/
structure AroundPassword where
  scheme : Text
  user : Text
  host : Text
  rest : Text
  known : scheme.map foldCase∈schemeNames
  user_plain : slash∉user ∧ 0x3A∉user
  host_plain : slash∉host ∧ 0x40∉host
  rest_apart : rest=[] ∨ [slash] <+: rest

namespace AroundPassword
variable (a : AroundPassword)

def authority (password : Text) : Text := a.user++0x3A::(password++0x40::a.host)

/-- The address with a password. -/
def spell (password : Text) : Text := a.scheme++latin1 "://"++(a.authority password++a.rest)

/-- Every other part of the address. -/
def kept : Text := a.scheme++latin1 "://"++(a.user++0x40::a.host++a.rest)

end AroundPassword

/-- What `QUrl` promises: a path that is not empty begins at the separator, and nothing it keeps of an authority
is read from the password. -/
structure QUrl.CutsUserinfo (q : QUrl) : Prop where
  rooted : q.Rooted
  password_unread {scheme user p p' host : Text} {url url' : Authority} : 0x3A∉scheme → 0x3A∉user → 0x40∉host →
    (∀u∈user++0x3A::(p++0x40::host),endsAuthority u=false) →
      (∀u∈user++0x3A::(p'++0x40::host),endsAuthority u=false) →
    q.readHead (scheme++latin1 "://"++(user++0x3A::(p++0x40::host)))=some url →
    q.readHead (scheme++latin1 "://"++(user++0x3A::(p'++0x40::host)))=some url' → url=url'

section
variable {q : QUrl} {fs : FileSystem} {a : AroundPassword} {p p' head x : Text} {loc loc' : RemoteLocation}
  {tr : Transport}

theorem AroundPassword.colon_free (a : AroundPassword) : 0x3A∉a.scheme := by
  have hnames : ∀name∈schemeNames,0x3A∉name := by decide
  exact colon_of_fold rfl (hnames _ a.known)

theorem spell_remote (a : AroundPassword) (p : Text) : isRemote (a.spell p)=true := by
  have hnames : ∀name∈schemeNames,0x3A∉name := by decide
  rw [AroundPassword.spell,(schemes rfl (hnames _ a.known)).2.2.2,decide_eq_true_iff]
  have hknown := a.known
  simp only [schemeNames,List.mem_cons,List.not_mem_nil,or_false] at hknown
  exact hknown

theorem authority_slash (hp : slash∉p) : slash∉a.authority p := by
  have hsigns : slash≠0x3A ∧ slash≠0x40 := by decide
  simp only [AroundPassword.authority,List.mem_append,List.mem_cons,not_or]
  exact ⟨a.user_plain.1,hsigns.1,hp,hsigns.2,a.host_plain.1⟩

/-- The authority as it is written. -/
def addressAuthority (s : Text) : Text :=
  match indexOf (latin1 "://") s with
  | some schemeEnd => (s.drop (schemeEnd+3)).takeWhile (·≠slash)
  | none => []

private theorem remote_scheme {s : Text} (h : isRemote s) : ∃scheme t,s=scheme++latin1 "://"++t ∧
    scheme.map foldCase∈schemeNames := by
  have hsplit : ∀name∈schemeNames,startsWithFolded s (name++latin1 "://")=true →
      ∃scheme t,s=scheme++latin1 "://"++t ∧ scheme.map foldCase∈schemeNames := by
    intro name hname hstart
    obtain ⟨scheme,t,hs,hfold⟩ := scheme_of_folded hstart
    exact ⟨scheme,t,hs,hfold▸hname⟩
  simp only [isRemote,Bool.or_eq_true] at h
  rcases h with (((h|h)|h)|h)|h
  · exact hsplit (latin1 "ssh") (by decide) h
  · exact hsplit (latin1 "sftp") (by decide) h
  · exact hsplit (latin1 "serial") (by decide) h
  · exact hsplit (latin1 "telnet") (by decide) h
  · exact hsplit (latin1 "discover") (by decide) h

/-- Every remote address with a password in its authority is one that stands around it. -/
theorem exists_around {s user host : Text} (hremote : isRemote s)
    (hauthority : addressAuthority s=user++0x3A::(p++0x40::host)) (huser : 0x3A∉user) (hhost : 0x40∉host) :
    ∃a : AroundPassword,s=a.spell p ∧ a.user=user ∧ a.host=host ∧ slash∉p := by
  obtain ⟨scheme,t,rfl,hknown⟩ := remote_scheme hremote
  have hnames : ∀name∈schemeNames,0x3A∉name := by decide
  have hlen : (scheme++latin1 "://").length=scheme.length+3 := by simp [latin1]
  rw [addressAuthority,indexOf_scheme (colon_of_fold rfl (hnames _ hknown))] at hauthority
  simp only [← hlen,List.drop_left] at hauthority
  have hplain : ∀u∈t.takeWhile (·≠slash),u≠slash := by
    intro u hu
    simpa using List.mem_takeWhile_imp hu
  rw [hauthority] at hplain
  have hrest : t.dropWhile (·≠slash)=[] ∨ [slash] <+: t.dropWhile (·≠slash) := by
    cases hd : t.dropWhile (·≠slash) with
    | nil => exact .inl rfl
    | cons u r =>
      have hu := List.head?_dropWhile_not (·≠slash) t
      rw [hd] at hu
      simp only [List.head?_cons] at hu
      obtain rfl : u=slash := by simpa using hu
      exact .inr ⟨r,rfl⟩
  have hwhole : t=(user++0x3A::(p++0x40::host))++t.dropWhile (·≠slash) := by
    rw [← hauthority,List.takeWhile_append_dropWhile]
  refine ⟨⟨scheme,user,host,t.dropWhile (·≠slash),hknown,⟨?_,huser⟩,⟨?_,hhost⟩,hrest⟩,?_,rfl,rfl,?_⟩
  · exact fun hu => hplain slash (by simp [hu]) rfl
  · exact fun hu => hplain slash (by simp [hu]) rfl
  · exact congrArg (scheme++latin1 "://"++·) hwhole
  · exact fun hu => hplain slash (by simp [hu]) rfl

/-! ### The cut -/

/-- The authority ends at the next separator, or with the address. -/
theorem authority_ends {authority rest : Text} (hslash : slash∉authority) (hrest : rest=[] ∨ [slash] <+: rest) :
    indexOf [slash] (authority++rest)=some authority.length ∨
      indexOf [slash] (authority++rest)=none ∧ (authority++rest).length=authority.length := by
  rcases hrest with rfl|⟨t,rfl⟩
  · refine .inr ⟨?_,by rw [List.append_nil]⟩
    rw [List.append_nil]
    exact indexOf_none hslash
  · exact .inl (indexOf_append hslash)

theorem withoutPassword_spell (a : AroundPassword) (hp : slash∉p) : withoutPassword (a.spell p)=a.kept := by
  have hremote := spell_remote a p
  have hlen : (a.scheme++latin1 "://").length=a.scheme.length+3 := by simp [latin1]
  have hsum : (a.spell p).length=a.scheme.length+3+(a.authority p++a.rest).length := by
    rw [AroundPassword.spell,List.length_append,hlen]
  have hmark : lastIndexOf 0x40 (a.scheme++latin1 "://"++a.authority p)=
      some (a.scheme.length+3+(a.user.length+(1+p.length))) := by
    have hshape : a.scheme++latin1 "://"++a.authority p=(a.scheme++latin1 "://"++(a.user++0x3A::p))++
      0x40::a.host := by
      simp [AroundPassword.authority]
    rw [hshape,lastIndexOf_append a.host_plain.2,List.length_append,hlen]
    simp
    omega
  have hcolon : indexOf [0x3A] (a.authority p++a.rest)=some a.user.length := by
    rw [AroundPassword.authority,List.append_assoc,List.cons_append]
    exact indexOf_append a.user_plain.2
  have htext : a.spell p=a.scheme++latin1 "://"++(a.authority p++a.rest) := rfl
  have hscheme : indexOf (latin1 "://") (a.spell p)=some a.scheme.length := indexOf_scheme a.colon_free
  have hafter : (a.spell p).drop (a.scheme.length+3)=a.authority p++a.rest := by rw [htext,← hlen,List.drop_left]
  have hbefore : (a.spell p).take (a.scheme.length+3+(a.authority p).length)=a.scheme++latin1 "://"++
    a.authority p := by
    rw [htext,← List.append_assoc,List.take_left' (by rw [List.length_append,hlen])]
  have huser : (a.spell p).take (a.scheme.length+3+a.user.length)=a.scheme++latin1 "://"++a.user := by
    have hshape : a.spell p=(a.scheme++latin1 "://"++a.user)++(0x3A::(p++0x40::a.host)++a.rest) := by
      simp [htext,AroundPassword.authority]
    rw [hshape,List.take_left' (by rw [List.length_append,hlen])]
  have hhost : (a.spell p).drop (a.scheme.length+3+(a.user.length+(1+p.length)))=0x40::a.host++a.rest := by
    have hshape : a.spell p=(a.scheme++latin1 "://"++(a.user++0x3A::p))++(0x40::a.host++a.rest) := by
      simp [htext,AroundPassword.authority]
    rw [hshape,List.drop_left' (by rw [List.length_append,hlen]; simp; omega)]
  have hne : ¬a.scheme.length+3+(a.authority p).length≤a.scheme.length+3 := by
    rw [AroundPassword.authority,List.length_append,List.length_cons]
    omega
  have hin : ¬a.scheme.length+3+(a.user.length+(1+p.length)) < a.scheme.length+3 := by omega
  have horder : ¬a.scheme.length+3+(a.user.length+(1+p.length)) < a.scheme.length+3+a.user.length := by omega
  have hkept : a.scheme++latin1 "://"++a.user++(0x40::a.host++a.rest)=a.kept := by simp [AroundPassword.kept]
  rw [withoutPassword,hremote,hscheme]
  rcases authority_ends (authority_slash (a:=a) hp) a.rest_apart with hend|⟨hend,hwhole⟩
  · simp only [Bool.not_true,Bool.false_eq_true,if_false,hafter,hend,hne,hbefore,hmark,hin,hcolon,horder,
      huser,hhost,hkept]
  · rw [hwhole] at hsum
    simp only [Bool.not_true,Bool.false_eq_true,if_false,hafter,hsum,hend,hne,hbefore,hmark,hin,hcolon,
      horder,huser,hhost,hkept]

/-! ### What is read of an address -/

/-- A head ends at the first separator after its scheme. -/
theorem head_unique {h scheme auth auth' rest : Text} (hh : 0x3A∉h) (hs : 0x3A∉scheme) (ha : slash∉auth)
    (ha' : slash∉auth') (hrest : rest=[] ∨ [slash] <+: rest)
    (heq : h++latin1 "://"++(auth'++slash::x)=scheme++latin1 "://"++(auth++rest)) : h=scheme ∧ auth'=auth ∧
    rest=slash::x := by
  have hlen := congrArg (indexOf (latin1 "://")) heq
  rw [indexOf_scheme hh,indexOf_scheme hs,Option.some.injEq] at hlen
  obtain ⟨hhead,htail⟩ := List.append_inj heq (by simp [hlen])
  obtain ⟨rfl,-⟩ := List.append_inj hhead hlen
  rcases hrest with rfl|⟨t,rfl⟩
  · rw [List.append_nil] at htail
    exact absurd (htail▸by simp) ha
  · have hcut := congrArg (indexOf [slash]) htail
    rw [List.singleton_append] at htail hcut
    rw [indexOf_append ha,indexOf_append ha',Option.some.injEq] at hcut
    obtain ⟨rfl,hrest⟩ := List.append_inj htail hcut
    exact ⟨rfl,rfl,hrest.symm⟩

theorem head_scheme {h scheme auth auth' : Text} (hh : 0x3A∉h) (hs : 0x3A∉scheme)
    (heq : h++latin1 "://"++auth'=scheme++latin1 "://"++auth) : h=scheme ∧ auth'=auth := by
  have hlen := congrArg (indexOf (latin1 "://")) heq
  rw [indexOf_scheme hh,indexOf_scheme hs,Option.some.injEq] at hlen
  obtain ⟨hhead,htail⟩ := List.append_inj heq (by simp [hlen])
  exact ⟨(List.append_inj hhead hlen).1,htail⟩

/-- What the head of an accepted address is when its authority has an account in it: no discovered device has
one. -/
theorem accepted_spell (hp : slash∉p) (h : Accepted q (a.spell p) loc head x) :
    loc.transport≠.discovered ∧ head=a.scheme++latin1 "://"++a.authority p ∧ a.rest=slash::x := by
  have hhead := h.headOf
  have hnames := h.names
  have hspelled := h.spelled
  have hslash := authority_slash (a:=a) hp
  clear h
  generalize loc.transport=tr at hhead hnames
  cases hhead with
  | @serial h auth hfold ha =>
    rw [List.append_assoc (h++latin1 "://")] at hspelled
    obtain ⟨rfl,rfl,hrest⟩ := head_unique
      (colon_of_fold hfold (by decide)) a.colon_free hslash ha a.rest_apart hspelled.symm
    exact ⟨by simp,rfl,hrest⟩
  | @discovered h type id hfold htype hid =>
    rw [List.append_assoc (h++latin1 "://"),List.append_assoc type,List.cons_append] at hspelled
    obtain ⟨rfl,rfl,-⟩ := head_unique
      (colon_of_fold hfold (by decide)) a.colon_free hslash htype a.rest_apart hspelled.symm
    have hmark : (a.authority p).contains 0x40=true := by simp [AroundPassword.authority]
    rw [headNames_discovered hfold htype,discoveredNames,hmark] at hnames
    simp at hnames
  | @telnet h auth hfold hends =>
    rw [List.append_assoc (h++latin1 "://")] at hspelled
    obtain ⟨rfl,rfl,hrest⟩ :=
      head_unique (colon_of_fold hfold (by decide)) a.colon_free hslash
        (ends_slash hends) a.rest_apart hspelled.symm
    exact ⟨by simp,rfl,hrest⟩
  | @ssh h auth hfold hends =>
    rw [List.append_assoc (h++latin1 "://")] at hspelled
    have hcolon : 0x3A∉h := by rcases hfold with hfold|hfold <;> exact colon_of_fold hfold (by decide)
    obtain ⟨rfl,rfl,hrest⟩ := head_unique hcolon a.colon_free hslash (ends_slash hends) a.rest_apart hspelled.symm
    exact ⟨by simp,rfl,hrest⟩

/-- The transport of a head is what its scheme names. -/
theorem head_named {scheme auth : Text} (hcolon : 0x3A∉scheme) (h : HeadOf tr (scheme++latin1 "://"++auth))
    (htr : tr≠.discovered) :
    tr=.serial ∧ scheme.map foldCase=latin1 "serial" ∨
      (tr=.telnet ∧ scheme.map foldCase=latin1 "telnet" ∨
        tr=.ssh ∧ (scheme.map foldCase=latin1 "ssh" ∨ scheme.map foldCase=latin1 "sftp")) ∧
        ∀u∈auth,endsAuthority u=false := by
  generalize hhead : scheme++latin1 "://"++auth=head at h
  cases h with
  | serial hfold =>
    obtain ⟨rfl,rfl⟩ := head_scheme hcolon (colon_of_fold hfold (by decide)) hhead
    exact .inl ⟨rfl,hfold⟩
  | discovered => exact absurd rfl htr
  | telnet hfold hends =>
    obtain ⟨rfl,rfl⟩ := head_scheme hcolon (colon_of_fold hfold (by decide)) hhead
    exact .inr ⟨.inl ⟨rfl,hfold⟩,hends⟩
  | ssh hfold hends =>
    have hcolon' : ∀h : Text,h.map foldCase=latin1 "ssh" ∨ h.map foldCase=latin1 "sftp" → 0x3A∉h := by
      rintro h (hfold|hfold) <;> exact colon_of_fold hfold (by decide)
    obtain ⟨rfl,rfl⟩ := head_scheme hcolon (hcolon' _ hfold) hhead
    exact .inr ⟨.inr ⟨rfl,hfold⟩,hends⟩

private theorem splitUserinfo_authority (a : AroundPassword) (p : Text) : splitUserinfo
    (a.authority p)=(a.user,a.host) := by
  have hshape : a.authority p=(a.user++0x3A::p)++0x40::a.host := by simp [AroundPassword.authority]
  have hdrop : ((a.user++0x3A::p)++0x40::a.host).drop ((a.user++0x3A::p).length+1)=a.host := by
    rw [← List.drop_drop,List.drop_left]
    rfl
  rw [hshape,splitUserinfo,lastIndexOf_append a.host_plain.2]
  simp only [List.take_left,indexOf_append a.user_plain.2,hdrop]

/-- Nothing that is kept of an authority tells one password from another. -/
theorem names_password (hq : q.CutsUserinfo) (htr : tr≠.discovered)
    (hhead : HeadOf tr (a.scheme++latin1 "://"++a.authority p))
    (hhead' : HeadOf tr (a.scheme++latin1 "://"++a.authority p'))
    (h : headNames q tr (a.scheme++latin1 "://"++a.authority p)=some loc)
    (h' : headNames q tr (a.scheme++latin1 "://"++a.authority p')=some loc') : loc=loc' := by
  have hurl : ∀tr,(∀u∈a.authority p,endsAuthority u=false) → (∀u∈a.authority p',endsAuthority u=false) →
      urlNames q tr (a.scheme++latin1 "://"++a.authority p)=some loc →
      urlNames q tr (a.scheme++latin1 "://"++a.authority p')=some loc' → loc=loc' := by
    intro tr hends hends' h h'
    obtain ⟨url,hread,h⟩ := Option.bind_eq_some_iff.mp h
    obtain ⟨url',hread',h'⟩ := Option.bind_eq_some_iff.mp h'
    obtain rfl := hq.password_unread a.colon_free a.user_plain.2 a.host_plain.2 hends hends' hread hread'
    exact Option.some.inj (h.symm.trans h')
  rcases head_named a.colon_free hhead htr with ⟨rfl,hfold⟩|⟨hname,hends⟩
  · rw [headNames_serial hfold,serialNames,splitUserinfo_authority] at h h'
    simp only [Option.ite_none_right_eq_some,Option.some.injEq] at h h'
    exact h.2.symm.trans h'.2
  · rcases head_named a.colon_free hhead' htr with ⟨rfl,-⟩|⟨-,hends'⟩
    · rcases hname with ⟨hname,-⟩|⟨hname,-⟩ <;> cases hname
    · rcases hname with ⟨rfl,-⟩|⟨rfl,-⟩
      · exact hurl .telnet hends hends' h h'
      · exact hurl .ssh hends hends' h h'

private theorem transport_password {auth auth' scheme : Text} {tr' : Transport} (hcolon : 0x3A∉scheme)
    (h : HeadOf tr (scheme++latin1 "://"++auth)) (h' : HeadOf tr' (scheme++latin1 "://"++auth'))
    (htr : tr≠.discovered) (htr' : tr'≠.discovered) : tr=tr' := by
  have hnames : latin1 "serial"≠latin1 "telnet" ∧ latin1 "serial"≠latin1 "ssh" ∧ latin1 "serial"≠latin1 "sftp" ∧
      latin1 "telnet"≠latin1 "ssh" ∧ latin1 "telnet"≠latin1 "sftp" := by decide
  rcases head_named hcolon h htr with ⟨rfl,hf⟩|⟨⟨rfl,hf⟩|⟨rfl,hf⟩,-⟩ <;>
    rcases head_named hcolon h' htr' with ⟨rfl,hf'⟩|⟨⟨rfl,hf'⟩|⟨rfl,hf'⟩,-⟩ <;> simp_all

/-- Two accepted addresses that differ in the password alone are one log. -/
theorem parse_password (hq : q.CutsUserinfo) (fs : FileSystem) (hp : slash∉p) (hp' : slash∉p')
    (h : parse q (a.spell p)=some loc) (h' : parse q (a.spell p')=some loc') :
    loc=loc' ∧ split q fs (a.spell p)=split q fs (a.spell p') := by
  obtain ⟨head,x,hacc⟩ := accepted_of_parse hq.rooted h
  obtain ⟨head',x',hacc'⟩ := accepted_of_parse hq.rooted h'
  obtain ⟨htr,rfl,hx⟩ := accepted_spell hp hacc
  obtain ⟨htr',rfl,hx'⟩ := accepted_spell hp' hacc'
  have htransport := transport_password a.colon_free hacc.headOf hacc'.headOf htr htr'
  obtain rfl : x=x' := by simpa using hx.symm.trans hx'
  have hnames := names_password hq htr hacc.headOf (htransport▸hacc'.headOf) hacc.names (htransport▸hacc'.names)
  have hpath : loc.path=loc'.path := by
    have hback := hacc'.path
    rw [← htransport,hacc.path] at hback
    exact Option.some.inj hback
  obtain rfl : loc=loc' := by
    cases loc
    cases loc'
    simp_all
  refine ⟨rfl,?_⟩
  have hbefore : ∀head,cutsBeforePath loc.transport head=false := by
    intro head
    cases htrans : loc.transport <;> simp_all [cutsBeforePath]
  rw [split_accepted fs hacc,split_accepted fs hacc',hbefore,hbefore]

/-! ### What is shown -/

theorem split_refused (fs : FileSystem) {s : Text} (hremote : isRemote s) (h : parse q s=none) :
    split q fs s=none := by
  rw [split,hremote,h]
  split <;> rfl

/-- An address that spells no log is its own normal form. -/
theorem normalize_refused (fs : FileSystem) {s : Text} (hremote : isRemote s) (h : parse q s=none) :
    normalizeLogPath q fs s=s := by
  rw [normalizeLogPath,once_refused fs hremote h,passes_of_fixed (once_refused fs hremote h)]

/-- What is shown of an address is told from what it parses to and splits into, and of a refused one from what
is left when its password is cut out. -/
theorem shown_alike {s s' : Text} (hremote : isRemote s) (hremote' : isRemote s')
    (hparse : parse q s=parse q s') (hsplit : split q fs s=split q fs s')
    (hcut : parse q s=none → withoutPassword s=withoutPassword s') :
    logSourceDisplayPath q fs s=logSourceDisplayPath q fs s' ∧ nameParts q fs s=nameParts q fs s' := by
  cases h : parse q s with
  | none =>
    have h' := hparse.symm.trans h
    have hwithout := hcut h
    have htail : tailName s=tailName s' := by rw [tailName,tailName,hwithout,hremote,hremote']
    constructor
    · rw [logSourceDisplayPath,logSourceDisplayPath,normalize_refused fs hremote h,normalize_refused fs hremote' h',
        decodedAddress,decodedAddress,split_refused fs hremote h,split_refused fs hremote' h',h,h']
      exact hwithout
    · rw [nameParts,nameParts,split_refused fs hremote h,split_refused fs hremote' h']
      simp only [plainNameParts,h,h',hremote,hremote',if_true,htail]
  | some loc =>
    have h' := hparse.symm.trans h
    have honce : normalizeLogPathOnce q fs s=normalizeLogPathOnce q fs s' := by
      rw [normalizeLogPathOnce,normalizeLogPathOnce,hsplit,RemoteLocation.normalize,RemoteLocation.normalize,h,h']
    constructor
    · rw [logSourceDisplayPath,logSourceDisplayPath,normalizeLogPath,normalizeLogPath,honce]
    · rw [nameParts,nameParts,hsplit]
      simp only [plainNameParts,h,h']

/-- Nothing that is shown or stored of an address depends on its password. -/
theorem password_free (q : QUrl) (fs : FileSystem) (hq : q.CutsUserinfo) (a : AroundPassword) (p p' : Text)
    (hp : slash∉p) (hp' : slash∉p') (hsame : (parse q (a.spell p)).isSome=(parse q (a.spell p')).isSome) :
    withoutPassword (a.spell p)=a.kept ∧ withoutPassword (a.spell p')=a.kept ∧
      logSourceDisplayPath q fs (a.spell p)=logSourceDisplayPath q fs (a.spell p') ∧
      logSourceDisplayName q fs (a.spell p)=logSourceDisplayName q fs (a.spell p') ∧
      logSourceBareName q fs (a.spell p)=logSourceBareName q fs (a.spell p') := by
  have hcut := withoutPassword_spell a hp
  have hcut' := withoutPassword_spell a hp'
  have halike : parse q (a.spell p)=parse q (a.spell p') ∧ split q fs (a.spell p)=split q fs (a.spell p') := by
    cases h : parse q (a.spell p) with
    | none =>
      rw [h,Option.isSome_none] at hsame
      have h' : parse q (a.spell p')=none := by simpa using hsame.symm
      exact ⟨h'.symm,by rw [split_refused fs (spell_remote a p) h,split_refused fs (spell_remote a p') h']⟩
    | some loc =>
      rw [h,Option.isSome_some] at hsame
      obtain ⟨loc',h'⟩ := Option.isSome_iff_exists.mp hsame.symm
      obtain ⟨rfl,hsplit⟩ := parse_password hq fs hp hp' h h'
      exact ⟨h'.symm,hsplit⟩
  obtain ⟨hpath,hnames⟩ := shown_alike (spell_remote a p) (spell_remote a p') halike.1 halike.2 fun _ =>
    hcut.trans hcut'.symm
  refine ⟨hcut,hcut',hpath,?_,?_⟩
  · rw [logSourceDisplayName,logSourceDisplayName,hnames]
  · rw [logSourceBareName,logSourceBareName,hnames]

end

/-- One account on the port 22 of the host `h`, with paths of letters, digits and dots. -/
def accountUrl : QUrl where
  readHead head :=
    if head=latin1 "ssh://u@h:22" ∨ (latin1 "ssh://u:").isPrefixOf head && (latin1 "@h:22").isSuffixOf head then
      some ⟨latin1 "u",latin1 "h",some 22⟩
    else none
  readPath := plainUrl.readPath
  spellHead scheme _ := scheme++latin1 "://u@h:22"
  spellPath path := path

private theorem accountUrl_cutsUserinfo : accountUrl.CutsUserinfo where
  rooted _ _ _ h := plainUrl_lawful.isRooted _ _ _ h
  password_unread _ _ _ _ _ h h' := by
    simp only [accountUrl,Option.ite_none_right_eq_some,Option.some.injEq] at h h'
    exact h.2.symm.trans h'.2

/-- A log inside an archive, on an account with a password. -/
def packedLog : AroundPassword where
  scheme := latin1 "ssh"
  user := latin1 "u"
  host := latin1 "h:22"
  rest := latin1 "/l.tar/m.log"
  known := by decide
  user_plain := by decide
  host_plain := by decide
  rest_apart := .inr ⟨latin1 "l.tar/m.log",rfl⟩

theorem password_free_packed :
    withoutPassword (packedLog.spell (latin1 "s3:c"))=packedLog.kept ∧ withoutPassword
    (packedLog.spell (latin1 "t"))=packedLog.kept ∧
      logSourceDisplayPath accountUrl plainFiles (packedLog.spell (latin1 "s3:c"))=
        logSourceDisplayPath accountUrl plainFiles (packedLog.spell (latin1 "t")) ∧
      logSourceDisplayName accountUrl plainFiles (packedLog.spell (latin1 "s3:c"))=
        logSourceDisplayName accountUrl plainFiles (packedLog.spell (latin1 "t")) ∧
      logSourceBareName accountUrl plainFiles (packedLog.spell (latin1 "s3:c"))=
        logSourceBareName accountUrl plainFiles (packedLog.spell (latin1 "t")) :=
  password_free accountUrl plainFiles accountUrl_cutsUserinfo packedLog (latin1 "s3:c") (latin1 "t")
    (by decide) (by decide)
    (by decide +kernel)

end Loftail
