import Loftail.Record
import Mathlib.Logic.Function.Basic

/-! # The telnet layer between a socket and a console -/
namespace Loftail

def kBinary : Byte := 0
def kEcho : Byte := 1
def kSuppressGoAhead : Byte := 3

def kIac : Byte := 255
def kDont : Byte := 254
def kDo : Byte := 253
def kWont : Byte := 252
def kWill : Byte := 251
def kSb : Byte := 250
def kSe : Byte := 240

inductive TelnetState | data | iac | option | sub | subIac
  deriving DecidableEq,Repr

/-- A negotiation command: a verb and an option. -/
abbrev Offer := Byte×Byte

/-- What an offer is on the wire. -/
def command (offer : Offer) : Bytes := [kIac,offer.1,offer.2]

def wireOf (offers : List Offer) : Bytes := offers.flatMap command

structure TelnetProtocol where
  state : TelnetState
  verb : Byte
  pendingCr : Bool
  us : Byte→Bool
  him : Byte→Bool
  askedUs : Byte→Bool
  askedHim : Byte→Bool

/-- What receiving some bytes gives: the data, and the offers owed in answer. -/
structure TelnetReceived where
  protocol : TelnetProtocol
  data : Bytes
  reply : List Offer

namespace TelnetProtocol

def initial : TelnetProtocol :=
  ⟨.data,0,false,fun _ => false,fun _ => false,fun _ => false,fun _ => false⟩

def weAccept (option : Byte) : Bool := option=kBinary || option=kSuppressGoAhead

def theyMayDo (option : Byte) : Bool := option=kBinary || option=kEcho || option=kSuppressGoAhead

def weSendBinary (t : TelnetProtocol) : Bool := t.us kBinary

def theySendBinary (t : TelnetProtocol) : Bool := t.him kBinary

def openingOffers : List Offer := [(kDo,kBinary),(kWill,kBinary),(kDo,kSuppressGoAhead)]

/-- What a client opens with is recorded as asked. -/
def openingNegotiation (t : TelnetProtocol) : TelnetProtocol :=
  {t with
   askedHim := Function.update (Function.update t.askedHim kBinary true) kSuppressGoAhead true
   askedUs := Function.update t.askedUs kBinary true}

/-- A reply only where the state changes, and never to an answer to our own question. -/
def negotiate (t : TelnetProtocol) (verb option : Byte) : TelnetProtocol×List Offer :=
  let asked (side : Byte→Bool) : Byte→Bool := Function.update side option false
  if verb=kWill then
    if !theyMayDo option then ({t with askedHim := asked t.askedHim},[(kDont,option)])
    else if !t.him option then
      ({t with him := Function.update t.him option true,askedHim := asked t.askedHim},
        if t.askedHim option then [] else [(kDo,option)])
    else ({t with askedHim := asked t.askedHim},[])
  else if verb=kWont then
    if t.him option then
      ({t with him := Function.update t.him option false,askedHim := asked t.askedHim},
        if t.askedHim option then [] else [(kDont,option)])
    else ({t with askedHim := asked t.askedHim},[])
  else if verb=kDo then
    if !weAccept option then ({t with askedUs := asked t.askedUs},[(kWont,option)])
    else if !t.us option then
      ({t with us := Function.update t.us option true,askedUs := asked t.askedUs},
        if t.askedUs option then [] else [(kWill,option)])
    else ({t with askedUs := asked t.askedUs},[])
  else if verb=kDont then
    if t.us option then
      ({t with us := Function.update t.us option false,askedUs := asked t.askedUs},
        if t.askedUs option then [] else [(kWont,option)])
    else ({t with askedUs := asked t.askedUs},[])
  else (t,[])

def isVerb (c : Byte) : Bool := c=kWill || c=kWont || c=kDo || c=kDont

def receiveByte (t : TelnetProtocol) (c : Byte) : TelnetReceived :=
  match t.state with
  | .data =>
    if c=kIac then ⟨{t with pendingCr := false,state := .iac},[],[]⟩
    -- a bare CR is sent as `CR NUL`
    else if t.pendingCr && c=0 then ⟨{t with pendingCr := false},[],[]⟩
    else ⟨{t with pendingCr := c=0x0D && !t.theySendBinary},[c],[]⟩
  | .iac =>
    if c=kIac then ⟨{t with state := .data},[c],[]⟩
    else if isVerb c then ⟨{t with verb := c,state := .option},[],[]⟩
    else if c=kSb then ⟨{t with state := .sub},[],[]⟩
    else ⟨{t with state := .data},[],[]⟩
  | .option => ⟨{(t.negotiate t.verb c).1 with state := .data},[],(t.negotiate t.verb c).2⟩
  | .sub => ⟨if c=kIac then {t with state := .subIac} else t,[],[]⟩
  | .subIac => ⟨{t with state := if c=kSe then .data else .sub},[],[]⟩

def receive (t : TelnetProtocol) : Bytes→TelnetReceived
  | [] => ⟨t,[],[]⟩
  | c::arrived =>
    let first := t.receiveByte c
    let rest := first.protocol.receive arrived
    ⟨rest.protocol,first.data++rest.data,first.reply++rest.reply⟩

/-- One read after another. -/
def receiveAll (t : TelnetProtocol) : List Bytes→TelnetReceived
  | [] => ⟨t,[],[]⟩
  | chunk::chunks =>
    let first := t.receive chunk
    let rest := first.protocol.receiveAll chunks
    ⟨rest.protocol,first.data++rest.data,first.reply++rest.reply⟩

/-- A byte made safe for the wire. -/
def encodeByte (binary : Bool) (c : Byte) : Bytes :=
  if c=kIac then [kIac,kIac] else if c=0x0D && !binary then [0x0D,0] else [c]

def encode (t : TelnetProtocol) (data : Bytes) : Bytes := data.flatMap (encodeByte t.weSendBinary)

variable {t : TelnetProtocol} {a b data wire : Bytes} {c : Byte} {chunks : List Bytes}

theorem receive_append : t.receive (a++b)=
    ⟨((t.receive a).protocol.receive b).protocol,(t.receive a).data++((t.receive a).protocol.receive b).data,
      (t.receive a).reply++((t.receive a).protocol.receive b).reply⟩ := by
  induction a generalizing t with
  | nil => rfl
  | cons c a ih =>
    rw [List.cons_append,receive,ih]
    simp only [receive,List.append_assoc]

/-- Chunks are received as the whole is. -/
theorem receiveAll_flatten : t.receiveAll chunks=t.receive chunks.flatten := by
  induction chunks generalizing t with
  | nil => rfl
  | cons chunk chunks ih => rw [receiveAll,ih,List.flatten_cons,receive_append]

/-! ## What is encoded is received -/

/-- The body of a subnegotiation, up to its `IAC SE`. -/
inductive SubBody : Bytes→Prop
  | nil : SubBody []
  | plain {c : Byte} {body : Bytes} (h : c≠kIac) (tail : SubBody body) : SubBody (c::body)
  | escaped {c : Byte} {body : Bytes} (h : c≠kSe) (tail : SubBody body) : SubBody (kIac::c::body)

/-- A command that leaves the binary mode of what is received as it is. -/
inductive KeepsBinary (binary : Bool) : Bytes→Prop
  | plain {c : Byte} (hiac : c≠kIac) (hverb : isVerb c=false) (hsb : c≠kSb) : KeepsBinary binary [kIac,c]
  | offer {verb option : Byte} (hverb : isVerb verb=true) (hwill : verb=kWill → option=kBinary→binary=true)
      (hwont : verb=kWont → option=kBinary→binary=false) : KeepsBinary binary [kIac,verb,option]
  | sub {body : Bytes} (h : SubBody body) : KeepsBinary binary (kIac::kSb::(body++[kIac,kSe]))

/-- Encoded units with commands between them. -/
inductive Interspersed (binary : Bool) : Bytes→Bytes→Prop
  | nil : Interspersed binary [] []
  | unit {c : Byte} {data wire : Bytes} (tail : Interspersed binary data wire) :
      Interspersed binary (c::data) (encodeByte binary c++wire)
  | command {cmd data wire : Bytes} (h : KeepsBinary binary cmd) (tail : Interspersed binary data wire) :
      Interspersed binary data (cmd++wire)

/-- Between two units, in a binary mode. -/
structure Between (t : TelnetProtocol) (binary : Bool) : Prop where
  state : t.state=.data
  pendingCr : t.pendingCr=false
  him : t.him kBinary=binary

variable {binary : Bool}

private theorem receive_unit (h : t.Between binary) :
    (t.receive (encodeByte binary c)).data=[c] ∧ (t.receive (encodeByte binary c)).protocol.Between binary := by
  obtain ⟨hstate,hcr,hhim⟩ := h
  unfold encodeByte
  by_cases hc : c=kIac
  · subst hc
    have hiac : t.receive [kIac,kIac]=⟨{t with pendingCr := false},[kIac],[]⟩ := by
      simp [receive,receiveByte,hstate]
    rw [if_pos rfl,hiac]
    exact ⟨rfl,hstate,rfl,hhim⟩
  · rw [if_neg hc]
    by_cases hfold : c=0x0D && !binary
    · obtain ⟨rfl,hnvt⟩ : c=0x0D ∧ binary=false := by simpa using hfold
      have hunit : t.receive [0x0D,0]=⟨{t with pendingCr := false},[0x0D],[]⟩ := by
        have hne : (0x0D : Byte)≠kIac ∧ (0 : Byte)≠kIac := by decide
        simp [receive,receiveByte,hstate,hcr,hne,theySendBinary,hhim,hnvt]
      rw [if_pos hfold,hunit]
      exact ⟨rfl,hstate,rfl,hhim⟩
    · have hunit : t.receive [c]=⟨{t with pendingCr := false},[c],[]⟩ := by
        simp [receive,receiveByte,hstate,hcr,hc,theySendBinary,hhim,hfold]
      rw [if_neg hfold,hunit]
      exact ⟨rfl,hstate,rfl,hhim⟩

private theorem receive_sub {body : Bytes} (hb : SubBody body) (h : t.state=.sub) :
    t.receive (body++[kIac,kSe])=⟨{t with state := .data},[],[]⟩ := by
  induction hb with
  | nil => simp [receive,receiveByte,h]
  | plain hc _ ih => simp [receive,receiveByte,h,hc,ih]
  | @escaped c body hc _ ih =>
    have hin : t.receiveByte kIac=⟨{t with state := .subIac},[],[]⟩ := by simp [receiveByte,h]
    have hout : ({t with state := .subIac} : TelnetProtocol).receiveByte c=⟨t,[],[]⟩ := by
      simp [receiveByte,hc,← h]
    rw [List.cons_append,List.cons_append,receive,hin]
    dsimp only
    rw [receive,hout]
    dsimp only
    rw [ih]
    rfl

private theorem negotiate_him {verb option : Byte} (hwill : verb=kWill → option=kBinary→t.him kBinary=true)
    (hwont : verb=kWont → option=kBinary→t.him kBinary=false) :
    (t.negotiate verb option).1.him kBinary=t.him kBinary := by
  have hother : ∀value,option≠kBinary→Function.update t.him option value kBinary=t.him kBinary :=
    fun value hne => Function.update_of_ne hne.symm _ _
  unfold negotiate
  dsimp only
  split
  · rename_i hverb
    split
    · rfl
    · split
      · rename_i hoff
        apply hother
        rintro rfl
        rw [hwill hverb rfl] at hoff
        cases hoff
      · rfl
  · split
    · rename_i hverb
      split
      · rename_i hon
        apply hother
        rintro rfl
        rw [hwont hverb rfl] at hon
        cases hon
      · rfl
    · split
      · split
        · rfl
        · split <;> rfl
      · split
        · split <;> rfl
        · rfl

private theorem negotiate_pendingCr {verb option : Byte} : (t.negotiate verb option).1.pendingCr=t.pendingCr := by
  unfold negotiate
  dsimp only
  split_ifs <;> rfl

/-- A command between two units carries no data. -/
theorem receive_command {cmd : Bytes} (hcmd : KeepsBinary binary cmd) (h : t.Between binary) :
    (t.receive cmd).data=[] ∧ (t.receive cmd).protocol.Between binary := by
  obtain ⟨hstate,hcr,hhim⟩ := h
  have hiac : t.receiveByte kIac=⟨{t with pendingCr := false,state := .iac},[],[]⟩ := by simp [receiveByte,hstate]
  cases hcmd with
  | @plain c hc hverb hsb =>
    have hplain : t.receive [kIac,c]=⟨{t with pendingCr := false,state := .data},[],[]⟩ := by
      simp [receive,receiveByte,hstate,hc,hverb,hsb]
    rw [hplain]
    exact ⟨rfl,rfl,rfl,hhim⟩
  | @offer verb option hverb hwill hwont =>
    have hne : verb≠kIac := by
      rintro rfl
      exact absurd hverb (by decide)
    have hoffer : t.receive [kIac,verb,option]=
        ⟨{(({t with pendingCr := false,state := .option,verb := verb} :
          TelnetProtocol).negotiate verb option).1 with
          state := .data},[],(({t with pendingCr := false,state := .option,verb := verb} :
            TelnetProtocol).negotiate verb option).2⟩ := by
      simp [receive,receiveByte,hstate,hne,hverb]
    rw [hoffer]
    refine ⟨rfl,rfl,negotiate_pendingCr,?_⟩
    rw [← hhim] at hwill hwont ⊢
    exact negotiate_him hwill hwont
  | @sub body hbody =>
    have hsb : ({t with pendingCr := false,state := .iac} : TelnetProtocol).receiveByte kSb=
        ⟨{t with pendingCr := false,state := .sub},[],[]⟩ := by
      have hne : kSb≠kIac ∧ isVerb kSb=false := by decide
      simp [receiveByte,hne]
    rw [receive,hiac]
    dsimp only
    rw [receive,hsb]
    dsimp only
    rw [receive_sub hbody rfl]
    exact ⟨rfl,rfl,rfl,hhim⟩

theorem receive_interspersed (hw : Interspersed binary data wire) (h : t.Between binary) :
    (t.receive wire).data=data ∧ (t.receive wire).protocol.Between binary := by
  induction hw generalizing t with
  | nil => exact ⟨rfl,h⟩
  | unit _ ih =>
    obtain ⟨hdata,hbetween⟩ := receive_unit h
    obtain ⟨hrest,hlast⟩ := ih hbetween
    rw [receive_append]
    exact ⟨by rw [hdata,hrest]; rfl,hlast⟩
  | command hcmd _ ih =>
    obtain ⟨hdata,hbetween⟩ := receive_command hcmd h
    obtain ⟨hrest,hlast⟩ := ih hbetween
    rw [receive_append]
    exact ⟨by rw [hdata,hrest]; rfl,hlast⟩

private theorem interspersed_encode (s : TelnetProtocol) (data : Bytes) : Interspersed s.weSendBinary data
    (s.encode data) := by
  induction data with
  | nil => exact .nil
  | cons c data ih => exact .unit ih

/-- Bytes are received the same however they are cut, and what one side encodes, commands between its
units or none, the other receives. -/
theorem telnet_receive {s r : TelnetProtocol} (hmode : s.weSendBinary=r.theySendBinary) (hstate : r.state=.data)
    (hcr : r.pendingCr=false) (hw : Interspersed s.weSendBinary data wire) :
    (∀t chunks,receiveAll t chunks=receive t chunks.flatten) ∧ (r.receive wire).data=data ∧
      ∀sent,(r.receive (s.encode sent)).data=sent := by
  have hbetween : r.Between s.weSendBinary := ⟨hstate,hcr,hmode.symm⟩
  refine ⟨fun t chunks => receiveAll_flatten,(receive_interspersed hw hbetween).1,?_⟩
  intro sent
  exact (receive_interspersed (interspersed_encode s sent) hbetween).1

/-- A carriage return, a command and a doubled byte. -/
theorem telnet_receive_return : (initial.receive [0x0D,0,kIac,kWill,kEcho,kIac,kIac]).data=[0x0D,0xFF] := by
  have hw : Interspersed initial.weSendBinary [0x0D,0xFF] [0x0D,0,kIac,kWill,kEcho,kIac,kIac] :=
    .unit (c:=0x0D) (.command (.offer (by decide) (by decide) (by decide)) (.unit (c:=0xFF) .nil))
  exact (telnet_receive (s:=initial) rfl rfl rfl hw).2.1

end TelnetProtocol

end Loftail
