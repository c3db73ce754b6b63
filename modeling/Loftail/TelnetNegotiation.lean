import Loftail.TelnetProtocol
import Mathlib.Tactic.SplitIfs

/-! # Two telnet endpoints come to agree

Every offer an endpoint has made is on its way to the other or has been taken by it; the rest follows
from what one byte can do. -/
namespace Loftail
namespace TelnetProtocol

/-! ## The offers in a stream of bytes -/

/-- How far a byte takes the parser: its state, and the verb that waits for its option. -/
def parseByte : TelnetState×Byte→Byte→TelnetState×Byte
  | (.data,verb),c => (if c=kIac then .iac else .data,verb)
  | (.iac,verb),c =>
    if c=kIac then (.data,verb) else if isVerb c then (.option,c) else if c=kSb then (.sub,verb) else (.data,verb)
  | (.option,verb),_ => (.data,verb)
  | (.sub,verb),c => (if c=kIac then .subIac else .sub,verb)
  | (.subIac,verb),c => (if c=kSe then .data else .sub,verb)

def parse (at' : TelnetState×Byte) (w : Bytes) : TelnetState×Byte := w.foldl parseByte at'

/-- The offers the parser will come upon. -/
def offersIn : TelnetState×Byte→Bytes→List Offer
  | _,[] => []
  | at',c::w => (if at'.1=.option then [(at'.2,c)] else [])++offersIn (parseByte at' c) w

def parserState (t : TelnetProtocol) : TelnetState×Byte := (t.state,t.verb)

variable {t : TelnetProtocol} {at' : TelnetState×Byte} {v w : Bytes} {c verb option : Byte} {offers : List Offer}

theorem offersIn_append : offersIn at' (v++w)=offersIn at' v++offersIn (parse at' v) w := by
  induction v generalizing at' with
  | nil => rfl
  | cons c v ih =>
    rw [List.cons_append,offersIn,offersIn,ih,List.append_assoc]
    rfl

private theorem wireOf_append {more : List Offer} : wireOf (offers++more)=wireOf offers++wireOf more :=
    List.flatMap_append

theorem parse_append : parse at' (v++w)=parse (parse at' v) w := List.foldl_append

theorem parse_wireOf (hv : ∀offer∈offers,isVerb offer.1=true) (h : at'.1=.data) :
    (parse at' (wireOf offers)).1=.data ∧
    offersIn at' (wireOf offers)=offers := by
  induction offers generalizing at' with
  | nil => exact ⟨h,rfl⟩
  | cons offer offers ih =>
    obtain ⟨verb,option⟩ := offer
    obtain ⟨state,waiting⟩ := at'
    obtain rfl : state=.data := h
    have hverb : isVerb verb=true := hv (verb,option) (List.mem_cons_self ..)
    have hne : verb≠kIac := by
      rintro rfl
      exact absurd hverb (by decide)
    have hcommand : parse (.data,waiting) (command (verb,option))=(.data,verb) := by
      simp [parse,command,parseByte,hne,hverb]
    have hoffer : offersIn (.data,waiting) (command (verb,option))=[(verb,option)] := by
      simp [offersIn,command,parseByte,hne,hverb]
    obtain ⟨hstate,hrest⟩ : (parse (.data,verb) (wireOf offers)).1=.data ∧
      offersIn (.data,verb) (wireOf offers)=offers :=
      ih (fun offer ho => hv offer (List.mem_cons_of_mem _ ho)) rfl
    have hwire : wireOf ((verb,option)::offers)=command (verb,option)++wireOf offers := rfl
    rw [hwire,parse_append,offersIn_append,hcommand,hoffer,hrest]
    exact ⟨hstate,rfl⟩

/-- Encoded data is no command. -/
theorem parse_encode (data : Bytes) (h : at'.1=.data) : parse at' (t.encode data)=at' ∧ offersIn at'
    (t.encode data)=[] := by
  obtain ⟨state,waiting⟩ := at'
  obtain rfl : state=.data := h
  induction data with
  | nil => exact ⟨rfl,rfl⟩
  | cons c data ih =>
    have hwire : t.encode (c::data)=encodeByte t.weSendBinary c++t.encode data := rfl
    have hunit : parse (.data,waiting) (encodeByte t.weSendBinary c)=(.data,waiting) ∧
        offersIn (.data,waiting) (encodeByte t.weSendBinary c)=[] := by
      have hne : (0x0D : Byte)≠kIac ∧ (0 : Byte)≠kIac := by decide
      unfold encodeByte
      split_ifs with hiac hcr
      · simp [parse,offersIn,parseByte]
      · simp [parse,offersIn,parseByte,hne]
      · simp [parse,offersIn,parseByte,hiac]
    rw [hwire,parse_append,offersIn_append,hunit.1,hunit.2,ih.1,ih.2]
    exact ⟨rfl,rfl⟩

private theorem negotiate_parserState : (t.negotiate verb option).1.parserState=t.parserState := by
  unfold negotiate
  dsimp only
  split_ifs <;> rfl

theorem receiveByte_parserState : (t.receiveByte c).protocol.parserState=parseByte t.parserState c := by
  unfold receiveByte parserState
  cases hs : t.state with
  | data =>
    dsimp only
    split_ifs <;> simp_all [parseByte]
  | iac =>
    dsimp only
    split_ifs <;> simp_all [parseByte]
  | option =>
    have hparser : (t.negotiate t.verb c).1.parserState.2=t.parserState.2 := congrArg Prod.snd negotiate_parserState
    dsimp only
    exact congrArg _ hparser
  | sub =>
    dsimp only
    split_ifs <;> simp_all [parseByte]
  | subIac => rfl

/-- What a byte does to the options: nothing, or what its offer does. -/
theorem receiveByte_options :
    ((t.receiveByte c).reply=(if t.state=.option then (t.negotiate t.verb c).2 else [])) ∧
    let after := if t.state=.option then (t.negotiate t.verb c).1 else t
    (t.receiveByte c).protocol.us=after.us ∧ (t.receiveByte c).protocol.him=after.him ∧
      (t.receiveByte c).protocol.askedUs=after.askedUs ∧ (t.receiveByte c).protocol.askedHim=after.askedHim := by
  unfold receiveByte
  cases hs : t.state with
  | option => simp
  | _ =>
    dsimp only
    split_ifs <;> simp_all

/-! ## Answering an offer -/

/-- An option that is offered: both sides agree to it. -/
def IsOffered (option : Byte) : Prop := option=kBinary ∨ option=kSuppressGoAhead

private theorem negotiate_will (h : IsOffered option) :
    (t.negotiate kWill option).1.him=Function.update t.him option true ∧
      (t.negotiate kWill option).1.askedHim=Function.update t.askedHim option false ∧
      (t.negotiate kWill option).1.us=t.us ∧ (t.negotiate kWill option).1.askedUs=t.askedUs ∧
      (t.negotiate kWill option).2=if t.him option || t.askedHim option then [] else [(kDo,option)] := by
  have hmay : theyMayDo option=true := by
    rcases h with rfl | rfl <;> rfl
  unfold negotiate
  dsimp only
  rw [if_pos rfl,hmay]
  cases hh : t.him option with
  | true =>
    have hself : Function.update t.him option true=t.him := by
      rw [← hh]
      exact Function.update_eq_self ..
    exact ⟨hself.symm,rfl,rfl,rfl,rfl⟩
  | false => exact ⟨rfl,rfl,rfl,rfl,rfl⟩

private theorem negotiate_do (h : IsOffered option) :
    (t.negotiate kDo option).1.us=Function.update t.us option true ∧
      (t.negotiate kDo option).1.askedUs=Function.update t.askedUs option false ∧
      (t.negotiate kDo option).1.him=t.him ∧ (t.negotiate kDo option).1.askedHim=t.askedHim ∧
      (t.negotiate kDo option).2=if t.us option || t.askedUs option then [] else [(kWill,option)] := by
  have hmay : weAccept option=true := by
    rcases h with rfl | rfl <;> rfl
  unfold negotiate
  dsimp only
  rw [if_neg (by decide),if_neg (by decide),if_pos rfl,hmay]
  cases hh : t.us option with
  | true =>
    have hself : Function.update t.us option true=t.us := by
      rw [← hh]
      exact Function.update_eq_self ..
    exact ⟨hself.symm,rfl,rfl,rfl,rfl⟩
  | false => exact ⟨rfl,rfl,rfl,rfl,rfl⟩

/-- What a byte can do: nothing to the options, or what the offer it ends does. -/
inductive Takes (t : TelnetProtocol) : TelnetProtocol→List Offer→List Offer→Prop
  | nothing {t' : TelnetProtocol} (us : t'.us=t.us) (him : t'.him=t.him) (askedUs : t'.askedUs=t.askedUs)
      (askedHim : t'.askedHim=t.askedHim) : Takes t t' [] []
  | will {t' : TelnetProtocol} {option : Byte} (him : t'.him=Function.update t.him option true)
      (askedHim : t'.askedHim=Function.update t.askedHim option false) (us : t'.us=t.us) (askedUs :
        t'.askedUs=t.askedUs) :
      Takes t t' [(kWill,option)] (if t.him option || t.askedHim option then [] else [(kDo,option)])
  | does {t' : TelnetProtocol} {option : Byte} (us : t'.us=Function.update t.us option true)
      (askedUs : t'.askedUs=Function.update t.askedUs option false) (him : t'.him=t.him) (askedHim :
        t'.askedHim=t.askedHim) :
      Takes t t' [(kDo,option)] (if t.us option || t.askedUs option then [] else [(kWill,option)])

private theorem receiveByte_takes (h : t.state=.option→(t.verb=kWill ∨ t.verb=kDo) ∧ IsOffered c) :
    Takes t (t.receiveByte c).protocol (if t.state=.option then [(t.verb,c)] else []) (t.receiveByte c).reply := by
  obtain ⟨hreply,hus,hhim,haskedUs,haskedHim⟩ := receiveByte_options (t:=t) (c:=c)
  rw [hreply]
  by_cases hs : t.state=.option
  · obtain ⟨hverb,hoffered⟩ := h hs
    rw [if_pos hs] at hus hhim haskedUs haskedHim ⊢
    rw [if_pos hs]
    rcases hverb with hv | hv
    · obtain ⟨him,askedHim,us,askedUs,answer⟩ := negotiate_will (t:=t) hoffered
      rw [hv] at hus hhim haskedUs haskedHim ⊢
      rw [answer]
      exact .will (hhim.trans him) (haskedHim.trans askedHim) (hus.trans us) (haskedUs.trans askedUs)
    · obtain ⟨us,askedUs,him,askedHim,answer⟩ := negotiate_do (t:=t) hoffered
      rw [hv] at hus hhim haskedUs haskedHim ⊢
      rw [answer]
      exact .does (hus.trans us) (haskedUs.trans askedUs) (hhim.trans him) (haskedHim.trans askedHim)
  · rw [if_neg hs] at hus hhim haskedUs haskedHim ⊢
    rw [if_neg hs]
    exact .nothing hus hhim haskedUs haskedHim

/-- The options agreed to. -/
def agreed (t : TelnetProtocol) : ℕ :=
  ((t.us kBinary).toNat+(t.us kSuppressGoAhead).toNat)+((t.him kBinary).toNat+(t.him kSuppressGoAhead).toNat)

private theorem agreed_le : agreed t ≤ 4 := by
  unfold agreed
  have hle : ∀b : Bool,b.toNat ≤ 1 := Bool.toNat_le
  have hus := Nat.add_le_add (hle (t.us kBinary)) (hle (t.us kSuppressGoAhead))
  have hhim := Nat.add_le_add (hle (t.him kBinary)) (hle (t.him kSuppressGoAhead))
  exact Nat.add_le_add hus hhim

/-- An option that is agreed to anew is counted once. -/
theorem update_toNat (f : Byte→Bool) (h : IsOffered option) :
    (Function.update f option true kBinary).toNat+(Function.update f option true kSuppressGoAhead).toNat=
      (f kBinary).toNat+(f kSuppressGoAhead).toNat+(!f option).toNat := by
  have hne : kBinary≠kSuppressGoAhead := by decide
  rcases h with rfl | rfl
  · rw [Function.update_self,Function.update_of_ne hne.symm]
    cases f kBinary <;> simp [Nat.add_comm]
  · rw [Function.update_self,Function.update_of_ne hne]
    cases f kSuppressGoAhead <;> rfl

namespace Takes

variable {t' : TelnetProtocol} {head reply : List Offer}

private theorem him_mono (h : Takes t t' head reply) (hh : t.him option=true) : t'.him option=true := by
  cases h with
  | nothing _ him => rwa [him]
  | will him =>
    rw [him,Function.update_apply]
    split_ifs
    · rfl
    · exact hh
  | does _ _ him => rwa [him]

private theorem us_mono (h : Takes t t' head reply) (hh : t.us option=true) : t'.us option=true := by
  cases h with
  | nothing us => rwa [us]
  | will _ _ us => rwa [us]
  | does us =>
    rw [us,Function.update_apply]
    split_ifs
    · rfl
    · exact hh

private theorem will_taken (h : Takes t t' head reply) (hh : (kWill,option)∈head) : t'.him option=true := by
  cases h with
  | nothing => cases hh
  | will him =>
    obtain ⟨-,rfl⟩ := Prod.mk.inj (List.mem_singleton.mp hh)
    rw [him,Function.update_self]
  | does => exact absurd (Prod.mk.inj (List.mem_singleton.mp hh)).1 (by decide)

private theorem do_taken (h : Takes t t' head reply) (hh : (kDo,option)∈head) : t'.us option=true := by
  cases h with
  | nothing => cases hh
  | will => exact absurd (Prod.mk.inj (List.mem_singleton.mp hh)).1 (by decide)
  | does us =>
    obtain ⟨-,rfl⟩ := Prod.mk.inj (List.mem_singleton.mp hh)
    rw [us,Function.update_self]

/-- What is newly agreed to and was not asked is answered. -/
theorem him_answered (h : Takes t t' head reply) (hh : t'.him option=true ∨ t'.askedHim option=true) :
    (t.him option=true ∨ t.askedHim option=true) ∨ (kDo,option)∈reply := by
  cases h with
  | nothing _ him _ askedHim =>
    rw [him,askedHim] at hh
    exact Or.inl hh
  | @will other him askedHim =>
    by_cases ho : option=other
    · subst ho
      cases hhim : t.him option with
      | true => exact Or.inl (Or.inl rfl)
      | false =>
        cases hasked : t.askedHim option with
        | true => exact Or.inl (Or.inr rfl)
        | false => exact Or.inr (List.mem_singleton_self _)
    · rw [him,askedHim,Function.update_of_ne ho,Function.update_of_ne ho] at hh
      exact Or.inl hh
  | does _ _ him askedHim =>
    rw [him,askedHim] at hh
    exact Or.inl hh

private theorem us_answered (h : Takes t t' head reply) (hh : t'.us option=true ∨ t'.askedUs option=true) :
    (t.us option=true ∨ t.askedUs option=true) ∨ (kWill,option)∈reply := by
  cases h with
  | nothing us _ askedUs =>
    rw [us,askedUs] at hh
    exact Or.inl hh
  | will _ _ us askedUs =>
    rw [us,askedUs] at hh
    exact Or.inl hh
  | @does other us askedUs =>
    by_cases ho : option=other
    · subst ho
      cases hus : t.us option with
      | true => exact Or.inl (Or.inl rfl)
      | false =>
        cases hasked : t.askedUs option with
        | true => exact Or.inl (Or.inr rfl)
        | false => exact Or.inr (List.mem_singleton_self _)
    · rw [us,askedUs,Function.update_of_ne ho,Function.update_of_ne ho] at hh
      exact Or.inl hh

theorem reply_offered (h : Takes t t' head reply) (hh : ∀offer∈head,IsOffered offer.2) :
    ∀offer∈reply,(offer.1=kWill ∨ offer.1=kDo) ∧ IsOffered offer.2 := by
  cases h with
  | nothing => exact fun _ ho => absurd ho List.not_mem_nil
  | @will option =>
    intro offer ho
    split_ifs at ho
    · cases ho
    · obtain rfl := List.mem_singleton.mp ho
      exact ⟨Or.inr rfl,hh (kWill,option) (List.mem_singleton_self _)⟩
  | @does option =>
    intro offer ho
    split_ifs at ho
    · cases ho
    · obtain rfl := List.mem_singleton.mp ho
      exact ⟨Or.inl rfl,hh (kDo,option) (List.mem_singleton_self _)⟩

/-- An answer pays for itself with an option agreed to. -/
theorem agreed_reply (h : Takes t t' head reply) (hh : ∀offer∈head,IsOffered offer.2) :
    agreed t+reply.length ≤ agreed t' := by
  cases h with
  | nothing us him =>
    unfold agreed
    rw [us,him]
    exact Nat.le_refl _
  | @will option him _ us =>
    have hoffered : IsOffered option := hh (kWill,option) (List.mem_singleton_self _)
    have hcount := update_toNat t.him hoffered
    have hreply : (if (t.him option || t.askedHim option)=true then [] else [(kDo,option)]).length ≤
      (!t.him option).toNat := by
      cases t.him option <;> cases t.askedHim option <;> simp
    unfold agreed
    rw [us,him,hcount]
    omega
  | @does option us _ him =>
    have hoffered : IsOffered option := hh (kDo,option) (List.mem_singleton_self _)
    have hcount := update_toNat t.us hoffered
    have hreply : (if (t.us option || t.askedUs option)=true then [] else [(kWill,option)]).length ≤
      (!t.us option).toNat := by
      cases t.us option <;> cases t.askedUs option <;> simp
    unfold agreed
    rw [us,him,hcount]
    omega

end Takes

end TelnetProtocol

open TelnetProtocol

/-! ## Two endpoints -/

/-- Two endpoints, and what each has sent that the other has not received. -/
structure TelnetNetwork where
  side : Bool→TelnetProtocol
  wire : Bool→Bytes
  opened : Bool→Bool
  sent : Bool→ℕ

inductive TelnetAction
  | opens (s : Bool)
  | delivers (s : Bool) (count : ℕ)
  | writes (s : Bool) (data : Bytes)

namespace TelnetNetwork

def initial : TelnetNetwork := ⟨fun _ => .initial,fun _ => [],fun _ => false,fun _ => 0⟩

/-- A side puts offers on its wire. -/
def offer (n : TelnetNetwork) (s : Bool) (offers : List Offer) : TelnetNetwork :=
  {n with wire := Function.update n.wire s (n.wire s++wireOf offers)
          sent := Function.update n.sent s (n.sent s+offers.length)}

def opening (n : TelnetNetwork) (s : Bool) : TelnetNetwork :=
  if n.opened s then n
  else offer {n with side := Function.update n.side s (n.side s).openingNegotiation,
                     opened := Function.update n.opened s true} s openingOffers

/-- The next bytes of a side's wire, as one read. -/
def deliver (n : TelnetNetwork) (s : Bool) (count : ℕ) : TelnetNetwork :=
  let received := (n.side !s).receive ((n.wire s).take count)
  offer {n with side := Function.update n.side (!s) received.protocol,
                wire := Function.update n.wire s ((n.wire s).drop count)} (!s) received.reply

def act (n : TelnetNetwork) : TelnetAction→TelnetNetwork
  | .opens s => n.opening s
  | .delivers s count => n.deliver s count
  | .writes s data => {n with wire := Function.update n.wire s (n.wire s++(n.side s).encode data)}

def run (n : TelnetNetwork) (actions : List TelnetAction) : TelnetNetwork := actions.foldl act n

/-- The offers a side has made that the other has not come upon. -/
def flight (n : TelnetNetwork) (s : Bool) : List Offer := offersIn (n.side !s).parserState (n.wire s)

/-- What a side has offered is under way or has been taken. -/
structure Settles (n : TelnetNetwork) : Prop where
  parsed : ∀s,(parse (n.side !s).parserState (n.wire s)).1=.data
  offers : ∀s,∀offer∈n.flight s,(offer.1=kWill ∨ offer.1=kDo) ∧ IsOffered offer.2
  us : ∀s option,(n.side s).us option=true ∨ (n.side s).askedUs option=true→
    (kWill,option)∈n.flight s ∨ (n.side !s).him option=true
  him : ∀s option,(n.side s).him option=true ∨ (n.side s).askedHim option=true→
    (kDo,option)∈n.flight s ∨ (n.side !s).us option=true
  bound : ∀s,n.sent s≤(if n.opened s then 3 else 0)+agreed (n.side s)

variable {n : TelnetNetwork} {s : Bool} {offers : List Offer}

private theorem initial_settles : initial.Settles where
  parsed _ := rfl
  offers := by
    intro s offer ho
    cases ho
  us := by
    rintro s option (h | h) <;> cases h
  him := by
    rintro s option (h | h) <;> cases h
  bound _ := Nat.zero_le _

private theorem verb_isVerb {offer : Offer} (h : offer.1=kWill ∨ offer.1=kDo) : isVerb offer.1=true := by
  rcases h with h | h
  · rw [h]
    rfl
  · rw [h]
    rfl

/-! ### Putting offers on a wire -/

theorem offer_flight (hv : ∀offer∈offers,isVerb offer.1=true)
    (h : (parse (n.side !s).parserState (n.wire s)).1=.data) :
    (n.offer s offers).flight s=n.flight s++offers := by
  have hwire : (n.offer s offers).wire s=n.wire s++wireOf offers := Function.update_self ..
  unfold flight
  rw [hwire,offersIn_append]
  exact congrArg (n.flight s++·) (parse_wireOf hv h).2

theorem offer_flight_other : (n.offer s offers).flight (!s)=n.flight (!s) := by
  have hwire : (n.offer s offers).wire (!s)=n.wire (!s) := Function.update_of_ne (by cases s <;> decide) _ _
  unfold flight
  rw [hwire]
  rfl

theorem offer_parsed (hv : ∀offer∈offers,isVerb offer.1=true)
    (h : ∀s,(parse (n.side !s).parserState (n.wire s)).1=.data)
    (b : Bool) : (parse ((n.offer s offers).side !b).parserState ((n.offer s offers).wire b)).1=.data := by
  by_cases hb : b=s
  · subst hb
    have hwire : (n.offer b offers).wire b=n.wire b++wireOf offers := Function.update_self ..
    rw [hwire,parse_append]
    exact (parse_wireOf hv (h b)).1
  · have hwire : (n.offer s offers).wire b=n.wire b := Function.update_of_ne hb _ _
    rw [hwire]
    exact h b

/-! ### One byte -/

/-- A byte at the head of a wire. -/
structure Arrives (n : TelnetNetwork) (s : Bool) (c : Byte) (w : Bytes) : Prop where
  settles : n.Settles
  wire : n.wire s=c::w

/-- The network before the answer to a byte is put on its wire. -/
def taking (n : TelnetNetwork) (s : Bool) (c : Byte) (w : Bytes) : TelnetNetwork :=
  {n with side := Function.update n.side (!s) ((n.side !s).receiveByte c).protocol
          wire := Function.update n.wire s w}

variable {c : Byte} {w : Bytes}

theorem taking_side : (n.taking s c w).side (!s)=((n.side !s).receiveByte c).protocol := Function.update_self ..

theorem taking_side_self : (n.taking s c w).side s=n.side s := Function.update_of_ne (by cases s <;> decide) _ _

theorem taking_wire : (n.taking s c w).wire s=w := Function.update_self ..

theorem taking_wire_other : (n.taking s c w).wire (!s)=n.wire (!s) := Function.update_of_ne
    (by cases s <;> decide) _ _

private theorem taking_flight_other : (n.taking s c w).flight (!s)=n.flight (!s) := by
  unfold flight
  rw [taking_wire_other,Bool.not_not,taking_side_self]

/-- The offer that ends in this byte is no longer under way. -/
theorem flight_taking (h : n.Arrives s c w) : n.flight s=
    (if (n.side !s).state=.option then [((n.side !s).verb,c)] else [])++(n.taking s c w).flight s := by
  unfold flight
  rw [h.wire,taking_wire,taking_side,receiveByte_parserState]
  rfl

theorem taking_parsed (h : n.Arrives s c w) (b : Bool) :
    (parse ((n.taking s c w).side !b).parserState ((n.taking s c w).wire b)).1=.data := by
  have hb : b=s ∨ b=!s := by cases b <;> cases s <;> simp
  have hparsed := h.settles.parsed
  rcases hb with rfl | rfl
  · rw [taking_side,taking_wire,receiveByte_parserState]
    have hhead := hparsed b
    rwa [h.wire] at hhead
  · rw [Bool.not_not,taking_side_self,taking_wire_other]
    have hother := hparsed !s
    rwa [Bool.not_not] at hother

/-- How a step in which one side takes a byte, and answers, changes the network. -/
structure TakesFrom (n : TelnetNetwork) (s : Bool) (n' : TelnetNetwork) (head reply : List Offer) : Prop where
  takes : Takes (n.side !s) (n'.side !s) head reply
  side : n'.side s=n.side s
  opened : n'.opened=n.opened
  flight : n.flight s=head++n'.flight s
  answered : n'.flight (!s)=n.flight (!s)++reply
  sent : n'.sent s=n.sent s
  replied : n'.sent (!s)=n.sent (!s)+reply.length

namespace TakesFrom

variable {n' : TelnetNetwork} {head reply : List Offer}

theorem head_offered (h : n.TakesFrom s n' head reply) (hs : n.Settles) : ∀offer∈head,IsOffered offer.2 := by
  intro offer ho
  have hmem : offer∈n.flight s := by
    rw [h.flight]
    exact List.mem_append_left _ ho
  exact (hs.offers s offer hmem).2

theorem offered (h : n.TakesFrom s n' head reply) (hs : n.Settles) :
    (∀offer∈n'.flight s,(offer.1=kWill ∨ offer.1=kDo) ∧ IsOffered offer.2) ∧
      ∀offer∈n'.flight !s,(offer.1=kWill ∨ offer.1=kDo) ∧ IsOffered offer.2 := by
  refine ⟨?_,?_⟩
  · intro offer ho
    have hmem : offer∈n.flight s := by
      rw [h.flight]
      exact List.mem_append_right _ ho
    exact hs.offers s offer hmem
  · intro offer ho
    rw [h.answered] at ho
    rcases List.mem_append.mp ho with hold | hnew
    · exact hs.offers _ offer hold
    · exact h.takes.reply_offered (h.head_offered hs) offer hnew

theorem us (h : n.TakesFrom s n' head reply) (hs : n.Settles) (option : Byte) :
    ((n'.side s).us option=true ∨ (n'.side s).askedUs option=true→
      (kWill,option)∈n'.flight s ∨ (n'.side !s).him option=true) ∧
    ((n'.side !s).us option=true ∨ (n'.side !s).askedUs option=true→
      (kWill,option)∈n'.flight (!s) ∨ (n'.side s).him option=true) := by
  constructor
  · intro hus
    rw [h.side] at hus
    rcases hs.us s option hus with hflight | hhim
    · rw [h.flight] at hflight
      rcases List.mem_append.mp hflight with hhead | htail
      · exact Or.inr (h.takes.will_taken hhead)
      · exact Or.inl htail
    · exact Or.inr (h.takes.him_mono hhim)
  · intro hus
    rw [h.answered,h.side]
    rcases h.takes.us_answered hus with hbefore | hreply
    · rcases hs.us (!s) option hbefore with hflight | hhim
      · exact Or.inl (List.mem_append_left _ hflight)
      · rw [Bool.not_not] at hhim
        exact Or.inr hhim
    · exact Or.inl (List.mem_append_right _ hreply)

theorem him (h : n.TakesFrom s n' head reply) (hs : n.Settles) (option : Byte) :
    ((n'.side s).him option=true ∨ (n'.side s).askedHim option=true→
      (kDo,option)∈n'.flight s ∨ (n'.side !s).us option=true) ∧
    ((n'.side !s).him option=true ∨ (n'.side !s).askedHim option=true→
      (kDo,option)∈n'.flight (!s) ∨ (n'.side s).us option=true) := by
  constructor
  · intro hhim
    rw [h.side] at hhim
    rcases hs.him s option hhim with hflight | hus
    · rw [h.flight] at hflight
      rcases List.mem_append.mp hflight with hhead | htail
      · exact Or.inr (h.takes.do_taken hhead)
      · exact Or.inl htail
    · exact Or.inr (h.takes.us_mono hus)
  · intro hhim
    rw [h.answered,h.side]
    rcases h.takes.him_answered hhim with hbefore | hreply
    · rcases hs.him (!s) option hbefore with hflight | hus
      · exact Or.inl (List.mem_append_left _ hflight)
      · rw [Bool.not_not] at hus
        exact Or.inr hus
    · exact Or.inl (List.mem_append_right _ hreply)

theorem bound (h : n.TakesFrom s n' head reply) (hs : n.Settles) :
    n'.sent s ≤ (if n'.opened s then 3 else 0)+agreed (n'.side s) ∧
      n'.sent (!s) ≤ (if n'.opened (!s) then 3 else 0)+agreed (n'.side !s) := by
  have hreply := h.takes.agreed_reply (h.head_offered hs)
  have hself := hs.bound s
  have hother := hs.bound !s
  rw [h.opened,h.side,h.sent,h.replied]
  exact ⟨hself,by omega⟩

/-- What one side takes, and answers, keeps everything accounted for. -/
theorem settles (h : n.TakesFrom s n' head reply) (hs : n.Settles)
    (hparsed : ∀b,(parse (n'.side !b).parserState (n'.wire b)).1=.data) : n'.Settles := by
  have hside : ∀b,b=s ∨ b=!s := by
    intro b
    cases b <;> cases s <;> simp
  refine ⟨hparsed,?_,?_,?_,?_⟩
  · intro b
    rcases hside b with rfl | rfl
    · exact (h.offered hs).1
    · exact (h.offered hs).2
  · intro b option
    rcases hside b with rfl | rfl
    · exact (h.us hs option).1
    · rw [Bool.not_not]
      exact (h.us hs option).2
  · intro b option
    rcases hside b with rfl | rfl
    · exact (h.him hs option).1
    · rw [Bool.not_not]
      exact (h.him hs option).2
  · intro b
    rcases hside b with rfl | rfl
    · exact (h.bound hs).1
    · exact (h.bound hs).2

end TakesFrom

theorem offered_isVerb (h : ∀offer∈offers,(offer.1=kWill ∨ offer.1=kDo) ∧ IsOffered offer.2) :
    ∀offer∈offers,isVerb offer.1=true :=
  fun offer ho => verb_isVerb (h offer ho).1

/-- A byte is taken, and what answers it is put on the other wire. -/
theorem taking_settles (h : n.Arrives s c w) :
    ((n.taking s c w).offer (!s) ((n.side !s).receiveByte c).reply).Settles := by
  let reply := ((n.side !s).receiveByte c).reply
  let head : List Offer := if (n.side !s).state=.option then [((n.side !s).verb,c)] else []
  have hflight : n.flight s=head++(n.taking s c w).flight s := flight_taking h
  have hhead : (n.side !s).state=.option→((n.side !s).verb=kWill ∨ (n.side !s).verb=kDo) ∧ IsOffered c := by
    intro hstate
    apply h.settles.offers s ((n.side !s).verb,c)
    rw [flight_taking h,if_pos hstate]
    exact List.mem_append_left _ (List.mem_singleton_self _)
  have htakes : Takes (n.side !s) ((n.taking s c w).side !s) head reply := by
    rw [taking_side]
    exact receiveByte_takes hhead
  have hhead : ∀offer∈head,IsOffered offer.2 := by
    intro offer ho
    have hmem : offer∈n.flight s := by
      rw [hflight]
      exact List.mem_append_left _ ho
    exact (h.settles.offers s offer hmem).2
  have hverbs : ∀offer∈reply,isVerb offer.1=true := offered_isVerb (htakes.reply_offered hhead)
  have hanswered := offer_flight hverbs (taking_parsed h !s)
  have hfrom : n.TakesFrom s ((n.taking s c w).offer (!s) reply) head reply := {
    takes := htakes
    side := taking_side_self (w:=w)
    opened := rfl
    flight := by
      have hother : ((n.taking s c w).offer (!s) reply).flight (!!s)=(n.taking s c w).flight (!!s) :=
        offer_flight_other
      rw [Bool.not_not] at hother
      rw [hother]
      exact hflight
    answered := by rw [hanswered,taking_flight_other]
    sent := Function.update_of_ne (by cases s <;> decide) _ _
    replied := Function.update_self .. }
  exact hfrom.settles h.settles (offer_parsed hverbs (taking_parsed h))

/-! ### The actions -/

/-- Bytes of a wire taken one after another. -/
def passing (n : TelnetNetwork) (s : Bool) (received w : Bytes) : TelnetNetwork :=
  offer {n with side := Function.update n.side (!s) ((n.side !s).receive received).protocol,
                wire := Function.update n.wire s w} (!s) ((n.side !s).receive received).reply

private theorem passing_cons {received : Bytes} : n.passing s (c::received) w=
    ((n.taking s c (received++w)).offer (!s) ((n.side !s).receiveByte c).reply).passing s received w := by
  have hne : (!s)≠s := by cases s <;> decide
  unfold passing
  have hside : ((n.taking s c (received++w)).offer (!s) ((n.side !s).receiveByte c).reply).side (!s)=
      ((n.side !s).receiveByte c).protocol := taking_side (w:=received++w)
  rw [hside,receive]
  unfold offer taking
  simp only [Function.update_idem,Function.update_self,Function.update_of_ne hne,List.length_append,wireOf_append,
    List.append_assoc,Function.update_comm hne,Nat.add_assoc]

private theorem passing_settles {received : Bytes} (hs : n.Settles) (hw : n.wire s=received++w) :
    (n.passing s received w).Settles := by
  induction received generalizing n with
  | nil =>
    have hself : n.passing s [] w=n := by
      have hw' : n.wire s=w := hw
      unfold passing offer
      simp [receive,wireOf,← hw']
    rwa [hself]
  | cons c received ih =>
    rw [passing_cons]
    apply ih
    · exact taking_settles ⟨hs,hw⟩
    · have hne : s≠!s := by cases s <;> decide
      exact (Function.update_of_ne hne _ _).trans taking_wire

private theorem deliver_settles (hs : n.Settles) (count : ℕ) : (n.deliver s count).Settles :=
  passing_settles hs (List.take_append_drop count (n.wire s)).symm

/-- Asking changes nothing but what is asked. -/
def asking (n : TelnetNetwork) (s : Bool) : TelnetNetwork :=
  {n with side := Function.update n.side s (n.side s).openingNegotiation,opened := Function.update n.opened s true}

theorem asking_side_self : (n.asking s).side s=(n.side s).openingNegotiation := Function.update_self ..

theorem asking_side_other {b : Bool} (hb : b≠s) : (n.asking s).side b=n.side b := Function.update_of_ne hb _ _

theorem asking_same (b : Bool) : ((n.asking s).side b).parserState=(n.side b).parserState ∧
    ((n.asking s).side b).us=(n.side b).us ∧ ((n.asking s).side b).him=(n.side b).him := by
  by_cases hb : b=s
  · subst hb
    rw [asking_side_self]
    exact ⟨rfl,rfl,rfl⟩
  · rw [asking_side_other hb]
    exact ⟨rfl,rfl,rfl⟩

theorem asking_flight (b : Bool) : (n.asking s).flight b=n.flight b := by
  unfold flight
  rw [(asking_same !b).1]
  rfl

private theorem openingNegotiation_askedUs {t : TelnetProtocol} {option : Byte}
    (h : t.openingNegotiation.askedUs option=true) :
    t.askedUs option=true ∨ (kWill,option)∈openingOffers := by
  by_cases ho : option=kBinary
  · subst ho
    exact Or.inr (by decide)
  · have hother : t.openingNegotiation.askedUs option=t.askedUs option := Function.update_of_ne ho _ _
    rw [hother] at h
    exact Or.inl h

private theorem openingNegotiation_askedHim {t : TelnetProtocol} {option : Byte}
    (h : t.openingNegotiation.askedHim option=true) :
    t.askedHim option=true ∨ (kDo,option)∈openingOffers := by
  by_cases hb : option=kBinary
  · subst hb
    exact Or.inr (by decide)
  · by_cases hg : option=kSuppressGoAhead
    · subst hg
      exact Or.inr (by decide)
    · have hother : t.openingNegotiation.askedHim option=t.askedHim option :=
        (Function.update_of_ne hg _ _).trans (Function.update_of_ne hb _ _)
      rw [hother] at h
      exact Or.inl h

theorem openingOffers_offered : ∀offer∈openingOffers,(offer.1=kWill ∨ offer.1=kDo) ∧ IsOffered offer.2 := by
  unfold openingOffers IsOffered
  simp

/-- An opening puts what it asks on the wire. -/
theorem opening_settles (hs : n.Settles) : (n.opening s).Settles := by
  cases hopened : n.opened s with
  | true =>
    have hself : n.opening s=n := if_pos hopened
    rwa [hself]
  | false =>
    have hopening : n.opening s=(n.asking s).offer s openingOffers := if_neg (by simp [hopened])
    have hparsed : ∀b,(parse ((n.asking s).side !b).parserState ((n.asking s).wire b)).1=.data := by
      intro b
      rw [(asking_same !b).1]
      exact hs.parsed b
    have hverbs := offered_isVerb openingOffers_offered
    have hflight : ∀b,((n.asking s).offer s openingOffers).flight b=n.flight b++if b=s then
      openingOffers else [] := by
      intro b
      by_cases hb : b=s
      · subst hb
        rw [if_pos rfl,offer_flight hverbs (hparsed b),asking_flight]
      · obtain rfl : b=!s := by cases b <;> cases s <;> simp_all
        rw [if_neg hb,List.append_nil,offer_flight_other,asking_flight]
    have hkept : ∀b,∀offer∈n.flight b,offer∈((n.asking s).offer s openingOffers).flight b := by
      intro b offer ho
      rw [hflight]
      exact List.mem_append_left _ ho
    have hopens : ∀offer∈openingOffers,offer∈((n.asking s).offer s openingOffers).flight s := by
      intro offer ho
      rw [hflight,if_pos rfl]
      exact List.mem_append_right _ ho
    rw [hopening]
    refine ⟨offer_parsed hverbs hparsed,?_,?_,?_,?_⟩
    · intro b offer ho
      rw [hflight] at ho
      rcases List.mem_append.mp ho with hold | hnew
      · exact hs.offers b offer hold
      · split_ifs at hnew
        · exact openingOffers_offered offer hnew
        · cases hnew
    · intro b option hus
      have hbefore : ((n.side b).us option=true ∨ (n.side b).askedUs option=true) ∨
          b=s ∧ (kWill,option)∈openingOffers := by
        rcases hus with hus | hasked
        · rw [← (asking_same (s:=s) b).2.1]
          exact Or.inl (Or.inl hus)
        · by_cases hb : b=s
          · subst hb
            have hasked : (n.side b).openingNegotiation.askedUs option=true := by
              rw [← asking_side_self]
              exact hasked
            rcases openingNegotiation_askedUs hasked with hold | hnew
            · exact Or.inl (Or.inr hold)
            · exact Or.inr ⟨rfl,hnew⟩
          · rw [← asking_side_other hb]
            exact Or.inl (Or.inr hasked)
      have hhim := (asking_same (n:=n) (s:=s) !b).2.2
      rcases hbefore with hold | ⟨rfl,hnew⟩
      · rcases hs.us b option hold with hf | hh
        · exact Or.inl (hkept b _ hf)
        · exact Or.inr ((congrFun hhim option).trans hh)
      · exact Or.inl (hopens _ hnew)
    · intro b option hhim
      have hbefore : ((n.side b).him option=true ∨ (n.side b).askedHim option=true) ∨
          b=s ∧ (kDo,option)∈openingOffers := by
        rcases hhim with hhim | hasked
        · rw [← (asking_same (s:=s) b).2.2]
          exact Or.inl (Or.inl hhim)
        · by_cases hb : b=s
          · subst hb
            have hasked : (n.side b).openingNegotiation.askedHim option=true := by
              rw [← asking_side_self]
              exact hasked
            rcases openingNegotiation_askedHim hasked with hold | hnew
            · exact Or.inl (Or.inr hold)
            · exact Or.inr ⟨rfl,hnew⟩
          · rw [← asking_side_other hb]
            exact Or.inl (Or.inr hasked)
      have hus := (asking_same (n:=n) (s:=s) !b).2.1
      rcases hbefore with hold | ⟨rfl,hnew⟩
      · rcases hs.him b option hold with hf | hu
        · exact Or.inl (hkept b _ hf)
        · exact Or.inr ((congrFun hus option).trans hu)
      · exact Or.inl (hopens _ hnew)
    · intro b
      have hagreed : agreed ((n.asking s).side b)=agreed (n.side b) := by
        unfold agreed
        rw [(asking_same b).2.1,(asking_same b).2.2]
      have hbound := hs.bound b
      change Function.update n.sent s (n.sent s+3) b ≤ (if Function.update n.opened s true b then 3 else 0)+
        agreed ((n.asking s).side b)
      rw [hagreed]
      by_cases hb : b=s
      · subst hb
        rw [hopened] at hbound
        rw [Function.update_self,Function.update_self,if_pos rfl]
        simp only [Bool.false_eq_true,if_false] at hbound
        omega
      · rwa [Function.update_of_ne hb,Function.update_of_ne hb]

/-- Encoded data carries no offer. -/
theorem writes_settles (hs : n.Settles) (data : Bytes) : (n.act (.writes s data)).Settles := by
  let m := n.act (.writes s data)
  have hwire : ∀b,(parse (n.side !b).parserState (m.wire b)).1=.data ∧
      offersIn (n.side !b).parserState (m.wire b)=n.flight b := by
    intro b
    by_cases hb : b=s
    · subst hb
      have hself : m.wire b=n.wire b++(n.side b).encode data := Function.update_self ..
      have hencode := parse_encode (t:=n.side b) data (hs.parsed b)
      rw [hself,parse_append,offersIn_append,hencode.1,hencode.2,List.append_nil]
      exact ⟨hs.parsed b,rfl⟩
    · have hother : m.wire b=n.wire b := Function.update_of_ne hb _ _
      rw [hother]
      exact ⟨hs.parsed b,rfl⟩
  have hflight : ∀b,m.flight b=n.flight b := fun b => (hwire b).2
  refine ⟨fun b => (hwire b).1,?_,?_,?_,hs.bound⟩
  · intro b offer ho
    exact hs.offers b offer ((hflight b).symm ▸ ho)
  · intro b option hus
    change _∈m.flight b ∨ _
    rw [hflight]
    exact hs.us b option hus
  · intro b option hhim
    change _∈m.flight b ∨ _
    rw [hflight]
    exact hs.him b option hhim

private theorem act_settles (hs : n.Settles) (action : TelnetAction) : (n.act action).Settles := by
  cases action with
  | opens => exact opening_settles hs
  | delivers s count => exact deliver_settles hs count
  | writes s data => exact writes_settles hs data

private theorem run_settles (hs : n.Settles) (actions : List TelnetAction) : (n.run actions).Settles := by
  induction actions generalizing n with
  | nil => exact hs
  | cons action actions ih => exact ih (act_settles hs action)

/-- However openings, data and reads are interleaved, each side sends seven offers at most, and once
nothing is under way what a side does is what the other takes it to do. -/
theorem telnet_agrees (actions : List TelnetAction) :
    (∀s,(initial.run actions).sent s ≤ 7) ∧
      ((∀s,(initial.run actions).wire s=[])→
        ∀s option,((initial.run actions).side s).us option=((initial.run actions).side !s).him option) := by
  have hs := run_settles initial_settles actions
  constructor
  · intro s
    have hbound := hs.bound s
    have hagreed := agreed_le (t:=(initial.run actions).side s)
    split_ifs at hbound <;> omega
  · intro hempty s option
    have hflight : ∀s,(initial.run actions).flight s=[] := by
      intro s
      unfold flight
      rw [hempty]
      rfl
    have hus := hs.us s option
    have hhim := hs.him (!s) option
    rw [hflight,Bool.not_not] at hhim
    rw [hflight] at hus
    apply Bool.eq_iff_iff.mpr
    constructor
    · intro h
      exact (hus (Or.inl h)).resolve_left List.not_mem_nil
    · intro h
      exact (hhim (Or.inl h)).resolve_left List.not_mem_nil

/-- Offers that cross on the wire. -/
def crossing : List TelnetAction :=
  [.opens false,.opens true,.delivers false 9,.delivers true 9,.delivers false 3,.delivers true 3]

theorem telnet_agrees_crossing : ((initial.run crossing).side false).us kSuppressGoAhead=true ∧
    ((initial.run crossing).side false).us kSuppressGoAhead=
    ((initial.run crossing).side true).him kSuppressGoAhead :=
  ⟨by decide,(telnet_agrees crossing).2 (by decide) false kSuppressGoAhead⟩

end TelnetNetwork

end Loftail
