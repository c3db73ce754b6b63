import Loftail.SerialFraming
import Mathlib.Tactic.Ring

/-! # What a framed command prints is read back -/
namespace Loftail
open LineSearch

/-! ## White space at the ends -/

/-- A text with something other than white space at its end. -/
def Solid (s : Bytes) : Prop := ∃b,s.getLast?=some b ∧ isBlank b=false

variable {s t : Bytes} {b : Byte} {token payload noise after : Bytes} {n : ℕ} {code : ℤ}

theorem trimEnd_append (h : Solid s) : trimEnd (s++t)=s++trimEnd t := by
  obtain ⟨b,hb,hblank⟩ := h
  obtain ⟨s,rfl⟩ := List.getLast?_eq_some_iff.mp hb
  have hkeep : ([b].reverse++s.reverse).dropWhile isBlank=[b].reverse++s.reverse := by
    rw [List.reverse_singleton,List.singleton_append,List.dropWhile_cons_of_neg (by simp [hblank])]
  rw [trimEnd,trimEnd,List.reverse_append,List.reverse_append,List.dropWhile_append]
  split
  · rename_i hnil
    rw [hkeep,List.isEmpty_iff.mp hnil]
    simp
  · simp

private theorem trimEnd_blank (h : isBlank b=true) : trimEnd (s++[b])=trimEnd s := by
  rw [trimEnd,trimEnd,List.reverse_append,List.reverse_singleton,List.singleton_append,List.dropWhile_cons_of_pos h]

theorem trimEnd_solid (h : Solid s) : trimEnd s=s := by
  have happ := trimEnd_append (t:=[]) h
  simpa [trimEnd] using happ

theorem trimBlanks_head (h : isBlank b=false) : trimBlanks (b::s)=trimEnd (b::s) := by
  rw [trimBlanks,List.dropWhile_cons_of_neg (by simp [h])]

private theorem trimBlanks_blank (h : isBlank b=true) : trimBlanks (b::s)=trimBlanks s := by
  rw [trimBlanks,trimBlanks,List.dropWhile_cons_of_pos h]

theorem solid_append (h : Solid t) : Solid (s++t) := by
  obtain ⟨b,hb,hblank⟩ := h
  refine ⟨b,?_,hblank⟩
  rw [List.getLast?_append,hb]
  rfl

/-! ## Printed numbers -/

theorem isDecimal_iff : isDecimal b=true ↔ 0x30≤b.toNat ∧ b.toNat≤0x39 := by
  simp [isDecimal,UInt8.le_iff_toNat_le]

theorem decimal_solid (h : isDecimal b=true) : isBlank b=false := by
  have hb := isDecimal_iff.mp h
  simp only [isBlank,Bool.or_eq_false_iff,decide_eq_false_iff_not,Bool.and_eq_false_iff,UInt8.le_iff_toNat_le,
    ← UInt8.toNat_inj]
  simp
  omega

theorem decimal_digit {d : ℕ} (h : d < 10) : isDecimal (UInt8.ofNat (0x30+d))=true ∧
    (UInt8.ofNat (0x30+d)).toNat-0x30=d := by
  have hnat : (UInt8.ofNat (0x30+d)).toNat=0x30+d := by
    rw [UInt8.toNat_ofNat',Nat.mod_eq_of_lt (by omega)]
  refine ⟨isDecimal_iff.mpr ?_,?_⟩ <;> omega

theorem printedNat_ne_nil (n : ℕ) : printedNat n≠[] := by
  unfold printedNat
  split
  · exact List.cons_ne_nil _ _
  · rename_i hn
    intro h
    rw [List.map_eq_nil_iff,List.reverse_eq_nil_iff] at h
    exact Nat.digits_ne_nil_iff_ne_zero.mpr hn h

theorem printedNat_decimal (n : ℕ) : ∀b∈printedNat n,isDecimal b=true := by
  intro b hb
  unfold printedNat at hb
  split at hb
  · obtain rfl := List.mem_singleton.mp hb
    rfl
  · obtain ⟨d,hd,rfl⟩ := List.mem_map.mp hb
    exact (decimal_digit (Nat.digits_lt_base (by decide) (List.mem_reverse.mp hd))).1

/-- Decimal digits, the lowest first, give back the number. -/
theorem foldr_digits (ds : List ℕ) (h : ∀d∈ds,d < 10) :
    (ds.map fun d => UInt8.ofNat (0x30+d)).foldr (fun b n => 10*n+(b.toNat-0x30)) 0=Nat.ofDigits 10 ds := by
  induction ds with
  | nil => rfl
  | cons d ds ih =>
    have hd := (decimal_digit (h d (List.mem_cons_self ..))).2
    rw [List.map_cons,List.foldr_cons,ih (fun d hd => h d (List.mem_cons_of_mem _ hd)),hd,Nat.ofDigits_cons]
    ring

theorem decimalValue_printedNat (n : ℕ) : decimalValue (printedNat n)=some n := by
  have hok : printedNat n≠[] ∧ (printedNat n).all isDecimal=true :=
    ⟨printedNat_ne_nil n,List.all_eq_true.mpr (printedNat_decimal n)⟩
  rw [decimalValue,if_pos hok]
  congr 1
  unfold printedNat
  split
  · rename_i hn
    rw [hn]
    rfl
  · have hdigits : ∀d∈Nat.digits 10 n,d < 10 := fun d hd => Nat.digits_lt_base (by decide) hd
    rw [List.map_reverse,List.foldl_reverse,foldr_digits _ hdigits,Nat.ofDigits_digits]

theorem printed_solid (n : ℤ) : Solid (printed n) := by
  have hnat : Solid (printedNat n.natAbs) := by
    have hlast := List.getLast?_eq_getLast_of_ne_nil (printedNat_ne_nil n.natAbs)
    exact ⟨_,hlast,decimal_solid (printedNat_decimal _ _ (List.getLast_mem _))⟩
  unfold printed
  split
  · exact solid_append (s:=[0x2D]) hnat
  · exact hnat

private theorem newline_printed (n : ℤ) : newline∉printed n := by
  have hnat : newline∉printedNat n.natAbs := fun h => absurd (printedNat_decimal _ _ h) (by decide)
  unfold printed
  split
  · intro h
    rcases List.mem_cons.mp h with h | h
    · cases h
    · exact hnat h
  · exact hnat

theorem trimBlanks_printed (n : ℤ) : trimBlanks (printed n)=printed n := by
  have hhead : ∃b s,printed n=b::s ∧ isBlank b=false := by
    unfold printed
    split
    · exact ⟨_,_,rfl,rfl⟩
    · obtain ⟨b,s,hs⟩ := List.exists_cons_of_ne_nil (printedNat_ne_nil n.natAbs)
      refine ⟨b,s,hs,decimal_solid (printedNat_decimal n.natAbs b ?_)⟩
      rw [hs]
      exact List.mem_cons_self ..
  obtain ⟨b,s,hs,hb⟩ := hhead
  have hsolid := printed_solid n
  rw [hs] at hsolid ⊢
  rw [trimBlanks_head hb,trimEnd_solid hsolid]

private theorem signedValue_printed (n : ℤ) : signedValue (printed n)=some n := by
  by_cases hneg : n < 0
  · rw [printed,if_pos hneg,signedValue,decimalValue_printedNat,Option.map_some]
    congr 1
    omega
  · have hdecimal := printedNat_decimal n.natAbs
    have hnat := decimalValue_printedNat n.natAbs
    rw [printed,if_neg hneg]
    generalize printedNat n.natAbs=s at hdecimal hnat
    unfold signedValue
    split
    · exact absurd (hdecimal 0x2D (List.mem_cons_self ..)) (by decide)
    · exact absurd (hdecimal 0x2B (List.mem_cons_self ..)) (by decide)
    · rw [hnat,Option.map_some]
      congr 1
      show (n.natAbs : ℤ)=n
      omega

/-- A printed number is read back. -/
theorem toInt_printed (h : isInt code=true) : toInt (printed code)=some code := by
  rw [toInt,trimBlanks_printed,signedValue_printed,Option.filter_some,h]
  rfl

/-! ## The lines of a frame -/

/-- A token of one line with no white space at its end. -/
structure SoundToken (token : Bytes) : Prop where
  newline : newline∉token
  last : ∀b,token.getLast?=some b→isBlank b=false

theorem hex_visible (n : ℕ) : ∀b∈hex n,0x30≤b.toNat ∧ b.toNat≤0x66 := by
  intro b hb
  unfold hex at hb
  split at hb
  · obtain rfl := List.mem_singleton.mp hb
    decide
  · obtain ⟨d,hd,rfl⟩ := List.mem_map.mp hb
    have hlt : d < 16 := Nat.digits_lt_base (by decide) (List.mem_reverse.mp hd)
    rw [UInt8.toNat_ofNat']
    split <;> omega

/-- Every token a session makes is such. -/
theorem soundToken_frameToken (tokenBase frameCounter : ℕ) : SoundToken (frameToken tokenBase frameCounter) := by
  have hvisible : ∀b∈frameToken tokenBase frameCounter,0x30≤b.toNat ∧ b.toNat≤0x66 := by
    intro b hb
    rcases List.mem_append.mp hb with hb | hb
    · exact hex_visible _ b hb
    · exact hex_visible _ b hb
  constructor
  · intro h
    exact absurd (hvisible _ h).1 (by decide)
  · intro b hb
    have hmem := hvisible b (List.mem_of_getLast? hb)
    simp only [isBlank,Bool.or_eq_false_iff,decide_eq_false_iff_not,Bool.and_eq_false_iff,UInt8.le_iff_toNat_le,
      ← UInt8.toNat_inj]
    simp
    omega

theorem trimBlanks_append (h : Solid s) (hhead : ∀b,s.head?=some b→isBlank b=false) :
    trimBlanks (s++t)=s++trimEnd t := by
  cases s with
  | nil =>
    obtain ⟨b,hb,-⟩ := h
    cases hb
  | cons b s =>
    rw [List.cons_append,trimBlanks_head (hhead b rfl),← List.cons_append,trimEnd_append h]

namespace SoundToken
variable (hk : SoundToken token)
include hk

theorem solid {head : Bytes} (h : Solid head) : Solid (head++token) := by
  cases hlast : token.getLast? with
  | none =>
    rw [List.getLast?_eq_none_iff.mp hlast,List.append_nil]
    exact h
  | some b => exact solid_append ⟨b,hlast,hk.last b hlast⟩

theorem trim_begin : trimBlanks (beginMarker token++t)=beginMarker token++trimEnd t := by
  apply trimBlanks_append (hk.solid ⟨0x2D,rfl,rfl⟩)
  rintro b ⟨⟩
  rfl

theorem trim_end : trimBlanks (endMarker token++t)=endMarker token++trimEnd t := by
  apply trimBlanks_append (hk.solid ⟨0x2D,rfl,rfl⟩)
  rintro b ⟨⟩
  rfl

theorem newline_begin : Loftail.newline∉beginMarker token := by
  intro h
  rcases List.mem_append.mp h with h | h
  · exact absurd h (by decide)
  · exact hk.newline h

theorem newline_end : Loftail.newline∉endMarker token := by
  intro h
  rcases List.mem_append.mp h with h | h
  · exact absurd h (by decide)
  · exact hk.newline h

theorem newline_status (code : ℤ) : Loftail.newline∉endMarker token++0x20::printed code := by
  intro h
  rcases List.mem_append.mp h with h | h
  · exact hk.newline_end h
  · rcases List.mem_cons.mp h with h | h
    · cases h
    · exact newline_printed code h

/-- A marker that begins no trimmed line begins no line. -/
theorem not_prefix (h : Unmarked (endMarker token) s) : ∀line∈s.splitOn Loftail.newline,
    ¬endMarker token<+:line := by
  rintro line hl ⟨t,rfl⟩
  apply h _ hl
  rw [hk.trim_end]
  exact List.prefix_append ..

end SoundToken

theorem markerLine_past (start rest : Bytes) {marker skipped line : Bytes} (hskip : Unmarked marker skipped)
    (hline : newline∉line) (hp : marker<+:trimBlanks line) :
    markerLine (start++(skipped++newline::(line++newline::rest))) marker start.length=
      some (start.length+skipped.length+1,start.length+skipped.length+1+line.length+1) := by
  refine lineWhere_past (p:=fun line => marker.isPrefixOf (trimBlanks line)) ?_ hline
    (List.isPrefixOf_iff_prefix.mpr hp) ?_
  · intro l hl
    rw [Bool.eq_false_iff]
    exact fun hpre => hskip l hl (List.isPrefixOf_iff_prefix.mp hpre)
  · simp only [List.length_append,List.length_cons]
    omega

/-- What comes up to the payload. -/
def frameHead (token noise : Bytes) : Bytes := noise++newline::(beginMarker token++[newline])

def statusLine (token : Bytes) (code : ℤ) : Bytes := endMarker token++0x20::printed code

def frameBody (token payload after : Bytes) (code : ℤ) : Bytes :=
  payload++newline::(statusLine token code++newline::after)

theorem framed_eq : noise++framed token payload code++after=frameHead token noise++
    frameBody token payload after code := by
  simp [framed,frameHead,frameBody,statusLine]

theorem payloadStart_framed (hk : SoundToken token) (hnoise : Unmarked (beginMarker token) noise) (body : Bytes) :
    endOfMarkerLine (frameHead token noise++body) (beginMarker token) 0=some (frameHead token noise).length := by
  have hshape : frameHead token noise++body=[]++(noise++newline::(beginMarker token++newline::body)) := by
    simp [frameHead]
  have hmark : beginMarker token<+:trimBlanks (beginMarker token) := by
    have htrim := hk.trim_begin (t:=[])
    rw [List.append_nil] at htrim
    rw [htrim]
    exact List.prefix_append ..
  rw [hshape,endOfMarkerLine]
  have hline := markerLine_past [] body hnoise hk.newline_begin hmark
  rw [List.length_nil] at hline
  rw [hline,Option.map_some]
  simp only [frameHead,List.length_append,List.length_cons,List.length_nil]
  congr 1
  omega

section Framed
variable (hk : SoundToken token) (hcode : isInt code=true) {head : Bytes} {frame : SerialFrame}
  (hframe : frame.token=token)
include hk

theorem prefix_statusLine : endMarker token<+:trimBlanks (statusLine token code) := by
  rw [statusLine,hk.trim_end]
  exact List.prefix_append ..

/-- The status line is found past a payload that holds none. -/
theorem markerLine_scanned (h : Unmarked (endMarker token) payload) :
    markerLine (head++frameBody token payload after code) (endMarker token) head.length=
      some (head.length+payload.length+1,head.length+payload.length+1+(statusLine token code).length+1) :=
  markerLine_past head after h (hk.newline_status code) (prefix_statusLine hk)

/-- It is found from where the payload ends, whatever the payload. -/
theorem markerLine_full :
    markerLine (head++frameBody token payload after code) (endMarker token) (head.length+payload.length)=
      some (head.length+payload.length+1,head.length+payload.length+1+(statusLine token code).length+1) := by
  have hshape : head++frameBody token payload after code=
      (head++payload)++([]++newline::(statusLine token code++newline::after)) := by simp [frameBody]
  have hnil : Unmarked (endMarker token) [] := by
    intro line hl
    obtain rfl := List.mem_singleton.mp hl
    simp [trimBlanks,trimEnd,endMarker]
  have hline := markerLine_past (head++payload) after hnil (hk.newline_status code) (prefix_statusLine hk)
  rw [List.length_append] at hline
  rw [hshape]
  exact hline

include hcode hframe in
/-- From the status line on the answer is read. -/
theorem answerAt_framed (bound : PayloadBound)
    (hline : markerLine (head++frameBody token payload after code) (endMarker token) bound.searchFrom=
      some (head.length+payload.length+1,head.length+payload.length+1+(statusLine token code).length+1))
    (hend : bound.payloadEnd.getD (scannedEnd (head++frameBody token payload after code) frame head.length
      (head.length+payload.length+1))=head.length+payload.length) :
    answerAt (head++frameBody token payload after code) frame head.length bound=
      ⟨bound.short,.complete,payload,code,head.length+payload.length+1+(statusLine token code).length+1⟩ := by
  have hpayload : mid (head++frameBody token payload after code) head.length payload.length=payload :=
    mid_append
  have hshape : head++frameBody token payload after code=
      (head++payload++[newline])++((statusLine token code++[newline])++after) := by simp [frameBody]
  have hstart : head.length+payload.length+1=(head++payload++[newline]).length := by simp [Nat.add_assoc]
  have hstatus : mid (head++frameBody token payload after code) (head.length+payload.length+1)
      ((statusLine token code).length+1)=statusLine token code++[newline] := by
    have hlen : (statusLine token code).length+1=(statusLine token code++[newline]).length := by simp
    rw [hshape,hstart,hlen]
    exact mid_append
  have htrim : trimBlanks (statusLine token code++[newline])=endMarker token++0x20::printed code := by
    have hsolid : Solid (0x20::printed code) := solid_append (s:=[0x20]) (printed_solid code)
    rw [statusLine,List.append_assoc,hk.trim_end,trimEnd_blank rfl,trimEnd_solid hsolid]
  rw [answerAt,hframe,hline]
  dsimp only
  rw [hend,if_neg (by omega),Nat.add_sub_cancel_left,hpayload]
  have hlen : head.length+payload.length+1+(statusLine token code).length+1-(head.length+payload.length+1)=
      (statusLine token code).length+1 := by omega
  rw [hlen,hstatus,htrim,List.drop_left,trimBlanks_blank rfl,trimBlanks_printed,toInt_printed hcode]

omit hk in
/-- A payload of the expected length is bounded by the terminator after it. -/
theorem payloadBound_full (hlen : frame.expected=payload.length) (hframe : frame.token=token) :
    payloadBound (head++frameBody token payload after code) frame head.length=
      some ⟨false,some (head.length+payload.length),head.length+payload.length⟩ := by
  have hshape : head++frameBody token payload after code=
      (head++payload)++((newline::endMarker token)++(0x20::printed code++newline::after)) := by
    simp [frameBody,statusLine]
  have hat : mid (head++frameBody token payload after code) (head.length+payload.length)
      (newline::endMarker token).length=newline::endMarker token := by
    rw [hshape,← List.length_append]
    exact mid_append
  have hroom : head.length+payload.length+(newline::endMarker token).length≤
      (head++frameBody token payload after code).length := by
    rw [hshape]
    simp only [List.length_append]
    omega
  have hnat : frame.expected.toNat=payload.length := by rw [hlen,Int.toNat_natCast]
  rw [payloadBound,if_neg (by omega),hnat,hframe]
  exact if_pos ⟨hroom,hat⟩

/-- Past a shorter payload there is no other terminator at the bound. -/
theorem payloadBound_short (hlen : (payload.length : ℤ) < frame.expected) (hframe : frame.token=token)
    (h : Unmarked (endMarker token) payload) (hafter : ¬endMarker token<:+:after) :
    payloadBound (head++frameBody token payload after code) frame head.length=some ⟨true,none,head.length⟩ := by
  have hlt : payload.length < frame.expected.toNat := by omega
  obtain ⟨k,hk'⟩ : ∃k,frame.expected.toNat=payload.length+1+k := ⟨frame.expected.toNat-(payload.length+1),by omega⟩
  have hbeyond : mid (head++frameBody token payload after code) (head.length+frame.expected.toNat)
      (newline::endMarker token).length≠newline::endMarker token := by
    intro hat
    have hshape : head++frameBody token payload after code=
        (head++payload++[newline])++(statusLine token code++newline::after) := by simp [frameBody]
    have hpre : newline::endMarker token<+:
        (head++frameBody token payload after code).drop (head.length+frame.expected.toNat) := by
      rw [← hat]
      exact List.take_prefix ..
    have hdrop : (head++frameBody token payload after code).drop (head.length+frame.expected.toNat)=
        (statusLine token code++newline::after).drop k := by
      have hpos : head.length+frame.expected.toNat=(head++payload++[newline]).length+k := by
        simp only [List.length_append,List.length_singleton]
        omega
      rw [hshape,hpos,List.drop_length_add_append]
    rw [hdrop] at hpre
    exact hafter (infix_of_prefix_drop (hk.newline_status code) hpre)
  have hfirst : indexOf (newline::endMarker token) (head++frameBody token payload after code) head.length=
      some (head.length+payload.length) := by
    have hshape : frameBody token payload after code=
        payload++((newline::endMarker token)++(0x20::printed code++newline::after)) := by
      simp [frameBody,statusLine]
    rw [hshape]
    apply indexOf_append
    intro i hi
    rw [List.cons_append]
    exact not_prefix_drop hk.newline_end (hk.not_prefix h) i hi
  have hclosed : (endOfMarkerLine (head++frameBody token payload after code) (endMarker token)
      (head.length+payload.length+1)).isSome=true := by
    have hshape : head++frameBody token payload after code=
        (head++payload++[newline])++(statusLine token code++newline::after) := by simp [frameBody]
    have hpos : head.length+payload.length+1=(head++payload++[newline]).length := by simp [Nat.add_assoc]
    have hhere := lineWhere_here (head++payload++[newline]) after
      (n:=(head++frameBody token payload after code).length)
      (p:=fun line => (endMarker token).isPrefixOf (trimBlanks line)) (hk.newline_status code)
      (List.isPrefixOf_iff_prefix.mpr (prefix_statusLine hk))
    rw [endOfMarkerLine,markerLine,hpos,hshape]
    rw [hshape] at hhere
    exact congrArg (fun o => (Option.map (·.2) o).isSome) hhere
  rw [payloadBound,if_neg (by omega),hframe]
  dsimp only
  rw [if_neg (fun hboth => hbeyond hboth.2),hfirst,Option.filter_some,hclosed,if_pos rfl]
  exact if_pos (by omega)

omit hk in
/-- The payload ends before the frame's own newline. -/
theorem scannedEnd_framed (frame : SerialFrame) (head token payload after : Bytes) (code : ℤ)
    (hcr : frame.expected < 0→payload.getLast?≠some 0x0D) :
    scannedEnd (head++frameBody token payload after code) frame head.length (head.length+payload.length+1)=
      head.length+payload.length := by
  have hshape : head++frameBody token payload after code=
      (head++payload)++newline::(statusLine token code++newline::after) := by simp [frameBody]
  have hnl : (head++frameBody token payload after code)[head.length+payload.length]?=some newline := by
    rw [hshape,← List.length_append,List.getElem?_append_right (Nat.le_refl _),Nat.sub_self]
    rfl
  rw [scannedEnd,Nat.add_sub_cancel,if_pos ⟨by omega,hnl⟩]
  apply if_neg
  rintro ⟨hneg,hpos,hat⟩
  have hlast : (head++frameBody token payload after code)[head.length+payload.length-1]?=payload.getLast? := by
    have hidx : head.length+payload.length-1=head.length+(payload.length-1) := by omega
    rw [hidx,List.getElem?_append_right (by omega),Nat.add_sub_cancel_left,frameBody,
      List.getElem?_append_left (by omega),List.getLast?_eq_getElem?]
  rw [hlast] at hat
  exact hcr hneg hat

end Framed

/-- The answer to a framed command is read back from the stream: its payload, its exit code, and
where the frame ends. The noise before it has no line that starts as the frame does; what follows
does not carry the frame's end marker, let alone its token. -/
theorem readFramedAnswer_framed {frame : SerialFrame} (hk : SoundToken frame.token)
    (hnoise : Unmarked (beginMarker frame.token) noise) (hafter : ¬endMarker frame.token<:+:after)
    (hadmits : frame.Admits payload) (hcode : isInt code=true) :
    readFramedAnswer (noise++framed frame.token payload code++after) frame=
      ⟨decide ((payload.length : ℤ) < frame.expected),.complete,payload,code,
        noise.length+(framed frame.token payload code).length⟩ := by
  have hconsumed : (frameHead frame.token noise).length+payload.length+1+(statusLine frame.token code).length+1=
      noise.length+(framed frame.token payload code).length := by
    simp only [frameHead,statusLine,framed,List.length_append,List.length_cons,List.length_nil]
    omega
  rw [framed_eq,readFramedAnswer,payloadStart_framed hk hnoise]
  dsimp only
  rcases hadmits with hlen | ⟨hlen,hpayload⟩ | ⟨hneg,hpayload,hcr⟩
  · rw [payloadBound_full hlen rfl]
    dsimp only
    rw [answerAt_framed hk hcode rfl _ (markerLine_full hk) rfl,hconsumed,hlen]
    simp
  · have hend := scannedEnd_framed frame (frameHead frame.token noise) frame.token payload after code
      (fun hneg => absurd hneg (by omega))
    rw [payloadBound_short hk hlen rfl hpayload hafter]
    dsimp only
    rw [answerAt_framed hk hcode rfl ⟨true,none,_⟩ (markerLine_scanned hk hpayload) hend,hconsumed,
      decide_eq_true hlen]
  · have hend := scannedEnd_framed frame (frameHead frame.token noise) frame.token payload after code
      (fun _ => hcr)
    have hlong : ¬((payload.length : ℤ) < frame.expected) := by omega
    rw [payloadBound,if_pos hneg]
    dsimp only
    rw [answerAt_framed hk hcode rfl ⟨false,none,_⟩ (markerLine_scanned hk hpayload) hend,hconsumed,
      decide_eq_false hlong]

/-- A log of its expected length that carries the end marker's line is read whole. -/
theorem readFramedAnswer_framed_log :
    readFramedAnswer (framed (frameToken 10 1) (ascii "\nLFE-a1 0\n") 3) ⟨frameToken 10 1,10⟩=
      ⟨false,.complete,ascii "\nLFE-a1 0\n",3,28⟩ := by
  have hnoise : Unmarked (beginMarker (frameToken 10 1)) [] := by decide +kernel
  have hafter : ¬endMarker (frameToken 10 1)<:+:[] := by simp [endMarker]
  have hadmits : SerialFrame.Admits ⟨frameToken 10 1,10⟩ (ascii "\nLFE-a1 0\n") := Or.inl (by decide +kernel)
  have hread : readFramedAnswer ([]++framed (frameToken 10 1) (ascii "\nLFE-a1 0\n") 3++[])
    ⟨frameToken 10 1,10⟩=_ :=
    readFramedAnswer_framed (soundToken_frameToken 10 1) hnoise hafter hadmits rfl
  have hlong : (framed (frameToken 10 1) (ascii "\nLFE-a1 0\n") 3).length=28 := by decide +kernel
  rw [List.nil_append,List.append_nil] at hread
  rw [hread,hlong]
  rfl

/-- A token that ends in white space is not found in the trimmed line of its begin marker. -/
theorem readFramedAnswer_blank_token :
    Unmarked (beginMarker (ascii " ")) [] ∧ SerialFrame.Admits ⟨ascii " ",-1⟩ (ascii "x") ∧
      readFramedAnswer (framed (ascii " ") (ascii "x") 0) ⟨ascii " ",-1⟩=⟨false,.incomplete,[],0,0⟩ := by
  refine ⟨by decide +kernel,Or.inr (Or.inr ⟨by decide,by decide +kernel,by decide +kernel⟩),by decide +kernel⟩

end Loftail
