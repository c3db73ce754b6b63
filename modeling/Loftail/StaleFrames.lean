import Loftail.PartialFrame
import Mathlib.Data.Nat.Digits.Lemmas

/-! # Frames of one session told apart

A frame is closed by its own last byte only, and a frame of an earlier command is noise to a later one: the
counter in its token does not go on from a greater one. -/
namespace Loftail
open LineSearch

variable {frame : SerialFrame} {noise payload part after text more marker : Bytes} {code : ℤ} {token : Bytes}

/-! ## Lines put together -/

theorem unmarked_append (h : Unmarked marker text) (hmore : Unmarked marker more) :
    Unmarked marker (text++newline::more) := by
  induction text using line_induction newline with
  | hlast last hlast =>
    rw [Unmarked,List.splitOn_append_cons_self_of_not_mem hlast]
    intro line hline
    rcases List.mem_cons.mp hline with rfl | hline
    · apply h
      rw [List.splitOn_eq_singleton hlast]
      exact List.mem_singleton_self _
    · exact hmore line hline
  | hline first text hfirst ih =>
    have hparts : Unmarked marker (first++newline::text) := h
    rw [Unmarked,List.splitOn_append_cons_self_of_not_mem hfirst] at hparts
    rw [List.append_assoc,List.cons_append,Unmarked,List.splitOn_append_cons_self_of_not_mem hfirst]
    intro line hline
    rcases List.mem_cons.mp hline with rfl | hline
    · exact hparts _ List.mem_cons_self
    · exact ih (fun l hl => hparts l (List.mem_cons_of_mem _ hl)) line hline

theorem unmarked_line {line : Bytes} (hline : newline∉line) (h : ¬marker<+:trimBlanks line) :
    Unmarked marker line := by
  rw [Unmarked,List.splitOn_eq_singleton hline]
  intro l hl
  rwa [List.mem_singleton.mp hl]

/-- A longer marker starts no line either. -/
theorem Unmarked.longer {longer : Bytes} (h : Unmarked marker text) (hlonger : marker<+:longer) :
    Unmarked longer text :=
  fun line hline hprefix => h line hline (hlonger.trans hprefix)

/-- Whole lines, none of which starts with the marker. -/
def Passed (marker text : Bytes) : Prop := text=[] ∨ ∃lines,text=lines++[newline] ∧ Unmarked marker lines

theorem Passed.unmarked (h : Passed marker text) (hmore : Unmarked marker more) : Unmarked marker (text++more) := by
  rcases h with rfl | ⟨lines,rfl,hlines⟩
  · exact hmore
  · rw [List.append_assoc]
    exact unmarked_append hlines hmore

/-! ## Counters in tokens -/

private theorem hexDigit_inj {a b : ℕ} (ha : a < 16) (hb : b < 16)
    (h : UInt8.ofNat (if a < 10 then 0x30+a else 0x57+a)=UInt8.ofNat (if b < 10 then 0x30+b else 0x57+b)) :
    a=b := by
  have hnat := congrArg UInt8.toNat h
  rw [UInt8.toNat_ofNat',UInt8.toNat_ofNat'] at hnat
  split at hnat <;> split at hnat <;> omega

private theorem map_digits_prefix {as bs : List ℕ} (ha : ∀d∈as,d < 16) (hb : ∀d∈bs,d < 16)
    (h : (as.map fun d => UInt8.ofNat (if d < 10 then 0x30+d else 0x57+d))<+:
      bs.map fun d => UInt8.ofNat (if d < 10 then 0x30+d else 0x57+d)) : as<+:bs := by
  induction as generalizing bs with
  | nil => exact List.nil_prefix
  | cons a as ih =>
    cases bs with
    | nil => cases List.prefix_nil.mp h
    | cons b bs =>
      rw [List.map_cons,List.map_cons,List.cons_prefix_cons] at h
      rw [List.cons_prefix_cons]
      refine ⟨hexDigit_inj (ha a List.mem_cons_self) (hb b List.mem_cons_self) h.1,?_⟩
      exact ih (fun d hd => ha d (List.mem_cons_of_mem _ hd)) (fun d hd => hb d (List.mem_cons_of_mem _ hd)) h.2

theorem hex_digits (n : ℕ) : ∃digits,hex n=(digits.reverse.map fun d => UInt8.ofNat
    (if d < 10 then 0x30+d else 0x57+d)) ∧
    (∀d∈digits,d < 16) ∧ Nat.ofDigits 16 digits=n := by
  unfold hex
  split
  · rename_i hzero
    exact ⟨[0],rfl,by simp,hzero.symm⟩
  · exact ⟨Nat.digits 16 n,rfl,fun d hd => Nat.digits_lt_base (by decide) hd,Nat.ofDigits_digits 16 n⟩

/-- A number that another one's digits begin with is not greater. -/
theorem hex_prefix_le {a b : ℕ} (h : hex a<+:hex b) : a≤b := by
  obtain ⟨as,has,haslt,ha⟩ := hex_digits a
  obtain ⟨bs,hbs,hbslt,hb⟩ := hex_digits b
  rw [has,hbs] at h
  have hdigits := map_digits_prefix (fun d hd => haslt d (List.mem_reverse.mp hd))
    (fun d hd => hbslt d (List.mem_reverse.mp hd)) h
  obtain ⟨low,hlow⟩ := List.reverse_prefix.mp hdigits
  have hvalue := congrArg (Nat.ofDigits 16) hlow
  rw [Nat.ofDigits_append,ha,hb] at hvalue
  calc a=1*a := (Nat.one_mul a).symm
    _≤16^low.length*a := Nat.mul_le_mul_right a (Nat.one_le_pow _ _ (by decide))
    _≤Nat.ofDigits 16 low+16^low.length*a := Nat.le_add_left _ _
    _=b := hvalue

variable {base earlier later : ℕ}

theorem prefix_begin (base counter : ℕ) : beginMarker (hex base)<+:beginMarker (frameToken base counter) := by
  rw [frameToken,beginMarker,beginMarker,← List.append_assoc]
  exact List.prefix_append ..

theorem prefix_end (base counter : ℕ) : endMarker (hex base)<+:endMarker (frameToken base counter) := by
  rw [frameToken,endMarker,endMarker,← List.append_assoc]
  exact List.prefix_append ..

/-- No line of an earlier frame opens a later one. -/
theorem framed_passed (hlt : earlier < later) (h : Passed (beginMarker (frameToken base later)) text)
    (hmore : Unmarked (beginMarker (frameToken base later)) more)
    (hpayload : Unmarked (beginMarker (frameToken base later)) payload) :
    Passed (beginMarker (frameToken base later)) (text++more++framed (frameToken base earlier) payload code) := by
  have hk := soundToken_frameToken base earlier
  have hopens : ¬beginMarker (frameToken base later)<+:trimBlanks (beginMarker (frameToken base earlier)) := by
    have htrim := hk.trim_begin (t:=[])
    rw [List.append_nil] at htrim
    rw [htrim]
    intro hprefix
    have hcounter : hex later<+:hex earlier := by
      rw [trimEnd,List.reverse_nil,List.dropWhile_nil,List.reverse_nil,List.append_nil,beginMarker,beginMarker,
        List.prefix_append_right_inj,frameToken,frameToken,List.prefix_append_right_inj] at hprefix
      exact hprefix
    exact absurd (hex_prefix_le hcounter) (by omega)
  have hcloses : ¬beginMarker (frameToken base later)<+:trimBlanks (statusLine (frameToken base earlier) code) := by
    rw [statusLine,hk.trim_end]
    intro hprefix
    have hthird := (List.cons_prefix_cons.mp (List.cons_prefix_cons.mp (List.cons_prefix_cons.mp hprefix).2).2).1
    exact absurd hthird (by decide)
  refine Or.inr ⟨text++more++newline::(beginMarker (frameToken base earlier)++newline::
    (payload++newline::statusLine (frameToken base earlier) code)),by simp [framed,statusLine],?_⟩
  apply unmarked_append (h.unmarked hmore)
  apply unmarked_append (unmarked_line hk.newline_begin hopens)
  exact unmarked_append hpayload (unmarked_line (hk.newline_status code) hcloses)

/-! ## A frame that is not whole yet -/

theorem lineWhere_no_sep {xs : Bytes} {p : Bytes→Bool} {n pos : ℕ} (h : newline∉xs.drop pos) :
    lineWhere newline p xs n pos=none := by
  cases n with
  | zero => rfl
  | succ n =>
    rw [lineWhere]
    split
    · have hnone : indexOf [newline] xs pos=none := by
        cases hfound : indexOf [newline] xs pos with
        | none => rfl
        | some stop =>
          obtain ⟨i,hi,-⟩ := Option.map_eq_some_iff.mp hfound
          obtain ⟨rest,hrest⟩ := firstAt_some hi
          have hmem : newline∈(xs.drop pos).drop i := hrest ▸ List.mem_cons_self
          exact absurd (List.mem_of_mem_drop hmem) h
      rw [hnone]
    · rfl

/-- The end marker is searched from the payload's start or from where a full payload ends. -/
theorem searchFrom_cases {buffer : Bytes} {payloadStart : ℕ} {bound : PayloadBound}
    (h : payloadBound buffer frame payloadStart=some bound) : bound.searchFrom=payloadStart ∨
      bound.searchFrom=payloadStart+frame.expected.toNat ∧ 0≤frame.expected := by
  rw [payloadBound] at h
  split at h
  · cases h
    exact Or.inl rfl
  · rename_i hknown
    dsimp only at h
    split at h
    · cases h
      exact Or.inr ⟨rfl,by omega⟩
    · split at h
      · split at h
        · cases h
        · cases h
          exact Or.inr ⟨rfl,by omega⟩
      · split at h
        · cases h
          exact Or.inl rfl
        · cases h
          exact Or.inr ⟨rfl,by omega⟩

section Unclosed
variable {head body : Bytes} (hk : SoundToken frame.token) (h : Unmarked (endMarker frame.token) payload)
    (hbody : body<+:frameBody frame.token payload [] code)
    (hshort : body.length < (frameBody frame.token payload [] code).length)
include hk hbody hshort

/-- Behind the payload only the unended status line is left. -/
theorem markerLine_behind {pos : ℕ} (hpos : head.length+payload.length+1≤pos) :
    markerLine (head++body) (endMarker frame.token) pos=none := by
  apply lineWhere_no_sep
  obtain ⟨k,rfl⟩ : ∃k,pos=head.length+payload.length+1+k := ⟨pos-(head.length+payload.length+1),by omega⟩
  have hunended : body<+:payload++newline::statusLine frame.token code := by
    have hshape : frameBody frame.token payload
      [] code=(payload++newline::statusLine frame.token code)++[newline] := by
      simp [frameBody]
    rw [hshape] at hbody hshort
    rw [List.length_append,List.length_singleton] at hshort
    exact List.prefix_of_prefix_length_le hbody (List.prefix_append ..) (by omega)
  have hdrop : (head++body).drop (head.length+payload.length+1+k)<+:(statusLine frame.token code).drop k := by
    have hlen : head.length+payload.length+1+k=(head++payload++[newline]).length+k := by simp; omega
    have hshape : head++(payload++newline::statusLine frame.token code)=
        (head++payload++[newline])++statusLine frame.token code := by simp
    have hwhole := ((List.prefix_append_right_inj head).mpr hunended).drop (head.length+payload.length+1+k)
    rw [hshape,hlen,List.drop_length_add_append] at hwhole
    rwa [hlen]
  intro hmem
  exact hk.newline_status code (List.mem_of_mem_drop (hdrop.subset hmem))

include h

private theorem markerLine_unclosed : markerLine (head++body) (endMarker frame.token) head.length=none := by
  have hwhole : head++body<+:head++frameBody frame.token payload [] code :=
    (List.prefix_append_right_inj head).mpr hbody
  apply markerLine_early hwhole (@markerLine_scanned frame.token payload [] code hk head h)
  have htotal : (frameBody frame.token payload [] code).length=
    payload.length+1+(statusLine frame.token code).length+1 := by
    simp only [frameBody,List.length_append,List.length_cons,List.length_nil]
    omega
  rw [List.length_append]
  omega

/-- A payload without the end marker's line: scanned, or shorter than expected. -/
theorem bound_unclosed (hexpected : frame.expected < 0 ∨ (payload.length : ℤ) < frame.expected)
    {bound : PayloadBound} (hbound : payloadBound (head++body) frame head.length=some bound) :
    (answerAt (head++body) frame head.length bound).state=.incomplete := by
  apply state_none
  obtain hfrom | ⟨hfrom,hpos⟩ := searchFrom_cases hbound
  · rw [hfrom]
    exact markerLine_unclosed hk h hbody hshort
  · rw [hfrom]
    exact markerLine_behind hk hbody hshort (by omega)

end Unclosed

/-- A payload the framing admits, and that does not hold what closes its frame. -/
def SerialFrame.Carries (frame : SerialFrame) (payload : Bytes) : Prop :=
  frame.Admits payload ∧ ¬HoldsTerminator frame payload

theorem admitted_incomplete (hk : SoundToken frame.token) (hnoise : Unmarked (beginMarker frame.token) noise)
    (hcarries : frame.Carries payload) (hpart : part<+:noise++framed frame.token payload code)
    (hshort : part.length < (noise++framed frame.token payload code).length) :
    (readFramedAnswer part frame).state=.incomplete := by
  obtain ⟨hadmits,hno⟩ := hcarries
  by_cases hlen : frame.expected=payload.length
  · exact part_incomplete hk hlen hnoise hpart hshort hno
  · have hscanned : Unmarked (endMarker frame.token) payload ∧
        (frame.expected < 0 ∨ (payload.length : ℤ) < frame.expected) := by
      rcases hadmits with hfull | ⟨hless,hpayload⟩ | ⟨hneg,hpayload,-⟩
      · exact absurd hfull hlen
      · exact ⟨hpayload,Or.inr hless⟩
      · exact ⟨hpayload,Or.inl hneg⟩
    have hwhole : noise++framed frame.token payload code=frameHead frame.token noise++
      frameBody frame.token payload [] code := by
      rw [← framed_eq,List.append_nil]
    rw [hwhole] at hpart hshort
    have hstart := @payloadStart_framed frame.token noise hk hnoise (frameBody frame.token payload [] code)
    by_cases hhead : part.length < (frameHead frame.token noise).length
    · obtain ⟨r,hr,hend⟩ := Option.map_eq_some_iff.mp hstart
      have hnone : endOfMarkerLine part (beginMarker frame.token) 0=none := by
        rw [endOfMarkerLine,markerLine_early hpart hr (by omega)]
        rfl
      rw [readFramedAnswer,hnone]
    · obtain ⟨body,rfl⟩ : frameHead frame.token noise<+:part :=
        List.prefix_of_prefix_length_le (List.prefix_append ..) hpart (by omega)
      have hbody := (List.prefix_append_right_inj _).mp hpart
      rw [readFramedAnswer,payloadStart_framed hk hnoise]
      dsimp only
      cases hbound : payloadBound (frameHead frame.token noise++body) frame
        (frameHead frame.token noise).length with
      | none => rfl
      | some bound => exact bound_unclosed hk hscanned.1 hbody (by simpa using hshort) hscanned.2 hbound

/-- Whole, it is read whatever comes after it, unless that shows the end marker again. -/
theorem admitted_complete (hk : SoundToken frame.token) (hnoise : Unmarked (beginMarker frame.token) noise)
    (hadmits : frame.Admits payload) (hcode : isInt code=true) (hafter : ¬endMarker frame.token<:+:after) :
    ∃short,readFramedAnswer (noise++framed frame.token payload code++after) frame=
      ⟨short,.complete,payload,code,(noise++framed frame.token payload code).length⟩ := by
  have hconsumed : (frameHead frame.token noise).length+payload.length+1+(statusLine frame.token code).length+1=
      (noise++framed frame.token payload code).length := by
    simp only [frameHead,statusLine,framed,List.length_append,List.length_cons,List.length_nil]
    omega
  rw [framed_eq,readFramedAnswer,payloadStart_framed hk hnoise,← hconsumed]
  dsimp only
  rcases hadmits with hlen | ⟨hlen,hpayload⟩ | ⟨hneg,hpayload,hcr⟩
  · rw [payloadBound_full hlen rfl]
    exact ⟨_,answerAt_framed hk hcode rfl _ (markerLine_full hk) rfl⟩
  · have hend := scannedEnd_framed frame (frameHead frame.token noise) frame.token payload after code
      (fun hneg => absurd hneg (by omega))
    rw [payloadBound_short hk hlen rfl hpayload hafter]
    exact ⟨_,answerAt_framed hk hcode rfl ⟨true,none,_⟩ (markerLine_scanned hk hpayload) hend⟩
  · have hend := scannedEnd_framed frame (frameHead frame.token noise) frame.token payload after code (fun _ => hcr)
    rw [payloadBound,if_pos hneg]
    exact ⟨_,answerAt_framed hk hcode rfl ⟨false,none,_⟩ (markerLine_scanned hk hpayload) hend⟩

private theorem lineWhere_unmarked {start : Bytes} {n : ℕ} (h : Unmarked marker text) :
    lineWhere newline (fun line => marker.isPrefixOf (trimBlanks line)) (start++text) n start.length=none := by
  induction text using line_induction newline generalizing start n with
  | hlast last hlast =>
    apply lineWhere_no_sep
    rwa [List.drop_left]
  | hline first text hfirst ih =>
    rw [Unmarked,List.splitOn_append_cons_self_of_not_mem hfirst] at h
    cases n with
    | zero => rfl
    | succ n =>
      have hnot : marker.isPrefixOf (trimBlanks first)=false := by
        rw [Bool.eq_false_iff,ne_eq,List.isPrefixOf_iff_prefix]
        exact h first List.mem_cons_self
      rw [lineWhere_next (p:=fun line => marker.isPrefixOf (trimBlanks line)) hfirst hnot]
      have hshape : start++(first++newline::text)=(start++first++[newline])++text := by simp
      have hlen : start.length+first.length+1=(start++first++[newline]).length := by simp; omega
      rw [hshape,hlen]
      exact ih fun line hline => h line (List.mem_cons_of_mem _ hline)

private theorem markerLine_unmarked (h : Unmarked marker text) : markerLine text marker 0=none :=
  @lineWhere_unmarked text marker [] (text.length+1) h

/-- Before the frame nothing is read. -/
theorem noise_incomplete (hnoise : Unmarked (beginMarker frame.token) noise) (hpart : part<+:noise) :
    (readFramedAnswer part frame).state=.incomplete := by
  have hnone : endOfMarkerLine part (beginMarker frame.token) 0=none := by
    cases hopened : endOfMarkerLine part (beginMarker frame.token) 0 with
    | none => rfl
    | some payloadStart =>
      obtain ⟨r,hr,-⟩ := Option.map_eq_some_iff.mp hopened
      obtain ⟨more,rfl⟩ := hpart
      have hline := markerLine_extend more hr
      rw [markerLine_unmarked hnoise] at hline
      cases hline
  rw [readFramedAnswer,hnone]

end Loftail
