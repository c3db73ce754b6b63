import Loftail.FramedRoundTrip

/-! # Answers read while they arrive

A command reads the buffer again whenever more of it has come, until the answer is no longer
incomplete. -/
namespace Loftail
open LineSearch

variable {frame : SerialFrame} {noise payload part after : Bytes} {code : ℤ} {chunks : List Bytes} {buffer : Bytes}

/-- What the loop over a command's answer reads, its chunks arriving one by one. -/
def awaitAnswer (frame : SerialFrame) (buffer : Bytes) : List Bytes→FramedAnswer
  | [] => readFramedAnswer buffer frame
  | chunk::chunks =>
    let answer := readFramedAnswer buffer frame
    if answer.state=.incomplete then awaitAnswer frame (buffer++chunk) chunks else answer

/-- Whether the payload holds what closes a frame of this token. -/
def HoldsTerminator (frame : SerialFrame) (payload : Bytes) : Prop := (newline::endMarker frame.token)<:+:payload

theorem markerLine_extend {marker : Bytes} {pos : ℕ} {r : ℕ×ℕ} (more : Bytes)
    (h : markerLine buffer marker pos=some r) :
    markerLine (buffer++more) marker pos=some r := by
  apply lineWhere_extend more ?_ h
  rw [List.length_append]
  omega

private theorem markerLine_le {marker : Bytes} {pos : ℕ} {r : ℕ×ℕ} (h : markerLine buffer marker pos=some r) :
    r.2≤buffer.length :=
  lineWhere_le h

/-- A marker's line that ends later is not found yet. -/
theorem markerLine_early {marker : Bytes} {pos : ℕ} {r : ℕ×ℕ} {whole : Bytes} (hpart : part<+:whole)
    (h : markerLine whole marker pos=some r) (hlen : part.length < r.2) : markerLine part marker pos=none := by
  cases hline : markerLine part marker pos with
  | none => rfl
  | some r' =>
    obtain ⟨more,rfl⟩ := hpart
    have hext := markerLine_extend more hline
    rw [h] at hext
    cases hext
    have hle := markerLine_le hline
    omega

theorem state_none {bound : PayloadBound} {payloadStart : ℕ}
    (h : markerLine buffer (endMarker frame.token) bound.searchFrom=none) :
    (answerAt buffer frame payloadStart bound).state=.incomplete := by
  rw [answerAt,h]

private theorem state_some {bound : PayloadBound} {payloadStart : ℕ}
    (h : (markerLine buffer (endMarker frame.token) bound.searchFrom).isSome=true) :
    (answerAt buffer frame payloadStart bound).state≠.incomplete := by
  obtain ⟨⟨a,b⟩,hline⟩ := Option.isSome_iff_exists.mp h
  rw [answerAt,hline]
  dsimp only
  split
  · simp
  · split <;> simp

/-- Inside the payload a terminator is part of it. -/
theorem infix_of_indexOf {head body : Bytes} {pos : ℕ} (hk : SoundToken frame.token)
    (hbody : body<+:payload++[newline]++endMarker frame.token)
    (hpos : indexOf (newline::endMarker frame.token) (head++body) head.length=some pos)
    (hlt : pos < head.length+payload.length) : HoldsTerminator frame payload := by
  obtain ⟨i,hi,rfl⟩ := Option.map_eq_some_iff.mp hpos
  rw [List.drop_left] at hi
  have hpre := firstAt_some hi
  have hlt' : i < payload.length := by omega
  have hall : (newline::endMarker frame.token)<+:payload.drop i++(newline::endMarker frame.token) := by
    have hdrop : body.drop i<+:(payload++[newline]++endMarker frame.token).drop i := by
      obtain ⟨t,ht⟩ := hbody
      rw [← ht]
      by_cases hle : i≤body.length
      · rw [List.drop_append_of_le_length hle]
        exact List.prefix_append ..
      · rw [List.drop_eq_nil_of_le (by omega)]
        exact List.nil_prefix
    have htrans := hpre.trans hdrop
    rwa [List.append_assoc,List.singleton_append,List.drop_append_of_le_length hlt'.le] at htrans
  obtain ⟨x,rest,hx⟩ := List.exists_cons_of_ne_nil
    (List.ne_nil_of_length_pos (by rw [List.length_drop]; omega) : payload.drop i≠[])
  rw [hx,List.cons_append,List.cons_prefix_cons] at hall
  obtain ⟨rfl,htail⟩ := hall
  have hin : endMarker frame.token<+:rest := prefix_line hk.newline_end htail
  have hwhole : (newline::endMarker frame.token)<+:payload.drop i := by
    rw [hx]
    exact List.cons_prefix_cons.mpr ⟨rfl,hin⟩
  exact hwhole.isInfix.trans (List.drop_suffix i payload).isInfix

private theorem mid_within {whole : Bytes} {start len : ℕ} (hpart : part<+:whole) (hlen : start+len≤part.length) :
    mid part start len=mid whole start len := by
  obtain ⟨more,rfl⟩ := hpart
  rw [mid,mid,List.drop_append_of_le_length (by omega),List.take_append_of_le_length]
  rw [List.length_drop]
  omega

section Whole
variable (hk : SoundToken frame.token) (hlen : frame.expected=payload.length)
include hk hlen

/-- Before its end marker's line is whole a frame is not closed. -/
theorem bound_incomplete {head body : Bytes} (hbody : body<+:frameBody frame.token payload [] code)
    (hshort : body.length < (frameBody frame.token payload [] code).length) (hno : ¬HoldsTerminator frame payload) :
    match payloadBound (head++body) frame head.length with
    | none => True
    | some bound => (answerAt (head++body) frame head.length bound).state=.incomplete := by
  have hnat : frame.expected.toNat=payload.length := by rw [hlen,Int.toNat_natCast]
  have hwhole : head++body<+:head++frameBody frame.token payload [] code :=
    (List.prefix_append_right_inj head).mpr hbody
  have hline := @markerLine_full frame.token payload [] code hk head
  have htotal : (frameBody frame.token payload [] code).length=
    payload.length+1+(statusLine frame.token code).length+1 := by
    simp only [frameBody,List.length_append,List.length_cons,List.length_nil]
    omega
  have hearly : markerLine (head++body) (endMarker frame.token) (head.length+payload.length)=none := by
    apply markerLine_early hwhole hline
    rw [List.length_append]
    omega
  rw [payloadBound,if_neg (by omega),hnat]
  dsimp only
  by_cases hfull : head.length+payload.length+(newline::endMarker frame.token).length≤(head++body).length ∧
      mid (head++body) (head.length+payload.length) (newline::endMarker frame.token).length=
        newline::endMarker frame.token
  · rw [if_pos hfull]
    exact state_none hearly
  · rw [if_neg hfull]
    have hbuffer : (head++body).length < head.length+payload.length+(newline::endMarker frame.token).length := by
      by_contra hge
      apply hfull
      refine ⟨by omega,?_⟩
      have hshape : head++frameBody frame.token payload [] code=
          (head++payload)++((newline::endMarker frame.token)++(0x20::printed code++[newline])) := by
        simp [frameBody,statusLine]
      rw [mid_within hwhole (by omega),hshape,← List.length_append]
      exact mid_append
    have hpayload : body<+:payload++[newline]++endMarker frame.token := by
      have hshape : frameBody frame.token payload [] code=
          (payload++[newline]++endMarker frame.token)++(0x20::printed code++[newline]) :=
            by simp [frameBody,statusLine]
      rw [hshape] at hbody
      apply List.prefix_of_prefix_length_le hbody (List.prefix_append ..)
      simp only [List.length_append,List.length_cons,List.length_nil] at hbuffer ⊢
      omega
    cases hpos : (indexOf (newline::endMarker frame.token) (head++body) head.length).filter fun pos =>
        (endOfMarkerLine (head++body) (endMarker frame.token) (pos+1)).isSome with
    | none =>
      dsimp only
      rw [if_pos hbuffer]
      trivial
    | some pos =>
      obtain ⟨hfirst,-⟩ := Option.filter_eq_some_iff.mp hpos
      have hroom : pos+(newline::endMarker frame.token).length≤(head++body).length := by
        obtain ⟨k,hkpos,rfl⟩ := Option.map_eq_some_iff.mp hfirst
        have hle := (firstAt_some hkpos).length_le
        rw [List.length_drop,List.length_drop] at hle
        have hpos' : 0 < (newline::endMarker frame.token).length := Nat.succ_pos _
        omega
      exact absurd (infix_of_indexOf hk hpayload hfirst (by omega)) hno

theorem part_incomplete (hnoise : Unmarked (beginMarker frame.token) noise)
    (hpart : part<+:noise++framed frame.token payload code)
    (hshort : part.length < (noise++framed frame.token payload code).length)
    (hno : ¬HoldsTerminator frame payload) :
    (readFramedAnswer part frame).state=.incomplete := by
  have hwhole : noise++framed frame.token payload code=frameHead frame.token noise++
    frameBody frame.token payload [] code := by
    rw [← framed_eq,List.append_nil]
  rw [hwhole] at hpart hshort
  have hstart := @payloadStart_framed frame.token noise hk hnoise (frameBody frame.token payload [] code)
  by_cases hhead : part.length < (frameHead frame.token noise).length
  · obtain ⟨r,hr,hend⟩ := Option.map_eq_some_iff.mp hstart
    have hnone : endOfMarkerLine part (beginMarker frame.token) 0=none := by
      rw [endOfMarkerLine,markerLine_early hpart hr (by omega)]
      rfl
    rw [readFramedAnswer,hnone]
  · obtain ⟨body,rfl⟩ : frameHead frame.token noise<+:part :=
      List.prefix_of_prefix_length_le (List.prefix_append ..) hpart (by omega)
    have hbody := (List.prefix_append_right_inj _).mp hpart
    have hclosed := @bound_incomplete frame payload code hk hlen (frameHead frame.token noise) body hbody
      (by simpa using hshort) hno
    rw [readFramedAnswer,payloadStart_framed hk hnoise]
    dsimp only
    cases hbound : payloadBound (frameHead frame.token noise++body) frame (frameHead frame.token noise).length with
    | none => rfl
    | some bound =>
      rw [hbound] at hclosed
      exact hclosed

omit hk hlen in
/-- A terminator in a payload begins a line that the payload or the frame's own newline closes. -/
theorem terminator_line (hk : SoundToken frame.token) {body : Bytes} {i : ℕ}
    (hpre : (newline::endMarker frame.token)<+:(body++[newline]).drop i) :
    ∃line rest,newline∉line ∧ endMarker frame.token<+:trimBlanks line ∧
      body++[newline]=(body++[newline]).take i++newline::(line++newline::rest) := by
  obtain ⟨t,ht⟩ := hpre
  have hlast : (newline::endMarker frame.token++t).getLast?=some newline := by
    rw [ht,List.getLast?_drop,List.getLast?_concat,if_neg]
    have hlen := congrArg List.length ht
    rw [List.length_drop,List.length_append,List.length_cons] at hlen
    omega
  have hmem : newline∈t := by
    cases t with
    | nil =>
      rw [List.append_nil,List.getLast?_cons_of_ne_nil (by simp [endMarker])] at hlast
      exact absurd (List.mem_of_getLast? hlast) hk.newline_end
    | cons x t =>
      rw [List.getLast?_append_of_ne_nil _ (List.cons_ne_nil _ _)] at hlast
      exact List.mem_of_getLast? hlast
  obtain ⟨u,rest,rfl,hu⟩ := List.eq_append_cons_of_mem hmem
  refine ⟨endMarker frame.token++u,rest,?_,?_,?_⟩
  · intro h
    rcases List.mem_append.mp h with h | h
    · exact hk.newline_end h
    · exact hu h
  · rw [hk.trim_end]
    exact List.prefix_append ..
  · rw [List.append_assoc,← List.cons_append,ht,List.take_append_drop]

/-- With a terminator in its payload a frame is closed before it ends. -/
theorem part_closed (hnoise : Unmarked (beginMarker frame.token) noise) (hholds : HoldsTerminator frame payload) :
    (readFramedAnswer (frameHead frame.token noise++(payload++[newline])) frame).state≠.incomplete := by
  have hnat : frame.expected.toNat=payload.length := by rw [hlen,Int.toNat_natCast]
  obtain ⟨a,b,hab⟩ := hholds
  obtain ⟨i,hi,hfirst⟩ : ∃i≤a.length,firstAt (newline::endMarker frame.token) (payload++[newline])=some i := by
    apply firstAt_of_prefix
    rw [← hab,List.append_assoc,List.append_assoc,List.drop_left]
    exact List.prefix_append ..
  have hlt : i < payload.length := by
    have hlen' := congrArg List.length hab
    simp only [List.length_append,List.length_cons] at hlen'
    omega
  obtain ⟨line,rest,hnl,hmark,hshape⟩ := terminator_line hk (firstAt_some hfirst)
  have hp : (endMarker frame.token).isPrefixOf (trimBlanks line)=true := List.isPrefixOf_iff_prefix.mpr hmark
  have htake : ((payload++[newline]).take i).length=i := by
    rw [List.length_take,List.length_append]
    omega
  rw [readFramedAnswer,payloadStart_framed hk hnoise]
  generalize frameHead frame.token noise=head
  dsimp only
  have hindex : indexOf (newline::endMarker frame.token) (head++(payload++[newline])) head.length=some
    (head.length+i) := by
    rw [indexOf,List.drop_left,hfirst,Option.map_some]
  have hclosed : (endOfMarkerLine (head++(payload++[newline])) (endMarker frame.token)
    (head.length+i+1)).isSome=true := by
    have hstart : head++(payload++[newline])=(head++(payload++[newline]).take i++[newline])++
      (line++newline::rest) := by
      conv_lhs => rw [hshape]
      simp
    have hpos : head.length+i+1=(head++(payload++[newline]).take i++[newline]).length := by
      simp only [List.length_append,List.length_singleton,htake]
    rw [endOfMarkerLine,Option.isSome_map,markerLine,hpos,hstart,
      lineWhere_here (p:=fun line => (endMarker frame.token).isPrefixOf (trimBlanks line)) _ rest hnl hp]
    rfl
  have hfound : (markerLine (head++(payload++[newline])) (endMarker frame.token) head.length).isSome=true := by
    have hroom : ((payload++[newline]).take i).length+1 < (head++(payload++[newline])).length+1 := by
      rw [htake,List.length_append,List.length_append]
      omega
    have hsome : (lineWhere newline (fun line => (endMarker frame.token).isPrefixOf (trimBlanks line))
        (head++((payload++[newline]).take i++newline::(line++newline::rest)))
          ((head++(payload++[newline])).length+1)
        head.length).isSome=true := lineWhere_isSome hnl hp hroom
    rwa [← hshape] at hsome
  have hnotfull : ¬(head.length+payload.length+(newline::endMarker frame.token).length≤(head++
    (payload++[newline])).length ∧
      mid (head++(payload++[newline])) (head.length+payload.length) (newline::endMarker frame.token).length=
        newline::endMarker frame.token) := by
    rintro ⟨hroom,-⟩
    simp only [List.length_append,List.length_cons,List.length_nil,endMarker] at hroom
    omega
  rw [payloadBound,if_neg (by omega),hnat]
  dsimp only
  rw [if_neg hnotfull,hindex,Option.filter_some,hclosed,if_pos rfl]
  dsimp only
  rw [if_pos (by omega)]
  exact state_some hfound

theorem whole_read (hnoise : Unmarked (beginMarker frame.token) noise) (hcode : isInt code=true) (after : Bytes) :
    readFramedAnswer (noise++framed frame.token payload code++after) frame=
      ⟨false,.complete,payload,code,
        (frameHead frame.token noise).length+payload.length+1+(statusLine frame.token code).length+1⟩ := by
  rw [framed_eq,readFramedAnswer,payloadStart_framed hk hnoise]
  dsimp only
  rw [payloadBound_full hlen rfl]
  dsimp only
  rw [answerAt_framed hk hcode rfl _ (markerLine_full hk) rfl]

/-- Read as it arrives, the answer is that of the whole stream. -/
theorem awaitAnswer_whole (hnoise : Unmarked (beginMarker frame.token) noise) (hcode : isInt code=true)
    (hno : ¬HoldsTerminator frame payload)
    (hall : buffer++chunks.flatten=noise++framed frame.token payload code++after) :
    awaitAnswer frame buffer chunks=readFramedAnswer (noise++framed frame.token payload code++after) frame := by
  induction chunks generalizing buffer with
  | nil =>
    rw [List.flatten_nil,List.append_nil] at hall
    rw [awaitAnswer,hall]
  | cons chunk chunks ih =>
    unfold awaitAnswer
    dsimp only
    split
    · apply ih
      rw [List.append_assoc,← List.flatten_cons]
      exact hall
    · rename_i hclosed
      obtain ⟨after',rfl⟩ : noise++framed frame.token payload code<+:buffer := by
        have hbuffer : buffer<+:noise++framed frame.token payload code++after := ⟨_,hall⟩
        apply List.prefix_of_prefix_length_le (List.prefix_append ..) hbuffer
        by_contra hlt
        apply hclosed
        apply part_incomplete hk hlen hnoise ?_ (Nat.lt_of_not_le hlt) hno
        exact List.prefix_of_prefix_length_le hbuffer (List.prefix_append ..) (by omega)
      rw [whole_read hk hlen hnoise hcode,whole_read hk hlen hnoise hcode]

/-- A part of a frame is taken for incomplete, and the answer does not depend on how its bytes arrive,
exactly where the payload does not hold the frame's own terminator. -/
theorem partial_frame (hnoise : Unmarked (beginMarker frame.token) noise) (hcode : isInt code=true) :
    ((∀part,part<+:noise++framed frame.token payload code→
        part.length < (noise++framed frame.token payload code).length→
        (readFramedAnswer part frame).state=.incomplete) ∧
      ∀after chunks,chunks.flatten=noise++framed frame.token payload code++after→
        awaitAnswer frame [] chunks=readFramedAnswer (noise++framed frame.token payload code++after) frame) ↔
    ¬(newline::endMarker frame.token)<:+:payload := by
  constructor
  · rintro ⟨hparts,-⟩ hholds
    refine part_closed hk hlen hnoise hholds (hparts _ ?_ ?_)
    · refine ⟨statusLine frame.token code++[newline],?_⟩
      simp [frameHead,framed,statusLine]
    · simp only [frameHead,framed,List.length_append,List.length_cons,List.length_nil,endMarker]
      omega
  · intro hno
    refine ⟨fun part hpart hshort => part_incomplete hk hlen hnoise hpart hshort hno,?_⟩
    intro after chunks hall
    exact awaitAnswer_whole hk hlen hnoise hcode hno hall

end Whole

/-- A log of ten bytes without a terminator, in two pieces. -/
theorem partial_frame_log :
    awaitAnswer ⟨frameToken 10 1,10⟩ [] [(framed (frameToken 10 1) (ascii "LFE-a1 0\nx") 3).take 15,
        (framed (frameToken 10 1) (ascii "LFE-a1 0\nx") 3).drop 15]=
      readFramedAnswer ([]++framed (frameToken 10 1) (ascii "LFE-a1 0\nx") 3++[]) ⟨frameToken 10 1,10⟩ := by
  have hnoise : Unmarked (beginMarker (frameToken 10 1)) [] := by decide +kernel
  have hno : ¬(newline::endMarker (frameToken 10 1))<:+:ascii "LFE-a1 0\nx" := by decide +kernel
  refine ((partial_frame (soundToken_frameToken 10 1) (by decide +kernel) hnoise rfl).mpr hno).2 [] _ ?_
  rw [List.nil_append,List.append_nil,List.flatten_cons,List.flatten_singleton,List.take_append_drop]

/-- A log that holds the end marker's line, received up to the end of that line, is taken for a shorter
one that has arrived. -/
theorem partial_frame_cut : SoundToken (frameToken 10 1) ∧ (ascii "a\nLFE-a1 0\nb").length=12 ∧
    (framed (frameToken 10 1) (ascii "a\nLFE-a1 0\nb") 3).take 19<+:framed (frameToken 10 1)
    (ascii "a\nLFE-a1 0\nb") 3 ∧
    ((framed (frameToken 10 1) (ascii "a\nLFE-a1 0\nb") 3).take 19).length <
      (framed (frameToken 10 1) (ascii "a\nLFE-a1 0\nb") 3).length ∧
      readFramedAnswer ((framed (frameToken 10 1) (ascii "a\nLFE-a1 0\nb") 3).take 19) ⟨frameToken 10 1,12⟩=
        ⟨true,.complete,ascii "a",0,19⟩ := by
  exact ⟨soundToken_frameToken 10 1,by decide +kernel,List.take_prefix ..,by decide +kernel,by decide +kernel⟩

end Loftail
