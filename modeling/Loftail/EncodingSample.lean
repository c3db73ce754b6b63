import Loftail.Decoder
import Loftail.Utf8Sequences
import Mathlib.Data.List.GetD

/-! # Which encoding a sample is in

A sample of a file ends at some byte, inside a character as a rule. What the cut left of that
character is not held against the text. -/
namespace Loftail
open Utf8Sequences

/-- What detection settles: the encoding, its byte order mark and its unit. -/
structure Resolved where
  encoding : Encoding
  bomLength : ℕ
  unitSize : ℕ
  deriving DecidableEq,Repr

/-- Backward over at most three continuation bytes; one past the index it stops at, 0 when none is left. -/
def backOver (p : Bytes) (n : ℕ) : ℕ→ℕ
  | 0 => 0
  | i+1 => if n-i≤3 && isContinuation (p.getD i 0) then backOver p n i else i+1

/-- How much of a sample ends on a complete sequence. -/
def completeUtf8Prefix (p : Bytes) : ℕ :=
  let n := p.length
  match backOver p n n with
  | 0 => n
  | i+1 => match announced (p.getD i 0) with
    | none => n
    | some need => if i+need>n then i else n

/-- The zero bytes at even and at odd positions. -/
def countNuls (p : Bytes) : ℕ×ℕ :=
  ((p.zipIdx.filter fun b => decide (b.1=0) && b.2%2=0).length,
    (p.zipIdx.filter fun b => decide (b.1=0) && b.2%2=1).length)

/-- `nulFraction > 0.20`: so long as counts are exact as doubles, one in five is not over. -/
def overNulThreshold (p : Bytes) : Bool := decide (5*((countNuls p).1+(countNuls p).2)>p.length)

/-- `utf8HasError` is what the stateless converter reports of some bytes. -/
def sniff (utf8HasError : Bytes→Bool) (sample : Bytes) : Resolved :=
  if [0xEF,0xBB,0xBF]<+:sample then ⟨.utf8,3,1⟩
  else if [0xFF,0xFE]<+:sample then ⟨.utf16LE,2,2⟩
  else if [0xFE,0xFF]<+:sample then ⟨.utf16BE,2,2⟩
  else if overNulThreshold sample then
    if (countNuls sample).2≥(countNuls sample).1 then ⟨.utf16LE,0,2⟩ else ⟨.utf16BE,0,2⟩
  else if utf8HasError (sample.take (completeUtf8Prefix sample)) then ⟨.system,0,1⟩
  else ⟨.utf8,0,1⟩

/-- Nothing before the validation decides. -/
def Undecided (sample : Bytes) : Prop :=
  ¬[0xEF,0xBB,0xBF]<+:sample ∧ ¬[0xFF,0xFE]<+:sample ∧ ¬[0xFE,0xFF]<+:sample ∧ overNulThreshold sample=false

theorem sniff_undecided {utf8HasError : Bytes→Bool} {sample : Bytes} (h : Undecided sample) :
    sniff utf8HasError sample=
    if utf8HasError (sample.take (completeUtf8Prefix sample)) then ⟨.system,0,1⟩ else ⟨.utf8,0,1⟩ := by
  obtain ⟨h₁,h₂,h₃,h₄⟩ := h
  rw [sniff,if_neg h₁,if_neg h₂,if_neg h₃,if_neg (by simp [h₄])]

section Trim
variable {p : Bytes} {n i : ℕ}

/-- What was walked over: continuation bytes, to a byte that is none or is far enough back. -/
theorem backOver_spec (hi : i≤n) : backOver p n i ≤ i ∧
    (∀j,backOver p n i≤j→j < i→isContinuation (p.getD j 0)=true) ∧
    (backOver p n i=0 ∨ isContinuation (p.getD (backOver p n i-1) 0)=false ∨ backOver p n i+3≤n) := by
  induction i with
  | zero => exact ⟨le_rfl,fun j _ hj => absurd hj (Nat.not_lt_zero j),Or.inl rfl⟩
  | succ i ih =>
    rw [backOver]
    split
    · rename_i h
      rw [Bool.and_eq_true,decide_eq_true_eq] at h
      obtain ⟨hle,hconts,hstop⟩ := ih (by omega)
      refine ⟨hle.trans (Nat.le_succ i),fun j hj hlt => ?_,hstop⟩
      obtain hlt | rfl := Nat.lt_succ_iff_lt_or_eq.mp hlt
      · exact hconts j hj hlt
      · exact h.2
    · rename_i h
      refine ⟨le_rfl,fun j hj hlt => absurd hlt (not_lt.mpr hj),Or.inr ?_⟩
      rw [Bool.and_eq_true,decide_eq_true_eq,not_and_or,not_le,Bool.not_eq_true] at h
      obtain h | h := h
      · exact Or.inr (by omega)
      · exact Or.inl h

/-- Backward from the end over a sequence, to its lead byte. -/
theorem backOver_sequence (kept : Bytes) {lead : Byte} {conts : Bytes} (hlead : isContinuation lead=false)
    (hconts : ∀b∈conts,isContinuation b=true) (hlen : conts.length≤3) :
    backOver (kept++lead::conts) (kept++lead::conts).length (kept++lead::conts).length=kept.length+1 := by
  have hn : (kept++lead::conts).length=kept.length+1+conts.length := by
    simp
    omega
  have hgetLead : (kept++lead::conts).getD kept.length 0=lead := by simp
  have hstep : ∀m≤conts.length,backOver (kept++lead::conts) (kept++lead::conts).length
    (kept.length+1+m)=kept.length+1 := by
    intro m hm
    induction m with
    | zero =>
      rw [Nat.add_zero,backOver,if_neg]
      rw [hgetLead,hlead,Bool.and_false]
      decide
    | succ m ih =>
      have hget : (kept++lead::conts).getD (kept.length+1+m) 0=conts.getD m 0 := by
        rw [List.getD_append_right _ _ _ _ (by omega)]
        have : kept.length+1+m-kept.length=m+1 := by omega
        rw [this,List.getD_cons_succ]
      have hmem : conts.getD m 0∈conts := by
        rw [List.getD_eq_getElem _ _ hm]
        exact List.getElem_mem hm
      rw [← Nat.add_assoc,backOver,if_pos,ih (by omega)]
      rw [hget,hconts _ hmem,Bool.and_true,decide_eq_true_eq]
      omega
  have hall := hstep conts.length le_rfl
  rwa [← hn] at hall

/-- A sequence that runs off the end is trimmed. -/
theorem completeUtf8Prefix_truncated (kept : Bytes) {rest : Bytes} (h : Truncated rest) :
    completeUtf8Prefix (kept++rest)=kept.length := by
  obtain ⟨lead,conts,n,rfl,hconts,hlead,hlen⟩ := h
  have hback := backOver_sequence kept (not_continuation hlead) hconts (by have := (announced_le hlead).2; omega)
  have hget : (kept++lead::conts).getD kept.length 0=lead := by simp
  unfold completeUtf8Prefix
  simp only [hback,hget,hlead]
  rw [if_pos]
  simp
  omega

/-- A sample that ends in a whole sequence is kept whole. -/
theorem completeUtf8Prefix_complete (kept : Bytes) {last : Bytes} (h : Complete last) :
    completeUtf8Prefix (kept++last)=(kept++last).length := by
  obtain ⟨lead,conts,rfl,hconts,hlead⟩ := h
  have hback := backOver_sequence kept (not_continuation hlead) hconts (by have := (announced_le hlead).2; omega)
  have hget : (kept++lead::conts).getD kept.length 0=lead := by simp
  unfold completeUtf8Prefix
  simp only [hback,hget,hlead]
  rw [if_neg]
  simp

/-- Whole characters are kept, and what a cut left of one more is trimmed. -/
theorem completeUtf8Prefix_encode (chars : List Char) {rest : Bytes} (h : rest=[] ∨ Truncated rest) :
    completeUtf8Prefix (encode chars++rest)=(encode chars).length := by
  obtain rfl | h := h
  · rw [List.append_nil]
    by_cases hnil : encode chars=[]
    · rw [hnil]
      rfl
    · obtain ⟨front,last,he,hlast⟩ := encode_last hnil
      rw [he]
      exact completeUtf8Prefix_complete front hlast
  · exact completeUtf8Prefix_truncated _ h

/-- Nothing but a sequence that runs off the end is ever trimmed. -/
theorem sample_trimmed (p : Bytes) : completeUtf8Prefix p≤p.length ∧
    (p.drop (completeUtf8Prefix p)=[] ∨ Truncated (p.drop (completeUtf8Prefix p))) := by
  obtain ⟨hle,hconts,-⟩ := backOver_spec (p:=p) (le_refl p.length)
  have hwhole : p.length≤p.length ∧ (p.drop p.length=[] ∨ Truncated (p.drop p.length)) :=
    ⟨le_rfl,Or.inl List.drop_length⟩
  unfold completeUtf8Prefix
  dsimp only
  cases hback : backOver p p.length p.length with
  | zero => exact hwhole
  | succ i =>
    rw [hback] at hle hconts
    cases hlead : announced (p.getD i 0) with
    | none =>
      simp only [hlead]
      exact hwhole
    | some need =>
      simp only [hlead]
      split
      · rename_i hneed
        refine ⟨by omega,Or.inr ⟨p.getD i 0,p.drop (i+1),need,?_,fun b hb => ?_,hlead,?_⟩⟩
        · rw [List.drop_eq_getElem_cons hle,List.getD_eq_getElem _ _ hle]
        · obtain ⟨k,hk,rfl⟩ := List.getElem_of_mem hb
          rw [List.length_drop] at hk
          have hcont := hconts (i+1+k) (by omega) (by omega)
          rwa [List.getD_eq_getElem _ _ (by omega),← List.getElem_drop] at hcont
        · rw [List.length_drop]
          omega
      · exact hwhole

end Trim

/-- No text begins with a byte that leads no sequence. -/
theorem encode_head {chars : List Char} {b : Byte} {bs : Bytes} (h : b::bs<+:encode chars) : announced b≠none := by
  cases chars with
  | nil =>
    have := List.prefix_nil.mp h
    cases this
  | cons c chars =>
    obtain ⟨lead,conts,he,-,hlead⟩ := complete_encodeChar c
    rw [encode_cons,he,List.cons_append,List.cons_prefix_cons] at h
    rw [h.1,hlead]
    exact Option.some_ne_none _

/-- A sample of a text is trimmed to the characters before the cut and found to be UTF-8 wherever it is cut; of any
bytes nothing is trimmed but a sequence that runs off the end, so an error elsewhere is reported. -/
theorem sample_cut (utf8HasError : Bytes→Bool) (hconverter : ∀s,utf8HasError s=false ↔ ∃chars,s=encode chars) :
    (∀(chars : List Char) (k : ℕ),
      (∃i,((encode chars).take k).take (completeUtf8Prefix ((encode chars).take k))=encode (chars.take i) ∧
        ∀j,(encode (chars.take j)).length≤((encode chars).take k).length→
          (encode (chars.take j)).length≤completeUtf8Prefix ((encode chars).take k)) ∧
      (¬[0xEF,0xBB,0xBF]<+:encode chars→ overNulThreshold ((encode chars).take k)=false→
        sniff utf8HasError ((encode chars).take k)=⟨.utf8,0,1⟩)) ∧
    ∀sample : Bytes,(sample.drop (completeUtf8Prefix sample)=[] ∨ Truncated
      (sample.drop (completeUtf8Prefix sample))) ∧
      (Undecided sample→
        (sniff utf8HasError sample=⟨.utf8,0,1⟩ ↔ ∃chars rest,sample=encode chars++rest ∧
          (rest=[] ∨ Truncated rest)) ∧
        (sniff utf8HasError sample=⟨.utf8,0,1⟩ ∨ sniff utf8HasError sample=⟨.system,0,1⟩)) := by
  refine ⟨fun chars k => ?_,fun sample => ⟨(sample_trimmed sample).2,fun hundecided => ?_⟩⟩
  · obtain ⟨i,rest,htake,hrest,hmax⟩ := take_encode chars k
    have hkeep : completeUtf8Prefix ((encode chars).take k)=(encode (chars.take i)).length := by
      rw [htake]
      exact completeUtf8Prefix_encode _ hrest
    have hkept : ((encode chars).take k).take (completeUtf8Prefix ((encode chars).take k))=encode
      (chars.take i) := by
      rw [hkeep,htake,List.take_left']
      rfl
    refine ⟨⟨i,hkept,fun j hj => ?_⟩,fun hbom hnul => ?_⟩
    · rw [hkeep]
      exact hmax j (hj.trans (List.length_take_le k _))
    · have hwhole := List.take_prefix k (encode chars)
      have hundecided : Undecided ((encode chars).take k) :=
        ⟨fun h => hbom (h.trans hwhole),fun h => encode_head (h.trans hwhole) (by decide),
          fun h => encode_head (h.trans hwhole) (by decide),hnul⟩
      rw [sniff_undecided hundecided,hkept,(hconverter _).mpr ⟨_,rfl⟩]
      rfl
  · have htrim : sample.take (completeUtf8Prefix sample)++sample.drop (completeUtf8Prefix sample)=sample :=
      List.take_append_drop _ _
    rw [sniff_undecided hundecided]
    constructor
    · constructor
      · intro h
        have hvalid : utf8HasError (sample.take (completeUtf8Prefix sample))=false := by
          by_contra herror
          rw [if_pos (by simpa using herror)] at h
          cases h
        obtain ⟨chars,hchars⟩ := (hconverter _).mp hvalid
        exact ⟨chars,_,by rw [← hchars,htrim],(sample_trimmed sample).2⟩
      · rintro ⟨chars,rest,rfl,hrest⟩
        rw [completeUtf8Prefix_encode chars hrest,List.take_left',(hconverter _).mpr ⟨chars,rfl⟩]
        · rfl
        · rfl
    · split
      · exact Or.inr rfl
      · exact Or.inl rfl

/-- The converter as it is: bytes are free of errors exactly when they decode. -/
theorem sample_cut_validated : sniff (fun s => !s.toByteArray.validateUTF8)
    ((encode "aé€".toList).take 5)=⟨.utf8,0,1⟩ := by
  have hconverter : ∀s : Bytes,(!s.toByteArray.validateUTF8)=false ↔ ∃chars,s=encode chars := by
    intro s
    rw [Bool.not_eq_false',ByteArray.validateUTF8_eq_true_iff]
    constructor
    · rintro ⟨chars,hchars⟩
      have hlist := congrArg (fun b : ByteArray => b.data.toList) hchars
      simp only [List.utf8Encode,List.toList_data_toByteArray] at hlist
      exact ⟨chars,hlist⟩
    · rintro ⟨chars,rfl⟩
      exact ⟨chars,rfl⟩
  exact ((sample_cut _ hconverter).1 _ 5).2 (by decide) (by decide)

end Loftail
