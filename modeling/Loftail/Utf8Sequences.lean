import Mathlib.Data.List.TakeDrop
import Mathlib.Data.Nat.Basic

/-! # The bytes of a text, cut anywhere

A character is a lead byte, which says how many bytes there are, and continuation bytes. A text cut
at any byte is whole characters and at most one that is not complete. -/
namespace Utf8Sequences

def isContinuation (b : UInt8) : Bool := b &&& 0xC0=0x80

/-- The length a lead byte announces. -/
def announced (b : UInt8) : Option ℕ :=
  if b<0x80 then some 1
  else if b &&& 0xE0=0xC0 then some 2
  else if b &&& 0xF0=0xE0 then some 3
  else if b &&& 0xF8=0xF0 then some 4
  else none

/-- The bytes of a text. -/
def encode (chars : List Char) : List UInt8 := chars.flatMap String.utf8EncodeChar

/-- A lead byte with some of its continuation bytes: a sequence that runs off the end. -/
def Truncated (bytes : List UInt8) : Prop :=
  ∃lead conts n,bytes=lead::conts ∧ (∀b∈conts,isContinuation b=true) ∧ announced lead=some n ∧ conts.length+1<n

/-- A whole sequence. -/
def Complete (bytes : List UInt8) : Prop :=
  ∃lead conts,bytes=lead::conts ∧ (∀b∈conts,isContinuation b=true) ∧ announced lead=some (conts.length+1)

theorem announced_le {b : UInt8} {n : ℕ} (h : announced b=some n) : 1≤n ∧ n≤4 := by
  unfold announced at h
  split_ifs at h <;> obtain rfl := Option.some.inj h <;> decide

/-- No byte is both. -/
theorem not_continuation {b : UInt8} {n : ℕ} (h : announced b=some n) : isContinuation b=false := by
  have hall : ∀x<256,announced (UInt8.ofNat x)≠none→isContinuation (UInt8.ofNat x)=false := by decide +kernel
  have hb := hall b.toNat b.toNat_lt
  rw [UInt8.ofNat_toNat] at hb
  exact hb (by simp [h])

private theorem continuation_low : ∀x<64,isContinuation (UInt8.ofNat (x+0x80))=true := by decide

private theorem announced_ascii : ∀x<128,announced (UInt8.ofNat x)=some 1 := by decide

private theorem announced_two : ∀x<32,announced (UInt8.ofNat (x+0xC0))=some 2 := by decide

private theorem announced_three : ∀x<16,announced (UInt8.ofNat (x+0xE0))=some 3 := by decide

private theorem announced_four : ∀x<8,announced (UInt8.ofNat (x+0xF0))=some 4 := by decide

theorem complete_encodeChar (c : Char) : Complete (String.utf8EncodeChar c) := by
  have hcont : ∀n,isContinuation (UInt8.ofNat (n%0x40+0x80))=true := fun n =>
    continuation_low _ (Nat.mod_lt n (by decide))
  unfold String.utf8EncodeChar
  dsimp only
  split
  · rename_i h
    exact ⟨_,[],rfl,by simp,announced_ascii _ (Nat.lt_succ_of_le h)⟩
  · split
    · refine ⟨_,[_],rfl,?_,announced_two _ (Nat.mod_lt _ (by decide))⟩
      exact List.forall_mem_singleton.mpr (hcont _)
    · split
      · refine ⟨_,[_,_],rfl,?_,announced_three _ (Nat.mod_lt _ (by decide))⟩
        exact List.forall_mem_cons.mpr ⟨hcont _,List.forall_mem_singleton.mpr (hcont _)⟩
      · refine ⟨_,[_,_,_],rfl,?_,announced_four _ (Nat.mod_lt _ (by decide))⟩
        exact List.forall_mem_cons.mpr
          ⟨hcont _,List.forall_mem_cons.mpr ⟨hcont _,List.forall_mem_singleton.mpr (hcont _)⟩⟩

/-- A sequence cut short is nothing, or cut inside. -/
theorem Complete.take {bytes : List UInt8} (h : Complete bytes) {k : ℕ} (hk : k<bytes.length) :
    bytes.take k=[] ∨ Truncated (bytes.take k) := by
  obtain ⟨lead,conts,rfl,hconts,hlead⟩ := h
  cases k with
  | zero => exact Or.inl rfl
  | succ k =>
    rw [List.length_cons,Nat.succ_lt_succ_iff] at hk
    refine Or.inr ⟨lead,conts.take k,conts.length+1,rfl,fun b hb => hconts b (List.mem_of_mem_take hb),hlead,?_⟩
    rw [List.length_take_of_le (Nat.le_of_lt hk)]
    omega

@[simp] theorem encode_nil : encode []=[] := rfl

theorem encode_cons (c : Char) (chars : List Char) : encode (c::chars)=String.utf8EncodeChar c++encode chars := rfl

private theorem encode_append (chars more : List Char) : encode (chars++more)=encode chars++encode more :=
    List.flatMap_append

/-- A text cut at any byte: the characters before the cut, and what is left of the one it falls in. -/
theorem take_encode (chars : List Char) (k : ℕ) : ∃i rest,(encode chars).take k=encode (chars.take i)++rest ∧
    (rest=[] ∨ Truncated rest) ∧
    ∀j,(encode (chars.take j)).length≤k→(encode (chars.take j)).length≤(encode (chars.take i)).length := by
  induction chars generalizing k with
  | nil => exact ⟨0,[],by simp,Or.inl rfl,fun j _ => by simp⟩
  | cons c chars ih =>
    by_cases hk : k<(String.utf8EncodeChar c).length
    · refine ⟨0,(String.utf8EncodeChar c).take k,?_,(complete_encodeChar c).take hk,fun j hj => ?_⟩
      · rw [encode_cons,List.take_append_of_le_length (Nat.le_of_lt hk)]
        rfl
      · cases j with
        | zero => exact le_rfl
        | succ j =>
          rw [List.take_succ_cons,encode_cons,List.length_append] at hj
          omega
    · obtain ⟨i,rest,htake,hrest,hmax⟩ := ih (k-(String.utf8EncodeChar c).length)
      refine ⟨i+1,rest,?_,hrest,fun j hj => ?_⟩
      · rw [encode_cons,List.take_append,List.take_of_length_le (not_lt.mp hk),htake,
          List.take_succ_cons,encode_cons,List.append_assoc]
      · cases j with
        | zero => exact Nat.zero_le _
        | succ j =>
          rw [List.take_succ_cons,encode_cons,List.length_append] at hj ⊢
          rw [List.take_succ_cons,encode_cons,List.length_append]
          have := hmax j (by omega)
          omega

/-- A text that is not empty ends in a whole sequence. -/
theorem encode_last {chars : List Char} (h : encode chars≠[]) : ∃front last,encode chars=front++last ∧
    Complete last := by
  obtain rfl | ⟨front,c,rfl⟩ := List.eq_nil_or_concat chars
  · exact absurd rfl h
  · refine ⟨encode front,String.utf8EncodeChar c,?_,complete_encodeChar c⟩
    rw [List.concat_eq_append,encode_append,encode_cons,encode_nil,List.append_nil]

end Utf8Sequences
