import Loftail.DelimitedLines
import Loftail.Record

/-! # Line boundaries in every encoding a decoder supports -/
namespace Loftail
open DelimitedLines

inductive Encoding | auto | utf8 | utf16LE | utf16BE | system
  deriving DecidableEq,Inhabited,Repr

/-- Size of one code unit of an encoding, as `Decoder::detect` settles it. -/
def Encoding.unit : Encoding→ℕ
  | .utf16LE | .utf16BE => 2
  | .auto | .utf8 | .system => 1

/-- A decoder bound to an encoding. Qt's stateless converter is a function of the bytes. -/
structure Decoder where
  resolved : Encoding
  bomLength : ℕ
  unitSize : ℕ
  unit : unitSize=resolved.unit
  decode : Bytes→Text

namespace Decoder

/-- The system's decoder where the locale is Latin-1. -/
def latin1 : Decoder := ⟨.system,0,1,rfl,List.map UInt8.toUInt16⟩

/-- Just past the first `0A`. -/
def byteLineEnd : Bytes→Option ℕ
  | [] => none
  | b::bs => if b=0x0A then some 1 else (byteLineEnd bs).map (·+1)

/-- Just past the first code unit `x y`, two bytes at a time. -/
def unitLineEnd (x y : Byte) : Bytes→Option ℕ
  | a::b::bs => if a=x && b=y then some 2 else (unitLineEnd x y bs).map (·+2)
  | _ => none

/-- The newline search of `Decoder::lineEnd` over what follows `from`. -/
def newline (d : Decoder) (bytes : Bytes) : Option ℕ :=
  if d.unitSize=1 then byteLineEnd bytes
  else if d.resolved=.utf16LE then unitLineEnd 0x0A 0x00 bytes
  else unitLineEnd 0x00 0x0A bytes

/-- Just past the newline code unit of the line at `start`, and whether there was one. -/
def lineEnd (d : Decoder) (buf : Bytes) (start : ℕ) : ℕ×Bool :=
  match d.newline (buf.drop start) with
  | some k => (start+k,true)
  | none => (buf.length,false)

/-- One trailing carriage return is not part of a line's text. -/
def decodeLine (d : Decoder) (content : Bytes) : Text :=
  let text := d.decode content
  if text.getLast?=some 0x0D then text.dropLast else text

/-- The text of the first line of some bytes, and where that line ends. -/
def firstLine (d : Decoder) (bytes : Bytes) : Text×ℕ :=
  let e := d.lineEnd bytes 0
  (d.decodeLine (bytes.take (e.1-(if e.2 then d.unitSize else 0))),e.1)

private theorem byteLineEnd_pos {xs : Bytes} {k : ℕ} (h : byteLineEnd xs=some k) : 0<k := by
  cases xs with
  | nil => simp [byteLineEnd] at h
  | cons b bs =>
    simp only [byteLineEnd] at h
    split at h
    · have := Option.some.inj h
      omega
    · obtain ⟨j,_,rfl⟩ := Option.map_eq_some_iff.mp h
      omega

private theorem byteLineEnd_le {xs : Bytes} {k : ℕ} (h : byteLineEnd xs=some k) : k≤xs.length := by
  induction xs generalizing k with
  | nil => simp [byteLineEnd] at h
  | cons b bs ih =>
    simp only [byteLineEnd] at h
    split at h
    · have := Option.some.inj h
      simp only [List.length_cons]
      omega
    · obtain ⟨j,hj,rfl⟩ := Option.map_eq_some_iff.mp h
      simpa using ih hj

private theorem byteLineEnd_append {xs : Bytes} {k : ℕ} (h : byteLineEnd xs=some k) (ys : Bytes) :
    byteLineEnd (xs++ys)=some k := by
  induction xs generalizing k with
  | nil => simp [byteLineEnd] at h
  | cons b bs ih =>
    simp only [byteLineEnd,List.cons_append] at h ⊢
    by_cases hb : b=0x0A
    · rw [if_pos hb] at h ⊢
      exact h
    · rw [if_neg hb] at h ⊢
      obtain ⟨j,hj,rfl⟩ := Option.map_eq_some_iff.mp h
      simp [ih hj]

private theorem byteLineEnd_take {xs : Bytes} {k : ℕ} (h : byteLineEnd xs=some k) :
    byteLineEnd (xs.take k)=some k := by
  induction xs generalizing k with
  | nil => simp [byteLineEnd] at h
  | cons b bs ih =>
    simp only [byteLineEnd] at h
    by_cases hb : b=0x0A
    · rw [if_pos hb] at h
      have := Option.some.inj h
      subst this
      simp [byteLineEnd,hb]
    · rw [if_neg hb] at h
      obtain ⟨j,hj,rfl⟩ := Option.map_eq_some_iff.mp h
      simp [byteLineEnd,hb,ih hj]

private theorem unitLineEnd_pos {x y : Byte} {xs : Bytes} {k : ℕ} (h : unitLineEnd x y xs=some k) : 0<k := by
  match xs with
  | [] | [_] => simp [unitLineEnd] at h
  | a::b::bs =>
    simp only [unitLineEnd] at h
    split at h
    · have := Option.some.inj h
      omega
    · obtain ⟨j,_,rfl⟩ := Option.map_eq_some_iff.mp h
      omega

private theorem unitLineEnd_le {x y : Byte} {xs : Bytes} {k : ℕ} (h : unitLineEnd x y xs=some k) :
    k≤xs.length := by
  fun_induction unitLineEnd x y xs generalizing k with
  | case1 a b bs hab =>
    have := Option.some.inj h
    simp only [List.length_cons]
    omega
  | case2 a b bs hab ih =>
    obtain ⟨j,hj,rfl⟩ := Option.map_eq_some_iff.mp h
    simpa using ih hj
  | case3 xs hx => simp at h

private theorem unitLineEnd_append {x y : Byte} {xs : Bytes} {k : ℕ} (h : unitLineEnd x y xs=some k) (ys : Bytes) :
    unitLineEnd x y (xs++ys)=some k := by
  fun_induction unitLineEnd x y xs generalizing k with
  | case1 a b bs hab => simpa only [List.cons_append,unitLineEnd,if_pos hab] using h
  | case2 a b bs hab ih =>
    obtain ⟨j,hj,rfl⟩ := Option.map_eq_some_iff.mp h
    simp only [List.cons_append,unitLineEnd,if_neg hab,ih hj,Option.map_some]
  | case3 xs hx => simp at h

private theorem unitLineEnd_take {x y : Byte} {xs : Bytes} {k : ℕ} (h : unitLineEnd x y xs=some k) :
    unitLineEnd x y (xs.take k)=some k := by
  fun_induction unitLineEnd x y xs generalizing k with
  | case1 a b bs hab =>
    have := Option.some.inj h
    subst this
    simp only [List.take_succ_cons,List.take_zero,unitLineEnd,if_pos hab]
  | case2 a b bs hab ih =>
    obtain ⟨j,hj,rfl⟩ := Option.map_eq_some_iff.mp h
    simp only [List.take_succ_cons,unitLineEnd,if_neg hab,ih hj,Option.map_some]
  | case3 xs hx => simp at h

private theorem newline_cases (d : Decoder) :
    d.newline=byteLineEnd ∨ ∃x y,d.newline=unitLineEnd x y := by
  by_cases h₁ : d.unitSize=1
  · exact Or.inl (funext fun bs => by simp [newline,h₁])
  · by_cases h₂ : d.resolved=.utf16LE
    · exact Or.inr ⟨0x0A,0x00,funext fun bs => by simp [newline,h₁,h₂]⟩
    · exact Or.inr ⟨0x00,0x0A,funext fun bs => by simp [newline,h₁,h₂]⟩

/-- The newline search decides a line by the bytes of that line alone. -/
def finder (d : Decoder) : LineFinder Byte where
  find := d.newline
  pos := by
    rcases d.newline_cases with h | ⟨x,y,h⟩ <;> simp only [h]
    · exact byteLineEnd_pos
    · exact unitLineEnd_pos
  le := by
    rcases d.newline_cases with h | ⟨x,y,h⟩ <;> simp only [h]
    · exact byteLineEnd_le
    · exact unitLineEnd_le
  take := by
    rcases d.newline_cases with h | ⟨x,y,h⟩ <;> simp only [h]
    · exact byteLineEnd_take
    · exact unitLineEnd_take
  append := by
    rcases d.newline_cases with h | ⟨x,y,h⟩ <;> simp only [h]
    · exact byteLineEnd_append
    · exact unitLineEnd_append

@[simp] theorem finder_find (d : Decoder) (bytes : Bytes) : d.finder.find bytes=d.newline bytes := rfl

/-- The bytes of a line without its newline code unit. -/
def lineContent (d : Decoder) (line : Bytes) : Bytes :=
  line.take (line.length-if d.finder.Terminated line then d.unitSize else 0)

/-- The text the record-start decision is made on. -/
def lineText (d : Decoder) (line : Bytes) : Text := d.decodeLine (d.lineContent line)

theorem decodeLine_prefix (d : Decoder) (content : Bytes) : d.decodeLine content<+:d.decode content := by
  unfold decodeLine
  dsimp only
  split
  · exact List.dropLast_prefix _
  · exact List.prefix_rfl

/-- Only a carriage return can be lost from the head of a line. -/
theorem decodeLine_head {d : Decoder} {content : Bytes} {x : UInt16} {xs : Text} (h : d.decode content=x::xs)
    (hx : x≠0x0D) : [x]<+:d.decodeLine content := by
  simp only [decodeLine,h]
  cases xs with
  | nil => simp [hx]
  | cons a as =>
    split
    · rw [List.dropLast_cons_cons]
      exact List.prefix_append [x] _
    · exact List.prefix_append [x] _

theorem lineEnd_of_newline {d : Decoder} {buf : Bytes} {start k : ℕ} (h : d.newline (buf.drop start)=some k) :
    d.lineEnd buf start=(start+k,true) := by simp [lineEnd,h]

theorem lineEnd_of_none {d : Decoder} {buf : Bytes} {start : ℕ} (h : d.newline (buf.drop start)=none) :
    d.lineEnd buf start=(buf.length,false) := by simp [lineEnd,h]

end Decoder

end Loftail
