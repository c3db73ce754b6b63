import Loftail.SurrogatePairs

/-! # Texts as bytes: UTF-8 and percent encoding -/
namespace Loftail.QString

/-- The code point of a unit that stands alone; an unpaired surrogate is written as a question mark. -/
def loneUnit (u : UInt16) : Char := if isHighSurrogate u || isLowSurrogate u then '?' else Char.ofNat u.toNat

def surrogateToUcs4 (u v : UInt16) : Char := Char.ofNat (0x10000+(u.toNat-0xD800)*0x400+(v.toNat-0xDC00))

def codePoints : Text→List Char
  | [] => []
  | [u] => [loneUnit u]
  | u::v::t =>
    if isHighSurrogate u && isLowSurrogate v then
      surrogateToUcs4 u v::codePoints t else loneUnit u::codePoints (v::t)

/-- The units of one code point. -/
def units (c : Char) : Text :=
  if c.toNat < 0x10000 then [c.toNat.toUInt16]
  else [(0xD800+(c.toNat-0x10000)/0x400).toUInt16,(0xDC00+(c.toNat-0x10000)%0x400).toUInt16]

def ofCodePoints (cs : List Char) : Text := cs.flatMap units

def toUtf8 (s : Text) : Bytes := (codePoints s).flatMap String.utf8EncodeChar

/-- What the bytes spell after the next `n`: a byte that begins no character is one U+FFFD. -/
def decodeFrom : ℕ→Bytes→List Char
  | _,[] => []
  | n+1,_::bs => decodeFrom n bs
  | 0,b::bs =>
    match (b::bs).toByteArray.utf8DecodeChar? 0 with
    | some c => c::decodeFrom (c.utf8Size-1) bs
    | none => '\uFFFD'::decodeFrom 0 bs

/-- One byte order mark in front of the bytes is not part of the text. -/
def skipMark : Bytes→Bytes
  | 0xEF::0xBB::0xBF::bs => bs
  | bs => bs

def fromUtf8 (bs : Bytes) : Text := ofCodePoints (decodeFrom 0 (skipMark bs))

/-- The bytes that percent encoding leaves alone by default. -/
def isUnreserved (b : Byte) : Bool :=
  (0x61≤b && b≤0x7A) || (0x41≤b && b≤0x5A) || (0x30≤b && b≤0x39) || b=0x2D || b=0x2E || b=0x5F || b=0x7E

def hexUpper (n : Byte) : UInt16 := (if n < 10 then 0x30+n else 0x37+n).toUInt16

/-- One byte as percent encoding spells it. -/
def escape (exclude : Bytes) (b : Byte) : Text :=
  if b≠0x25 ∧ (isUnreserved b || exclude.contains b) then [b.toUInt16] else [0x25,hexUpper (b>>>4),
    hexUpper (b &&& 0xF)]

/-- `QUrl::toPercentEncoding`, read back as a text. -/
def toPercentEncoding (s : Text) (exclude : Bytes) : Text := (toUtf8 s).flatMap (escape exclude)

/-- A digit of an escape; what is no digit stands for itself. -/
def hexValue (b : Byte) : Byte :=
  if 0x30≤b && b≤0x39 then b-0x30
  else if 0x61≤b && b≤0x66 then b-0x61+10
  else if 0x41≤b && b≤0x46 then b-0x41+10
  else b

/-- `QByteArray::fromPercentEncoding`. -/
def percentDecoded : Bytes→Bytes
  | [] => []
  | [a] => [a]
  | [a,b] => [a,b]
  | c::a::b::bs =>
    if c=0x25 then (hexValue a<<<4 ||| hexValue b)::percentDecoded bs else c::percentDecoded (a::b::bs)

/-- `QUrl::fromPercentEncoding`. -/
def fromPercentEncoding (raw : Text) : Text := fromUtf8 (percentDecoded (toUtf8 raw))

example : fromPercentEncoding (latin1 "%C3%A9/%U:") = [0xE9,0x2F,0x7A] := by decide

/-! ### Units and code points -/

@[simp] theorem ofCodePoints_nil : ofCodePoints []=[] := rfl

@[simp] theorem ofCodePoints_cons {c : Char} {cs : List Char} : ofCodePoints (c::cs)=units c++ofCodePoints cs := rfl

@[simp] theorem ofCodePoints_append {cs ds : List Char} :
    ofCodePoints (cs++ds)=ofCodePoints cs++ofCodePoints ds := List.flatMap_append

theorem units_ne_nil (c : Char) : units c≠[] := by
  unfold units
  split <;> simp

theorem codePoints_basic {u : UInt16} (h : ¬isHighSurrogate u) (t : Text) :
    codePoints (u::t)=loneUnit u::codePoints t := by
  cases t with
  | nil => rfl
  | cons v t => simp [codePoints,h]

theorem codePoints_units (c : Char) (t : Text) : codePoints (units c++t)=c::codePoints t := by
  have hc : c.toNat < 0xD800 ∨ 0xDFFF < c.toNat ∧ c.toNat < 0x110000 := c.valid
  unfold units
  split
  case isTrue h =>
    have hu : c.toNat.toUInt16.toNat=c.toNat := by simp; omega
    have hhigh : isHighSurrogate c.toNat.toUInt16=false := by
      simp only [isHighSurrogate,Bool.and_eq_false_iff,decide_eq_false_iff_not,UInt16.le_iff_toNat_le,hu]
      simp only [UInt16.reduceToNat]
      omega
    have hlow : isLowSurrogate c.toNat.toUInt16=false := by
      simp only [isLowSurrogate,Bool.and_eq_false_iff,decide_eq_false_iff_not,UInt16.le_iff_toNat_le,hu]
      simp only [UInt16.reduceToNat]
      omega
    rw [List.singleton_append,codePoints_basic (by simp [hhigh])]
    simp [loneUnit,hhigh,hlow,hu]
  case isFalse h =>
    have hu : (0xD800+(c.toNat-0x10000)/0x400).toUInt16.toNat=0xD800+(c.toNat-0x10000)/0x400 := by
      simp only [Nat.toUInt16_eq,UInt16.toNat_ofNat']
      omega
    have hv : (0xDC00+(c.toNat-0x10000)%0x400).toUInt16.toNat=0xDC00+(c.toNat-0x10000)%0x400 := by
      simp only [Nat.toUInt16_eq,UInt16.toNat_ofNat']
      omega
    have hhigh : isHighSurrogate (0xD800+(c.toNat-0x10000)/0x400).toUInt16=true := by
      simp only [isHighSurrogate,Bool.and_eq_true,decide_eq_true_eq,UInt16.le_iff_toNat_le,hu]
      simp only [UInt16.reduceToNat]
      omega
    have hlow : isLowSurrogate (0xDC00+(c.toNat-0x10000)%0x400).toUInt16=true := by
      simp only [isLowSurrogate,Bool.and_eq_true,decide_eq_true_eq,UInt16.le_iff_toNat_le,hv]
      simp only [UInt16.reduceToNat]
      omega
    have hpoint : 0x10000+(0xD800+(c.toNat-0x10000)/0x400-0xD800)*0x400+(0xDC00+(c.toNat-0x10000)%0x400-0xDC00)=
        c.toNat := by omega
    simp only [List.cons_append,List.nil_append,codePoints,hhigh,hlow,Bool.and_self,if_true,
      surrogateToUcs4,hu,hv,hpoint,Char.ofNat_toNat]

@[simp] theorem codePoints_ofCodePoints (cs : List Char) : codePoints (ofCodePoints cs)=cs := by
  induction cs with
  | nil => rfl
  | cons c cs ih => rw [ofCodePoints_cons,codePoints_units,ih]

private theorem ofCodePoints_injective {cs ds : List Char} (h : ofCodePoints cs=ofCodePoints ds) : cs=ds := by
  rw [← codePoints_ofCodePoints cs,h,codePoints_ofCodePoints]

/-! ### UTF-8 -/

/-- The byte order mark. -/
def mark : Bytes := [0xEF,0xBB,0xBF]

/-- One U+FEFF in front is not part of the text. -/
def dropMark : List Char→List Char
  | [] => []
  | c::cs => if c = '\uFEFF' then cs else c::cs

def utf8 (cs : List Char) : Bytes := cs.flatMap String.utf8EncodeChar

@[simp] theorem utf8_cons {c : Char} {cs : List Char} : utf8 (c::cs)=String.utf8EncodeChar c++utf8 cs := rfl

@[simp] theorem toUtf8_ofCodePoints (cs : List Char) : toUtf8 (ofCodePoints cs)=utf8 cs := by
  rw [toUtf8,codePoints_ofCodePoints,utf8]

private theorem decodeFrom_skip (l bs : Bytes) : decodeFrom l.length (l++bs)=decodeFrom 0 bs := by
  induction l with
  | nil => rfl
  | cons b l ih => exact ih

theorem decodeFrom_encodeChar (c : Char) (bs : Bytes) : decodeFrom 0
    (String.utf8EncodeChar c++bs)=c::decodeFrom 0 bs := by
  have hread : (String.utf8EncodeChar c++bs).toByteArray.utf8DecodeChar? 0=some c := by
    rw [List.toByteArray_append]
    exact ByteArray.utf8DecodeChar?_utf8EncodeChar_append
  have hlen := String.length_utf8EncodeChar c
  cases hl : String.utf8EncodeChar c with
  | nil =>
    have hpos := c.utf8Size_pos
    simp [hl] at hlen
    omega
  | cons b l =>
    rw [hl] at hread hlen
    have hsize : c.utf8Size-1=l.length := by simp at hlen; omega
    simp only [List.cons_append] at hread ⊢
    simp only [decodeFrom,hread,hsize,decodeFrom_skip]

@[simp] theorem decodeFrom_utf8 (cs : List Char) : decodeFrom 0 (utf8 cs)=cs := by
  induction cs with
  | nil => rfl
  | cons c cs ih => rw [utf8_cons,decodeFrom_encodeChar,ih]

theorem encode_mark : String.utf8EncodeChar '\uFEFF'=mark := by decide

theorem skipMark_mark (bs : Bytes) : skipMark (mark++bs)=bs := rfl

theorem skipMark_cases (bs : Bytes) : (∃t,bs=mark++t) ∨ ¬mark <+: bs ∧ skipMark bs=bs := by
  by_cases h : mark <+: bs
  · obtain ⟨t,rfl⟩ := h
    exact .inl ⟨t,rfl⟩
  · refine .inr ⟨h,?_⟩
    unfold skipMark
    split
    · exact absurd ⟨_,rfl⟩ h
    · rfl

/-- Only the three bytes of the mark read as one. -/
theorem decodeFrom_head {bs : Bytes} : (decodeFrom 0 bs).head?=some '\uFEFF'↔mark <+: bs := by
  constructor
  · intro h
    cases bs with
    | nil => simp [decodeFrom] at h
    | cons b bs =>
      simp only [decodeFrom] at h
      split at h
      case h_1 c hc =>
        obtain rfl : c = '\uFEFF' := by simpa using h
        obtain ⟨l,hl⟩ := ByteArray.exists_of_utf8DecodeChar?_eq_some hc
        have hbytes : b::bs=mark++l.data.toList := by
          have hdata := congrArg (·.data.toList) hl
          simpa [encode_mark] using hdata
        exact ⟨_,hbytes.symm⟩
      case h_2 => simp at h
  · rintro ⟨t,rfl⟩
    rw [← encode_mark,decodeFrom_encodeChar]
    rfl

theorem dropMark_eq_iff {cs : List Char} : dropMark cs=cs↔cs.head?≠some '\uFEFF' := by
  cases cs with
  | nil => simp [dropMark]
  | cons c cs =>
    by_cases h : c = '\uFEFF'
    · simp [dropMark,h]
    · simp [dropMark,h]

private theorem skipMark_utf8 (cs : List Char) : skipMark (utf8 cs)=utf8 (dropMark cs) := by
  cases skipMark_cases (utf8 cs) with
  | inl h =>
    have hhead : cs.head?=some '\uFEFF' := by
      rw [← decodeFrom_utf8 cs]
      exact decodeFrom_head.mpr (let ⟨t,ht⟩ := h; ⟨t,ht.symm⟩)
    cases cs with
    | nil => simp at hhead
    | cons c cs =>
      obtain rfl : c = '\uFEFF' := by simpa using hhead
      rw [utf8_cons,encode_mark,skipMark_mark]
      rfl
  | inr h =>
    have hhead : cs.head?≠some '\uFEFF' := by
      rw [← decodeFrom_utf8 cs]
      exact fun hc => h.1 (decodeFrom_head.mp hc)
    rw [h.2,dropMark_eq_iff.mpr hhead]

/-- Text written as UTF-8 reads back, but for a mark in front. -/
theorem fromUtf8_utf8 (cs : List Char) : fromUtf8 (utf8 cs)=ofCodePoints (dropMark cs) := by
  rw [fromUtf8,skipMark_utf8,decodeFrom_utf8]

/-- What is read from bytes begins with a mark where the bytes begin with two. -/
theorem head_of_marks {bs : Bytes} : (decodeFrom 0 (skipMark bs)).head?=some '\uFEFF'↔mark++mark <+: bs := by
  rw [decodeFrom_head]
  cases skipMark_cases bs with
  | inl h =>
    obtain ⟨t,rfl⟩ := h
    rw [skipMark_mark,List.prefix_append_right_inj]
  | inr h =>
    rw [h.2]
    constructor
    · exact fun hm => absurd hm h.1
    · exact fun hm => absurd ((List.prefix_append _ _).trans hm) h.1

/-! ### Percent encoding -/

theorem ofNat_toNat {n : ℕ} (h : n.isValidChar) : (Char.ofNat n).val.toNat=n := by
  rw [Char.ofNat,dif_pos h]
  rfl

private theorem encodeChar_ascii {n : ℕ} (h : n < 0x80) : String.utf8EncodeChar (Char.ofNat n)=[n.toUInt8] := by
  have hvalid : n.isValidChar := .inl (by omega)
  have hval := ofNat_toNat hvalid
  have hsize : (Char.ofNat n).utf8Size=1 := by
    rw [Char.utf8Size_eq_one_iff,UInt32.le_iff_toNat_le,hval]
    exact Nat.le_of_lt_succ h
  rw [String.utf8EncodeChar_eq_singleton hsize]
  congr 1
  apply UInt8.toNat_inj.mp
  rw [UInt32.toNat_toUInt8,hval]
  rfl

theorem toUtf8_ascii {u : UInt16} (h : u < 0x80) (t : Text) : toUtf8 (u::t)=u.toUInt8::toUtf8 t := by
  have hu : u.toNat < 0x80 := by simpa [UInt16.lt_iff_toNat_lt] using h
  have hhigh : isHighSurrogate u=false := by
    simp only [isHighSurrogate,Bool.and_eq_false_iff,decide_eq_false_iff_not,UInt16.le_iff_toNat_le,
      UInt16.reduceToNat]
    omega
  have hlow : isLowSurrogate u=false := by
    simp only [isLowSurrogate,Bool.and_eq_false_iff,decide_eq_false_iff_not,UInt16.le_iff_toNat_le,
      UInt16.reduceToNat]
    omega
  have hpoint : loneUnit u=Char.ofNat u.toNat := by simp [loneUnit,hhigh,hlow]
  rw [toUtf8,codePoints_basic (by simp [hhigh]),hpoint,List.flatMap_cons,encodeChar_ascii hu,toUtf8]
  rfl

/-- The digits of an escape, as the two halves of a byte have them. -/
theorem hex_digits : ∀n : Fin 16,hexUpper (UInt8.ofNat n.val) < 0x80 ∧ hexUpper (UInt8.ofNat n.val)≠0x2F ∧
    hexValue (hexUpper (UInt8.ofNat n.val)).toUInt8=UInt8.ofNat n.val ∧
    (hexUpper (UInt8.ofNat n.val)≠0x40 ∧ hexUpper (UInt8.ofNat n.val)≠0x3A ∧ hexUpper
      (UInt8.ofNat n.val)≠0x25) := by decide

theorem high_half (b : Byte) : ∃n : Fin 16,b>>>4=UInt8.ofNat n.val := by
  have hb := b.toNat_lt
  refine ⟨⟨b.toNat/16,by omega⟩,?_⟩
  apply UInt8.toNat_inj.mp
  simp [Nat.shiftRight_eq_div_pow]
  omega

theorem low_half (b : Byte) : ∃n : Fin 16,b &&& 0xF=UInt8.ofNat n.val := by
  refine ⟨⟨b.toNat%16,by omega⟩,?_⟩
  apply UInt8.toNat_inj.mp
  have hand : (b &&& 0xF).toNat=b.toNat%16 := by simpa using Nat.and_two_pow_sub_one_eq_mod b.toNat 4
  rw [hand]
  simp
  omega

private theorem halves : ∀b : Fin 256,(UInt8.ofNat b.val>>>4)<<<4 |||
    (UInt8.ofNat b.val &&& 0xF)=UInt8.ofNat b.val := by
  decide +kernel

private theorem halves_joined (b : Byte) : (b>>>4)<<<4 ||| (b &&& 0xF)=b := by
  have h := halves ⟨b.toNat,b.toNat_lt⟩
  rwa [UInt8.ofNat_toNat] at h

section Escape
variable {exclude : Bytes} (hascii : ∀b∈exclude,b < 0x80)
include hascii

theorem escape_cases (b : Byte) :
    (escape exclude b=[b.toUInt16] ∧ b≠0x25 ∧ b < 0x80 ∧ (isUnreserved b ∨ b∈exclude)) ∨
    escape exclude b=[0x25,hexUpper (b>>>4),hexUpper (b &&& 0xF)] := by
  unfold escape
  split
  case isTrue h =>
    have hmem : isUnreserved b ∨ b∈exclude := by simpa using h.2
    refine .inl ⟨rfl,h.1,?_,hmem⟩
    cases hmem with
    | inl hu =>
      simp only [isUnreserved,Bool.or_eq_true,Bool.and_eq_true,decide_eq_true_eq,UInt8.le_iff_toNat_le,
        ← UInt8.toNat_inj,UInt8.reduceToNat] at hu
      rw [UInt8.lt_iff_toNat_lt]
      simp only [UInt8.reduceToNat]
      omega
    | inr hm => exact hascii b hm
  case isFalse h => exact .inr rfl

private theorem percentDecoded_escape (b : Byte) (t : Text) :
    percentDecoded (toUtf8 (escape exclude b++t))=b::percentDecoded (toUtf8 t) := by
  cases escape_cases hascii b with
  | inl h =>
    have hb : b.toUInt16 < 0x80 := by
      have hlt := UInt8.lt_iff_toNat_lt.mp h.2.2.1
      rw [UInt16.lt_iff_toNat_lt]
      simpa using hlt
    rw [h.1,List.singleton_append,toUtf8_ascii hb]
    have hbyte : b.toUInt16.toUInt8=b := by simp
    rw [hbyte]
    generalize toUtf8 t=bs
    match bs with
    | [] | [_] => rfl
    | x::y::bs => rw [percentDecoded,if_neg h.2.1]
  | inr h =>
    obtain ⟨m,hm⟩ := high_half b
    obtain ⟨n,hn⟩ := low_half b
    have hhi := hex_digits m
    have hlo := hex_digits n
    rw [h,hm,hn]
    simp only [List.cons_append,List.nil_append]
    rw [toUtf8_ascii (by decide),toUtf8_ascii hhi.1,toUtf8_ascii hlo.1,percentDecoded,if_pos (by decide),hhi.2.2.1,
      hlo.2.2.1,← hm,← hn,halves_joined]

private theorem percentDecoded_escapes (bs : Bytes) : percentDecoded (toUtf8 (bs.flatMap (escape exclude)))=bs := by
  induction bs with
  | nil => rfl
  | cons b bs ih => rw [List.flatMap_cons,percentDecoded_escape hascii,ih]

/-- A text that was encoded is decoded to itself, but for a mark in front. -/
theorem fromPercentEncoding_toPercentEncoding (cs : List Char) :
    fromPercentEncoding (toPercentEncoding (ofCodePoints cs) exclude)=ofCodePoints (dropMark cs) := by
  rw [fromPercentEncoding,toPercentEncoding,percentDecoded_escapes hascii,toUtf8_ofCodePoints,fromUtf8_utf8]

/-- A decoded text survives being encoded and decoded again where its bytes do not begin with two marks. -/
theorem decoded_again_iff (raw : Text) :
    fromPercentEncoding (toPercentEncoding (fromPercentEncoding raw) exclude)=fromPercentEncoding raw↔
      ¬mark++mark <+: percentDecoded (toUtf8 raw) := by
  rw [← head_of_marks,← ne_eq,← dropMark_eq_iff]
  constructor
  · intro h
    rw [fromPercentEncoding,fromUtf8] at h
    exact ofCodePoints_injective ((fromPercentEncoding_toPercentEncoding hascii _).symm.trans h)
  · intro h
    conv_lhs => rw [fromPercentEncoding.eq_def raw,fromUtf8,fromPercentEncoding_toPercentEncoding hascii,h]
    rfl

end Escape

/-! ### Separators -/

theorem slash_of_loneUnit {u : UInt16} (h : loneUnit u = '/') : u=0x2F := by
  unfold loneUnit at h
  split at h
  · exact absurd h (by decide)
  case isFalse hu =>
    have hvalid : u.toNat.isValidChar := by
      have hlt := u.toNat_lt
      simp only [isHighSurrogate,isLowSurrogate,Bool.or_eq_true,Bool.and_eq_true,decide_eq_true_eq,
        UInt16.le_iff_toNat_le,UInt16.reduceToNat] at hu
      simp only [Nat.isValidChar]
      omega
    have hval := ofNat_toNat hvalid
    rw [h] at hval
    apply UInt16.toNat_inj.mp
    rw [← hval]
    rfl

private theorem codePoints_slash (a b : Text) : codePoints (a++0x2F::b)=codePoints a++ '/'::codePoints b := by
  have hslash : ∀t,codePoints (0x2F::t) = '/'::codePoints t := fun t => codePoints_basic (by decide) t
  induction a using codePoints.induct with
  | case1 => exact hslash b
  | case2 u =>
    rw [List.singleton_append,codePoints]
    simp [isLowSurrogate,hslash,codePoints]
  | case3 u v t h ih =>
    simp only [List.cons_append,codePoints,h,if_true,ih]
  | case4 u v t h ih =>
    rw [List.cons_append] at ih
    simp only [List.cons_append,codePoints,h,Bool.false_eq_true,if_false,ih]

private theorem slash_of_pair {u v : UInt16} (hu : isHighSurrogate u) (hv : isLowSurrogate v) :
    surrogateToUcs4 u v ≠ '/' := by
  intro h
  have hvalid : (0x10000+(u.toNat-0xD800)*0x400+(v.toNat-0xDC00)).isValidChar := by
    simp only [isHighSurrogate,isLowSurrogate,Bool.and_eq_true,decide_eq_true_eq,UInt16.le_iff_toNat_le,
      UInt16.reduceToNat] at hu hv
    simp only [Nat.isValidChar]
    omega
  have hval : (surrogateToUcs4 u v).val.toNat=0x10000+(u.toNat-0xD800)*0x400+(v.toNat-0xDC00) := ofNat_toNat hvalid
  rw [h] at hval
  have hsmall : ('/').val.toNat=0x2F := rfl
  omega

private theorem slash_of_codePoints {a : Text} (h : '/'∈codePoints a) : 0x2F∈a := by
  induction a using codePoints.induct with
  | case1 => simp [codePoints] at h
  | case2 u =>
    simp only [codePoints,List.mem_singleton] at h
    simp [slash_of_loneUnit h.symm]
  | case3 u v t hp ih =>
    simp only [codePoints,hp,if_true,List.mem_cons] at h
    rw [Bool.and_eq_true] at hp
    cases h with
    | inl h => exact absurd h.symm (slash_of_pair hp.1 hp.2)
    | inr h => exact List.mem_cons_of_mem _ (List.mem_cons_of_mem _ (ih h))
  | case4 u v t hp ih =>
    simp only [codePoints,hp,Bool.false_eq_true,if_false,List.mem_cons] at h
    cases h with
    | inl h => simp [slash_of_loneUnit h.symm]
    | inr h => exact List.mem_cons_of_mem _ (ih h)

private theorem slash_of_units {c : Char} (h : 0x2F∈units c) : c = '/' := by
  have hc := c.valid
  have hmem := codePoints_units c []
  rw [List.append_nil] at hmem
  unfold units at h hmem
  split at h
  case isTrue hbasic =>
    rw [List.mem_singleton] at h
    rw [if_pos hbasic,← h] at hmem
    exact (List.cons.inj hmem).1.symm
  case isFalse hbasic =>
    have hlt : c.toNat < 0x110000 := by
      have hvalid : c.toNat < 0xD800 ∨ 0xDFFF < c.toNat ∧ c.toNat < 0x110000 := c.valid
      omega
    simp only [List.mem_cons,List.not_mem_nil,or_false,← UInt16.toNat_inj,Nat.toUInt16_eq,UInt16.toNat_ofNat',
      UInt16.reduceToNat] at h
    omega

/-- Decoded text that is cut at a separator was decoded in two parts. -/
theorem ofCodePoints_cut {cs : List Char} {a b : Text} (h : ofCodePoints cs=a++0x2F::b) :
    ∃ca cb,cs=ca++ '/'::cb ∧ ofCodePoints ca=a ∧ ofCodePoints cb=b := by
  induction cs generalizing a with
  | nil => simp at h
  | cons c cs ih =>
    rw [ofCodePoints_cons] at h
    cases List.append_eq_append_iff.mp h with
    | inl hl =>
      obtain ⟨a',rfl,hrest⟩ := hl
      obtain ⟨ca,cb,rfl,hca,hcb⟩ := ih hrest
      exact ⟨c::ca,cb,rfl,by rw [ofCodePoints_cons,hca],hcb⟩
    | inr hr =>
      obtain ⟨c',hunits,hrest⟩ := hr
      cases c' with
      | nil =>
        obtain ⟨ca,cb,rfl,hca,hcb⟩ := ih (a:=[]) hrest.symm
        refine ⟨c::ca,cb,rfl,?_,hcb⟩
        rw [ofCodePoints_cons,hca,hunits,List.append_nil,List.append_nil]
      | cons u c' =>
        obtain ⟨rfl,hb⟩ := List.cons.inj hrest
        obtain rfl : c = '/' := slash_of_units (by rw [hunits]; simp)
        have hone : units '/'=[0x2F] := by decide
        rw [hone] at hunits
        cases a with
        | nil =>
          obtain rfl : c'=[] := by simpa using hunits.symm
          exact ⟨[],cs,rfl,rfl,hb.symm⟩
        | cons x a => simp at hunits

private theorem mem_encodeChar {c : Char} {b : Byte} (hb : b∈String.utf8EncodeChar c) (hlt : b < 0x80) :
    c=Char.ofNat b.toNat := by
  have hor : ∀x y : Byte,0x80≤y → b≠x ||| y := by
    intro x y hy he
    have hle := Nat.right_le_or (m:=y.toNat) (n:=x.toNat)
    rw [he,UInt8.lt_iff_toNat_lt,UInt8.toNat_or] at hlt
    rw [UInt8.le_iff_toNat_le] at hy
    omega
  rcases c.utf8Size_eq with h|h|h|h
  · rw [String.utf8EncodeChar_eq_singleton h,List.mem_singleton] at hb
    rw [Char.utf8Size_eq_one_iff,UInt32.le_iff_toNat_le] at h
    have hval : b.toNat=c.toNat := by
      rw [hb,UInt32.toNat_toUInt8]
      exact Nat.mod_eq_of_lt (Nat.lt_of_le_of_lt h (by decide))
    rw [hval,Char.ofNat_toNat]
  · rw [String.utf8EncodeChar_eq_cons_cons h] at hb
    simp only [List.mem_cons,List.not_mem_nil,or_false] at hb
    rcases hb with hb|hb <;> exact absurd hb (hor _ _ (by decide))
  · rw [String.utf8EncodeChar_eq_cons_cons_cons h] at hb
    simp only [List.mem_cons,List.not_mem_nil,or_false] at hb
    rcases hb with hb|hb|hb <;> exact absurd hb (hor _ _ (by decide))
  · rw [String.utf8EncodeChar_eq_cons_cons_cons_cons h] at hb
    simp only [List.mem_cons,List.not_mem_nil,or_false] at hb
    rcases hb with hb|hb|hb|hb <;> exact absurd hb (hor _ _ (by decide))

section Separators
variable {exclude : Bytes}

@[simp] theorem toPercentEncoding_nil : toPercentEncoding [] exclude=[] := rfl

/-- A separator that is left alone cuts the encoding where it cuts the text. -/
theorem toPercentEncoding_slash (hslash : 0x2F∈exclude) (a b : Text) :
    toPercentEncoding (a++0x2F::b) exclude=toPercentEncoding a exclude++0x2F::toPercentEncoding b exclude := by
  have hbyte : String.utf8EncodeChar '/'=[0x2F] := by decide
  have hkept : escape exclude 0x2F=[0x2F] := by simp [escape,hslash]
  simp only [toPercentEncoding,toUtf8,codePoints_slash,List.flatMap_append,List.flatMap_cons,hbyte,hkept,
    List.singleton_append]

/-- The units an encoding is made of. -/
theorem mem_toPercentEncoding (hascii : ∀b∈exclude,b < 0x80) {s : Text} {u : UInt16}
    (h : u∈toPercentEncoding s exclude) :
    u=0x25 ∨ (∃n : Fin 16,u=hexUpper (UInt8.ofNat n.val)) ∨
      ∃b∈toUtf8 s,u=b.toUInt16 ∧ b < 0x80 ∧ (isUnreserved b ∨ b∈exclude) := by
  obtain ⟨b,hb,hu⟩ := List.mem_flatMap.mp h
  cases escape_cases hascii b with
  | inl he =>
    rw [he.1,List.mem_singleton] at hu
    exact .inr (.inr ⟨b,hb,hu,he.2.2.1,he.2.2.2⟩)
  | inr he =>
    obtain ⟨m,hm⟩ := high_half b
    obtain ⟨n,hn⟩ := low_half b
    rw [he,hm,hn] at hu
    simp only [List.mem_cons,List.not_mem_nil,or_false] at hu
    rcases hu with hu|hu|hu
    · exact .inl hu
    · exact .inr (.inl ⟨m,hu⟩)
    · exact .inr (.inl ⟨n,hu⟩)

/-- A separator in an encoding was one in the text. -/
theorem slash_of_toPercentEncoding (hascii : ∀b∈exclude,b < 0x80) {s : Text}
    (h : 0x2F∈toPercentEncoding s exclude) :
    0x2F∈s ∧ 0x2F∈exclude := by
  rcases mem_toPercentEncoding hascii h with h|⟨n,h⟩|⟨b,hb,hu,hlt,hmem⟩
  · exact absurd h (by decide)
  · exact absurd h.symm (hex_digits n).2.1
  · obtain rfl : b=0x2F := by
      apply UInt8.toNat_inj.mp
      have hn := congrArg UInt16.toNat hu
      simpa using hn.symm
    obtain ⟨c,hc,hb⟩ := List.mem_flatMap.mp hb
    have hslash := mem_encodeChar hb hlt
    refine ⟨slash_of_codePoints (hslash▸hc),?_⟩
    cases hmem with
    | inl h => exact absurd h (by decide)
    | inr h => exact h

/-- What is neither left alone nor a digit of an escape is not in an encoding. -/
theorem at_not_mem_toPercentEncoding (hascii : ∀b∈exclude,b < 0x80) {s : Text} {b : Byte} (hsign : b=0x40 ∨ b=0x3A)
    (hb : b∉exclude) : b.toUInt16∉toPercentEncoding s exclude := by
  intro h
  rcases mem_toPercentEncoding hascii h with h|⟨n,h⟩|⟨b',-,hu,-,hmem⟩
  · rcases hsign with rfl|rfl <;> exact absurd h (by decide)
  · have hdigit := (hex_digits n).2.2.2
    rcases hsign with rfl|rfl
    · exact hdigit.1 h.symm
    · exact hdigit.2.1 h.symm
  · obtain rfl : b=b' := by
      apply UInt8.toNat_inj.mp
      have hn := congrArg UInt16.toNat hu
      simpa using hn
    cases hmem with
    | inl h => rcases hsign with rfl|rfl <;> exact absurd h (by decide)
    | inr h => exact hb h

theorem toPercentEncoding_ne_nil {s : Text} (h : s≠[]) : toPercentEncoding s exclude≠[] := by
  have hpoints : codePoints s≠[] := by
    cases s with
    | nil => exact absurd rfl h
    | cons u t =>
      cases t with
      | nil => simp [codePoints]
      | cons v t =>
        simp only [codePoints]
        split <;> simp
  cases hc : codePoints s with
  | nil => exact absurd hc hpoints
  | cons c cs =>
    have hlen := String.length_utf8EncodeChar c
    have hpos := c.utf8Size_pos
    cases hl : String.utf8EncodeChar c with
    | nil =>
      simp [hl] at hlen
      omega
    | cons b l =>
      have hesc : escape exclude b≠[] := by
        unfold escape
        split <;> simp
      simp [toPercentEncoding,toUtf8,hc,hl,hesc]

end Separators

end Loftail.QString
