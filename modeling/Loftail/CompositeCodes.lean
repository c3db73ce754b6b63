import Loftail.DateTranslation

/-! # Shorthand codes of a date format -/
namespace Loftail

/-- A format with some of its shorthands written out, `t` from `s`. -/
inductive WrittenOut : Text→Text→Prop
  | nil : WrittenOut [] []
  | stray : WrittenOut [0x25] [0x25]
  | literal {c : UInt16} {s t : Text} (hc : c≠0x25) (h : WrittenOut s t) : WrittenOut (c::s) (c::t)
  | code (code : UInt16) {s t : Text} (h : WrittenOut s t) : WrittenOut (0x25::code::s) (0x25::code::t)
  | shorthand {code : UInt16} {s t : Text} (hcode : expansionOf code≠[]) (h : WrittenOut s t) :
    WrittenOut (0x25::code::s) (expansionOf code++t)

/-- Every shorthand written out. -/
def writeOut : Text→Text
  | [] => []
  | [c] => [c]
  | c::code::s =>
    if c≠0x25 then c::writeOut (code::s)
    else if expansionOf code≠[] then expansionOf code++writeOut s
    else 0x25::code::writeOut s

theorem writeOut_writtenOut : ∀s,WrittenOut s (writeOut s)
  | [] => .nil
  | [c] => by
    by_cases hc : c=0x25
    · rw [hc]
      exact .stray
    · exact .literal hc .nil
  | c::code::s => by
    rw [writeOut]
    split
    case isTrue hc => exact .literal hc (writeOut_writtenOut (code::s))
    case isFalse hc =>
      obtain rfl : c=0x25 := by simpa using hc
      split
      case isTrue hcode => exact .shorthand hcode (writeOut_writtenOut s)
      case isFalse => exact .code code (writeOut_writtenOut s)

/-- No shorthand and no stray sign: what every expansion is made of. -/
def isSpelledOut : Text→Bool
  | [] => true
  | [c] => c≠0x25
  | c::code::s => if c≠0x25 then isSpelledOut (code::s) else (expansionOf code).isEmpty && isSpelledOut s

/-! ### One code after another -/

section
variable {isLetter : UInt16→Bool} {composite composite' : Text→ℤ→UInt16→Except CompileError (List DateItem)}
  {following code c : UInt16} {e s t : Text} {offset : ℤ}

theorem toOption_bind {ε α β : Type} (x : Except ε α) (f : α→Except ε β) :
    (x >>= f).toOption=x.toOption.bind fun a => (f a).toOption := by
  cases x <;> rfl

theorem translate_literal (hc : c≠0x25) : (translateWith isLetter composite following (c::t) offset).toOption=
    (translateWith isLetter composite following t (offset+1)).toOption.map (.literal isLetter c::·) := by
  have hsplit : translateWith isLetter composite following (c::t) offset=
      translateWith isLetter composite following t (offset+1) >>= fun items =>
        .ok (.literal isLetter c::items) := by
    rw [translateWith.eq_def]
    simp only
    rw [if_pos hc]
  rw [hsplit,toOption_bind]
  exact (Option.map_eq_bind ..).symm

theorem translate_stray : (translateWith isLetter composite following [0x25] offset).toOption=none := rfl

theorem translate_code (hcode : expansionOf code=[]) :
    (translateWith isLetter composite following (0x25::code::t) offset).toOption=
      (dateCode code (t.head?.getD following=0x2E)).bind fun item =>
        (translateWith isLetter composite following t (offset+2)).toOption.map (item::·) := by
  rw [translateWith]
  simp only [ne_eq,not_true,if_false,hcode]
  cases dateCode code (t.head?.getD following=0x2E) with
  | none => rfl
  | some item =>
    rw [toOption_bind]
    exact (Option.map_eq_bind ..).symm

theorem translate_shorthand (hcode : expansionOf code≠[]) :
    (translateWith isLetter composite following (0x25::code::t) offset).toOption=
      (composite (expansionOf code) offset (t.head?.getD following)).toOption.bind fun expanded =>
        (translateWith isLetter composite following t (offset+2)).toOption.map (expanded++·) := by
  rw [translateWith]
  simp only [ne_eq,not_true,if_false,hcode,not_false_eq_true,if_true,toOption_bind]
  congr 1
  funext expanded
  exact (Option.map_eq_bind ..).symm

/-- Where an expansion stands says nothing about what it is translated to. -/
def Placeless (composite : Text→ℤ→UInt16→Except CompileError (List DateItem)) : Prop :=
  ∀e n n' f,(composite e n f).toOption=(composite e n' f).toOption

/-- Where a format stands says nothing about what it is translated to. -/
theorem translate_anywhere (h : Placeless composite) (offset offset' : ℤ) :
    ∀t,(translateWith isLetter composite following t offset).toOption=
      (translateWith isLetter composite following t offset').toOption
  | [] => rfl
  | [c] => by
    by_cases hc : c=0x25
    · rw [hc,translate_stray,translate_stray]
    · rw [translate_literal hc,translate_literal hc]
      rfl
  | c::code::t => by
    by_cases hc : c=0x25
    · rw [hc]
      by_cases hcode : expansionOf code=[]
      · rw [translate_code hcode,translate_code hcode,translate_anywhere h (offset+2) (offset'+2) t]
      · rw [translate_shorthand hcode,translate_shorthand hcode,h _ offset offset',
          translate_anywhere h (offset+2) (offset'+2) t]
    · rw [translate_literal hc,translate_literal hc,translate_anywhere h (offset+1) (offset'+1) (code::t)]

theorem translateExpansion_placeless (isLetter : UInt16→Bool) : Placeless (translateExpansion isLetter) :=
  fun e n n' _ => translate_anywhere (fun _ _ _ _ => rfl) n n' e

/-- A format without shorthands is translated alone as it is in front of another, given what that one begins
with. -/
theorem translate_append (h : Placeless composite) (h' : Placeless composite') (t : Text) (offset offset' : ℤ) :
    ∀e : Text,isSpelledOut e=true → (translateWith isLetter composite following (e++t) offset).toOption=
      (translateWith isLetter composite' (t.head?.getD following) e offset').toOption.bind fun expanded =>
        (translateWith isLetter composite following t offset).toOption.map (expanded++·)
  | [],_ => by
    show _=Option.map ([]++·) _
    exact (congrFun Option.map_id _).symm
  | [c],he => by
    have hc : c≠0x25 := by simpa [isSpelledOut] using he
    rw [List.singleton_append,translate_literal hc,translate_literal hc,translate_anywhere h (offset+1) offset]
    rfl
  | c::code::e,he => by
    rw [isSpelledOut] at he
    split at he
    case isTrue hc =>
      rw [List.cons_append,translate_literal hc,translate_literal hc,translate_anywhere h (offset+1) offset,
        translate_append h h' t offset (offset'+1) (code::e) he,Option.map_bind,Option.bind_map]
      congr 1
      funext expanded
      rw [Function.comp_apply,Option.map_map]
      rfl
    case isFalse hc =>
      obtain rfl : c=0x25 := by simpa using hc
      rw [Bool.and_eq_true,List.isEmpty_iff] at he
      have hnext : (e++t).head?.getD following=e.head?.getD (t.head?.getD following) := by
        cases e <;> rfl
      rw [List.cons_append,List.cons_append,translate_code he.1,translate_code he.1,hnext,
        translate_anywhere h (offset+2) offset,translate_append h h' t offset (offset'+2) e he.2,Option.bind_assoc]
      congr 1
      funext item
      rw [Option.map_bind,Option.bind_map]
      congr 1
      funext expanded
      rw [Function.comp_apply,Option.map_map]
      rfl

private theorem expansion_spelledOut (code : UInt16) : isSpelledOut (expansionOf code)=true := by
  unfold expansionOf
  split_ifs <;> decide

private theorem expansion_head (hcode : expansionOf code≠[]) : (expansionOf code).head?=some 0x25 := by
  revert hcode
  unfold expansionOf
  split_ifs <;> decide

/-- What is written out begins as the shorthand did. -/
theorem WrittenOut.head (h : WrittenOut s t) : s.head?=t.head? := by
  cases h with
  | nil => rfl
  | stray => rfl
  | literal => rfl
  | code => rfl
  | shorthand hcode =>
    rw [List.head?_append,expansion_head hcode]
    rfl

private theorem translate_writtenOut (following : UInt16) (offset : ℤ) (h : WrittenOut s t) :
    (translateWith isLetter (translateExpansion isLetter) following s offset).toOption=
      (translateWith isLetter (translateExpansion isLetter) following t offset).toOption := by
  have hplace := translateExpansion_placeless isLetter
  induction h with
  | nil => rfl
  | stray => rfl
  | literal hc h ih =>
    rw [translate_literal hc,translate_literal hc,translate_anywhere hplace (offset+1) offset,ih,
      translate_anywhere hplace (offset+1) offset]
  | @code code s t h ih =>
    by_cases hcode : expansionOf code=[]
    · rw [translate_code hcode,translate_code hcode,h.head,translate_anywhere hplace (offset+2) offset,ih,
        translate_anywhere hplace (offset+2) offset]
    · rw [translate_shorthand hcode,translate_shorthand hcode,h.head,translate_anywhere hplace (offset+2) offset,ih,
        translate_anywhere hplace (offset+2) offset]
  | @shorthand code s t hcode h ih =>
    have hinner : Placeless (fun _ _ _ => .ok []) := fun _ _ _ _ => rfl
    rw [translate_shorthand hcode,h.head,translate_anywhere hplace (offset+2) offset,ih,
      translate_append hplace hinner t offset offset _ (expansion_spelledOut code)]
    rfl

/-- A format says the same with its shorthands written out, all of them or some, wherever they stand: it is
accepted or not, and what it is translated to is the same expression, the same tokens and the same format for
Qt. -/
theorem shorthands_transparent (isLetter : UInt16→Bool) (fmt : Text) (offset offset' : ℤ) :
    (translateDateFormat isLetter fmt offset).toOption=(translateDateFormat isLetter
      (writeOut fmt) offset').toOption ∧
    ∀fmt',WrittenOut fmt fmt' →
      (translateDateFormat isLetter fmt offset).toOption=(translateDateFormat isLetter fmt' offset').toOption := by
  have hall : ∀fmt',WrittenOut fmt fmt' →
      (translateDateFormat isLetter fmt offset).toOption=(translateDateFormat isLetter fmt' offset').toOption := by
    intro fmt' h
    have hmap : ∀x : Except CompileError (List DateItem),
      (x.map DateTranslation.mk).toOption=x.toOption.map DateTranslation.mk := by
      intro x
      cases x <;> rfl
    rw [translateDateFormat,translateDateFormat,hmap,hmap,translate_writtenOut 0 offset h,
      translate_anywhere (translateExpansion_placeless isLetter) offset offset']
  exact ⟨hall _ (writeOut_writtenOut fmt),hall⟩

theorem shorthands_transparent_fraction (isLetter : UInt16→Bool) :
    (translateDateFormat isLetter (latin1 "%T.%q") 3).toOption=
        (translateDateFormat isLetter (writeOut (latin1 "%T.%q")) 3).toOption ∧
      (translateDateFormat isLetter (latin1 "%T.%q") 3).toOption=
        (translateDateFormat isLetter (latin1 "%H:%M:%S.%q") 3).toOption := by
  obtain ⟨hall,hsome⟩ := shorthands_transparent isLetter (latin1 "%T.%q") 3 3
  refine ⟨hall,hsome _ ?_⟩
  have hcode : expansionOf (unit 'T')≠[] := by decide
  exact .shorthand hcode (.literal (by decide) (.code _ .nil))

end
end Loftail
