import Mathlib.Computability.Language

/-! # Regular expressions and the texts they match

An expression is built over names of character classes. What a class matches is given; greedy and
lazy repetition match the same texts, as do a capturing group and a plain one. -/
namespace Loftail.RegularLanguage

inductive Quantifier
  | exactly (n : ℕ)
  | between (least most : ℕ)
  | star
  | lazyStar
  | plus
  | optional
  deriving DecidableEq,Repr

/-- How often a quantified expression may be matched. -/
def Quantifier.Allows : Quantifier→ℕ→Prop
  | .exactly m,n => n=m
  | .between least most,n => least≤n ∧ n ≤ most
  | .star,_ => True
  | .lazyStar,_ => True
  | .plus,n => 1≤n
  | .optional,n => n≤1

instance (q : Quantifier) (n : ℕ) : Decidable (q.Allows n) := by
  cases q <;> unfold Quantifier.Allows <;> infer_instance

inductive Re (κ : Type*)
  | empty
  | cls (k : κ)
  | seq (a b : Re κ)
  | alt (a b : Re κ)
  | rep (r : Re κ) (q : Quantifier)
  | group (r : Re κ)
  | plain (r : Re κ)

namespace Re

variable {κ α : Type*} (has : κ→Language α)

def language : Re κ→Language α
  | .empty => 1
  | .cls k => has k
  | .seq a b => a.language*b.language
  | .alt a b => a.language+b.language
  | .rep r q => {s | ∃n,q.Allows n ∧ s∈r.language^n}
  | .group r => r.language
  | .plain r => r.language

/-- One expression after another. -/
def all (rs : List (Re κ)) : Re κ := rs.foldr .seq .empty

/-- How many groups an expression captures. -/
def groupCount : Re κ→ℕ
  | .empty | .cls _ => 0
  | .seq a b | .alt a b => a.groupCount+b.groupCount
  | .rep r _ | .plain r => r.groupCount
  | .group r => r.groupCount+1

variable {has} {k : κ} {a b r : Re κ} {q : Quantifier} {s t : List α} {rs rs' : List (Re κ)} {p : α→Bool}

@[simp] theorem mem_empty : s∈language has .empty ↔ s=[] := Iff.rfl

@[simp] theorem mem_cls : s∈language has (.cls k) ↔ s∈has k := Iff.rfl

@[simp] theorem mem_group : s∈language has (.group r) ↔ s∈language has r := Iff.rfl

theorem mem_seq : s∈language has (.seq a b) ↔ ∃u∈language has a,∃v∈language has b,u++v=s := Language.mem_mul

theorem append_mem_seq (hs : s∈language has a) (ht : t∈language has b) : s++t∈language has (.seq a b) :=
  Language.append_mem_mul hs ht

theorem mem_rep : s∈language has (.rep r q) ↔
    ∃pieces : List (List α),q.Allows pieces.length ∧ (∀u∈pieces,u∈language has r) ∧ s=pieces.flatten := by
  constructor
  · rintro ⟨n,hq,hs⟩
    obtain ⟨pieces,rfl,rfl,hall⟩ := Language.mem_pow.mp hs
    exact ⟨pieces,hq,hall,rfl⟩
  · rintro ⟨pieces,hq,hall,rfl⟩
    exact ⟨pieces.length,hq,Language.mem_pow.mpr ⟨pieces,rfl,rfl,hall⟩⟩

/-- A class that matches single characters. -/
def units (p : α→Bool) : Language α := {s | ∃x,s=[x] ∧ p x=true}

theorem singleton_mem_units {x : α} : [x]∈units p ↔ p x=true := by
  constructor
  · rintro ⟨y,hy,hp⟩
    obtain rfl := List.singleton_inj.mp hy
    exact hp
  · intro hp
    exact ⟨x,rfl,hp⟩

/-- Repeated, it matches as many characters of the class as the quantifier allows. -/
theorem mem_rep_units (hk : has k=units p) :
    s∈language has (.rep (.cls k) q) ↔ q.Allows s.length ∧ ∀x∈s,p x=true := by
  rw [mem_rep]
  constructor
  · rintro ⟨pieces,hq,hall,rfl⟩
    have hsingle : ∀u∈pieces,∃x,u=[x] ∧ p x=true := by
      intro u hu
      have hmem := hall u hu
      rw [mem_cls,hk] at hmem
      exact hmem
    have hlen : pieces.flatten.length=pieces.length := by
      rw [List.length_flatten]
      have hone : pieces.map List.length=pieces.map fun _ => 1 := by
        apply List.map_congr_left
        intro u hu
        obtain ⟨x,rfl,-⟩ := hsingle u hu
        rfl
      rw [hone]
      simp
    refine ⟨hlen ▸ hq,?_⟩
    intro x hx
    obtain ⟨u,hu,hxu⟩ := List.mem_flatten.mp hx
    obtain ⟨y,rfl,hy⟩ := hsingle u hu
    obtain rfl := List.mem_singleton.mp hxu
    exact hy
  · rintro ⟨hq,hall⟩
    refine ⟨s.map fun x => [x],?_,?_,?_⟩
    · rwa [List.length_map]
    · intro u hu
      obtain ⟨x,hx,rfl⟩ := List.mem_map.mp hu
      rw [mem_cls,hk,singleton_mem_units]
      exact hall x hx
    · clear hq hall
      induction s with
      | nil => rfl
      | cons x s ih => rw [List.map_cons,List.flatten_cons,← ih,List.singleton_append]

theorem mem_rep_optional : s∈language has (.rep r .optional) ↔ s=[] ∨ s∈language has r := by
  rw [mem_rep]
  constructor
  · rintro ⟨pieces,hq,hall,rfl⟩
    match pieces,hq,hall with
    | [],_,_ => exact Or.inl rfl
    | [u],_,hall =>
      right
      rw [List.flatten_singleton]
      exact hall u (List.mem_singleton_self u)
  · rintro (rfl | hs)
    · exact ⟨[],Nat.zero_le _,by simp,rfl⟩
    · exact ⟨[s],Nat.le_refl _,by simpa using hs,by simp⟩

theorem language_all_append : language has (all (rs++rs'))=language has (all rs)*language has (all rs') := by
  induction rs with
  | nil => exact (one_mul _).symm
  | cons r rs ih =>
    show language has r*language has (all (rs++rs'))=language has r*language has (all rs)*_
    rw [ih,mul_assoc]

theorem mem_all_singleton : s∈language has (all [r]) ↔ s∈language has r := by
  show s∈language has r*1 ↔ _
  rw [mul_one]

theorem mem_all_cons : s∈language has (all (r::rs)) ↔ ∃u∈language has r,∃v∈language has (all rs),u++v=s :=
  Language.mem_mul

theorem append_mem_all (hs : s∈language has (all rs)) (ht : t∈language has (all rs')) :
    s++t∈language has (all (rs++rs')) := by
  rw [language_all_append]
  exact Language.append_mem_mul hs ht

end Re

end Loftail.RegularLanguage
