import Mathlib.Tactic.NormNum
import Mathlib.Tactic.Positivity
import Mathlib.Data.Nat.Log
import Mathlib.Computability.Primrec.List
import Loftail.Record

/-! # JSON values as the settings files use them

An object is the list of its keys with their values; a key that is inserted again keeps its place. -/
namespace Loftail

inductive Json
  | null
  | bool (b : Bool)
  | number (n : ℤ)
  | fraction (num : ℤ) (den : ℕ)
  | string (s : Text)
  | array (xs : List Json)
  | object (fields : List (String×Json))

/-- The nearest double of a whole number, ties to the even one. -/
def nearestDouble (m : ℕ) : ℕ :=
  if m < 2^53 then m
  else
    let e := Nat.log2 m-52
    let q := m/2^e
    let r := m%2^e
    (if 2^e < 2*r ∨ (2*r=2^e ∧ q%2=1) then q+1 else q)*2^e

def toDouble (n : ℤ) : ℤ := if n < 0 then -(nearestDouble n.natAbs : ℤ) else nearestDouble n.natAbs

/-- `static_cast<qint64>` of a double that is a whole number; out of range the conversion gives the least
value. -/
def toQint64 (n : ℤ) : ℤ := if -2^63≤n ∧ n < 2^63 then n else -2^63

namespace Json

/-- `QJsonValue::isDouble`. -/
def isDouble : Json→Bool
  | .number _ => true
  | .fraction _ _ => true
  | _ => false

/-- `QJsonValue::toInt`. -/
def toInt (fallback : ℤ) : Json→ℤ
  | .number n => if -2^31≤n ∧ n < 2^31 then n else fallback
  | _ => fallback

/-- `static_cast<qint64>` of `QJsonValue::toDouble`; a double with a fraction is less than 2^53. -/
def toDoubleQint64 : Json→ℤ
  | .number n => toQint64 (toDouble n)
  | .fraction num den => toQint64 (toDouble (num.tdiv den))
  | _ => 0

/-- `QJsonValue::toString`. -/
def toText : Json→Text
  | .string s => s
  | _ => []

def toBool : Json→Bool
  | .bool b => b
  | _ => false

def toArray : Json→List Json
  | .array xs => xs
  | _ => []

def isObject : Json→Bool
  | .object _ => true
  | _ => false

def isString : Json→Bool
  | .string _ => true
  | _ => false

/-- `QJsonValue::toObject`. -/
def toObject : Json→List (String×Json)
  | .object fields => fields
  | _ => []

/-- `QJsonObject::contains` and `value`. -/
def find? (fields : List (String×Json)) (key : String) : Option Json := fields.lookup key

/-- `QJsonObject::value`: undefined reads as null. -/
def value (fields : List (String×Json)) (key : String) : Json := (find? fields key).getD .null

/-- `QJsonObject::insert`. -/
def insert (key : String) (v : Json) : List (String×Json)→List (String×Json)
  | [] => [(key,v)]
  | (k,w)::rest => if k=key then (key,v)::rest else (k,w)::insert key v rest

variable {fields : List (String×Json)} {key other : String} {v : Json}

@[simp] theorem find?_insert_self : find? (insert key v fields) key=some v := by
  induction fields with
  | nil => simp [insert,find?]
  | cons f fields ih =>
    rw [insert]
    split
    · simp [find?]
    · rename_i hne
      have hne' : ¬(key==f.1)=true := by simpa using Ne.symm hne
      simpa [find?,List.lookup,hne'] using ih

theorem find?_insert_of_ne (h : other≠key) : find? (insert key v fields) other=find? fields other := by
  have hne : (other==key)=false := by simpa using h
  induction fields with
  | nil => simp [insert,find?,List.lookup,hne]
  | cons f fields ih =>
    rw [insert]
    split
    · rename_i heq
      have hne' : (other==f.1)=false := heq ▸ hne
      simp [find?,List.lookup,hne,hne']
    · simp only [find?,List.lookup] at ih ⊢
      split
      · rfl
      · exact ih

end Json

theorem nearestDouble_small {m : ℕ} (h : m < 2^53) : nearestDouble m=m := if_pos h

/-- What has at most 53 significant bits is its own nearest double. -/
theorem nearestDouble_exact {q e : ℕ} (h : q≤2^53) : nearestDouble (q*2^e)=q*2^e := by
  by_cases hm : q*2^e < 2^53
  · exact nearestDouble_small hm
  · have hne : q*2^e≠0 := by omega
    have hdvd : 2^(Nat.log2 (q*2^e)-52)∣q*2^e := by
      rcases h.lt_or_eq with hlt | heq
      · have hlog : Nat.log2 (q*2^e) < 53+e := by
          rw [Nat.log2_lt hne,pow_add]
          exact Nat.mul_lt_mul_of_pos_right hlt (by positivity)
        exact (Nat.pow_dvd_pow 2 (by omega)).trans (Nat.dvd_mul_left _ _)
      · rw [heq,← pow_add,Nat.log2_two_pow]
        exact Nat.pow_dvd_pow 2 (by omega)
    have hrest : q*2^e%2^(Nat.log2 (q*2^e)-52)=0 := Nat.mod_eq_zero_of_dvd hdvd
    have hpos : 0 < 2^(Nat.log2 (q*2^e)-52) := by positivity
    rw [nearestDouble,if_neg hm]
    simp only [hrest]
    rw [if_neg (by omega),Nat.div_mul_cancel hdvd]

/-- The nearest double has at most 53 significant bits. -/
theorem nearestDouble_bits (m : ℕ) : ∃q e,q≤2^53 ∧ nearestDouble m=q*2^e := by
  by_cases h : m < 2^53
  · exact ⟨m,0,h.le,by simp [nearestDouble_small h]⟩
  · have hne : m≠0 := by omega
    have hlog : 53≤Nat.log2 m := (Nat.le_log2 hne).mpr (by omega)
    have hq : m/2^(Nat.log2 m-52) < 2^53 := by
      rw [Nat.div_lt_iff_lt_mul (by positivity),← pow_add]
      have hexp : 53+(Nat.log2 m-52)=Nat.log2 m+1 := by omega
      rw [hexp]
      exact Nat.lt_log2_self
    refine ⟨_,Nat.log2 m-52,?_,by rw [nearestDouble,if_neg h]⟩
    split <;> omega

theorem nearestDouble_idem (m : ℕ) : nearestDouble (nearestDouble m)=nearestDouble m := by
  obtain ⟨q,e,hq,he⟩ := nearestDouble_bits m
  rw [he,nearestDouble_exact hq]

theorem toDouble_idem (n : ℤ) : toDouble (toDouble n)=toDouble n := by
  by_cases h : n < 0
  · rw [toDouble,toDouble,if_pos h]
    split
    · rw [Int.natAbs_neg,Int.natAbs_natCast,nearestDouble_idem]
    · have hzero : nearestDouble n.natAbs=0 := by omega
      rw [hzero]
      decide
  · have hpos : ¬((nearestDouble n.natAbs : ℤ) < 0) := by omega
    rw [toDouble,toDouble,if_neg h,if_neg hpos,Int.natAbs_natCast,nearestDouble_idem]

/-- A double taken for a whole number is written as it was. -/
theorem toQint64_idem (n : ℤ) : toQint64 (toDouble (toQint64 (toDouble n)))=toQint64 (toDouble n) := by
  by_cases h : -2^63≤toDouble n ∧ toDouble n < 2^63
  · have hq : toQint64 (toDouble n)=toDouble n := if_pos h
    rw [hq,toDouble_idem,hq]
  · have hq : toQint64 (toDouble n)=-2^63 := if_neg h
    have hleast : toDouble (-2^63)=-2^63 := by
      have hexact := nearestDouble_exact (q:=1) (e:=63) (by norm_num)
      have habs : (-2^63 : ℤ).natAbs=1*2^63 := by norm_num
      rw [toDouble,if_pos (by norm_num),habs,hexact]
      norm_num
    rw [hq,hleast]
    exact if_pos (by norm_num)

end Loftail
