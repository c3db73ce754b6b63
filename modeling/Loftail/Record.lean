import Mathlib.Algebra.Group.Int.Defs
import Mathlib.Algebra.GroupWithZero.Nat
import Mathlib.Data.List.Nodup

/-! # One indexed record, and the interned names its ids stand for -/
namespace Loftail

abbrev Byte := UInt8
abbrev Bytes := List Byte

/-- A `QString`: UTF-16 code units. -/
abbrev Text := List UInt16

instance : LawfulBEq Text := inferInstance

/-- `QLatin1StringView` of a literal. -/
def latin1 (s : String) : Text := s.toList.map (fun c => c.toNat.toUInt16)

/-- A literal is the list of its characters: rewriting with this spares decoding it. -/
theorem latin1_ofList (cs : List Char) : latin1 (String.ofList cs)=cs.map (fun c => c.toNat.toUInt16) := by
  rw [latin1,String.toList_ofList]

/-- The bytes of an ASCII literal. -/
def ascii (s : String) : Bytes := s.toList.map (fun c => c.toNat.toUInt8)

/-- `QVector::resize`: elements that exist survive. -/
def resized {α : Type} (blank : α) (xs : List α) (n : ℕ) : List α := xs.take n++List.replicate (n-xs.length) blank

section Resized
variable {α : Type} {blank : α} {xs : List α} {n i : ℕ}

@[simp] theorem length_resized : (resized blank xs n).length=n := by
  simp [resized]
  omega

theorem resized_cases {m : α} (h : (resized blank xs n)[i]?=some m) : xs[i]?=some m ∨ m=blank := by
  unfold resized at h
  by_cases hi : i<(xs.take n).length
  · rw [List.getElem?_append_left hi,List.getElem?_take] at h
    split at h
    · exact Or.inl h
    · cases h
  · rw [List.getElem?_append_right (by omega),List.getElem?_replicate] at h
    split at h
    · exact Or.inr (Option.some.inj h).symm
    · cases h

theorem resized_getD (h : i<n) : (resized blank xs n)[i]?=some ((resized blank xs n).getD i blank) := by
  rw [List.getD_eq_getElem?_getD,List.getElem?_eq_getElem (by simpa using h),Option.getD_some]

end Resized

/-- `QChar::isSpace`. -/
def isSpace (c : UInt16) : Bool :=
  c=0x20 || (0x09≤c && c≤0x0D) || c=0x85 || c=0xA0 || c=0x1680 || (0x2000≤c && c≤0x200A) ||
    c=0x2028 || c=0x2029 || c=0x202F || c=0x205F || c=0x3000

/-- `QStringView::trimmed`. -/
def trimmed (s : Text) : Text := ((s.dropWhile isSpace).reverse.dropWhile isSpace).reverse

/-- log4cplus severities, in severity order. -/
inductive Priority | unknown | trace | debug | info | warn | error | fatal
  deriving DecidableEq,Inhabited,Repr

namespace Priority

def toNat : Priority→ℕ
  | unknown => 0 | trace => 1 | debug => 2 | info => 3 | warn => 4 | error => 5 | fatal => 6

end Priority

def parsePriority (token : Text) : Priority :=
  let token := trimmed token
  if token=latin1 "INFO" then .info
  else if token=latin1 "WARN" then .warn
  else if token=latin1 "TRACE" then .trace
  else if token=latin1 "DEBUG" then .debug
  else if token=latin1 "ERROR" then .error
  else if token=latin1 "FATAL" then .fatal
  else .unknown

example : parsePriority (latin1 " WARN ")=.warn := by decide

/-- `Record::kNoTimestamp`, the smallest `qint64`. -/
def kNoTimestamp : ℤ := -(2^63)

/-- `Record::kMaxLineCount`. -/
def kMaxLineCount : ℕ := 65535

/-- `std::numeric_limits<quint32>::max()`, where a record's byte span is clamped. -/
def kMaxLength : ℕ := 2^32-1

structure Record where
  offset : ℕ
  timestamp : ℤ
  length : ℕ
  loggerId : ℕ
  threadId : ℕ
  lineCount : ℕ
  priority : Priority
  deriving DecidableEq,Inhabited,Repr

/-- Strings to dense ids in first-seen order. Id 0 is the empty string. -/
structure InternTable where
  names : List Text
  zero : names.head?=some []
  nodup : names.Nodup

namespace InternTable

/-- The table a default construction holds. -/
def empty : InternTable := ⟨[[]],rfl,by simp⟩

def intern (t : InternTable) (s : Text) : ℕ×InternTable :=
  if h : s∈t.names then (t.names.idxOf s,t) else
    (t.names.length,⟨t.names++[s],by
      have hz := t.zero
      cases hn : t.names with
      | nil => simp [hn] at hz
      | cons a as => simpa [hn] using hz,
      List.nodup_append.mpr ⟨t.nodup,by simp,by
        intro a ha b hb hab
        exact h (List.mem_singleton.mp hb ▸ hab ▸ ha)⟩⟩)

def name (t : InternTable) (id : ℕ) : Text := t.names.getD id []

/-- The id of a name the table holds. -/
def idOf (t : InternTable) (s : Text) : Option ℕ := if s∈t.names then some (t.names.idxOf s) else none

/-- One table continues another: ids given out keep their names. -/
def Extends (t u : InternTable) : Prop := t.names<+:u.names

theorem Extends.refl (t : InternTable) : t.Extends t := List.prefix_rfl

theorem Extends.trans {t u v : InternTable} (h : t.Extends u) (h' : u.Extends v) : t.Extends v :=
  List.IsPrefix.trans h h'

@[ext] theorem ext {t u : InternTable} (h : t.names=u.names) : t=u := by
  cases t; cases u; simp_all

private theorem names_ne_nil (t : InternTable) : t.names≠[] := by
  intro h
  have hz := t.zero
  simp [h] at hz

theorem intern_names (t : InternTable) (s : Text) :
    (t.intern s).2.names=if s∈t.names then t.names else t.names++[s] := by
  unfold intern
  split <;> simp_all

theorem intern_extends (t : InternTable) (s : Text) : t.Extends (t.intern s).2 := by
  rw [Extends,intern_names]
  split
  · exact List.prefix_rfl
  · exact List.prefix_append _ _

theorem intern_lt (t : InternTable) (s : Text) : (t.intern s).1<(t.intern s).2.names.length := by
  unfold intern
  split
  · exact List.idxOf_lt_length_of_mem ‹_›
  · simp

@[simp] theorem name_intern (t : InternTable) (s : Text) : (t.intern s).2.name (t.intern s).1=s := by
  unfold intern name
  split
  · rename_i h
    simp [List.getD_eq_getElem?_getD,List.getElem?_eq_getElem (List.idxOf_lt_length_of_mem h)]
  · simp [List.getD_eq_getElem?_getD]

@[simp] theorem name_zero (t : InternTable) : t.name 0=[] := by
  have hz := t.zero
  cases hn : t.names with
  | nil => simp [hn] at hz
  | cons a as =>
    have ha : a=[] := by simpa [hn] using hz
    simp [name,hn,ha]

theorem Extends.name {t u : InternTable} (h : t.Extends u) {id : ℕ} (hid : id<t.names.length) :
    u.name id=t.name id := by
  obtain ⟨r,hr⟩ := h
  simp [InternTable.name,← hr,List.getD_eq_getElem?_getD,List.getElem?_append_left hid]

theorem Extends.length_le {t u : InternTable} (h : t.Extends u) : t.names.length≤u.names.length :=
  List.IsPrefix.length_le h

theorem length_pos (t : InternTable) : 0<t.names.length := List.length_pos_of_ne_nil t.names_ne_nil

end InternTable

end Loftail
