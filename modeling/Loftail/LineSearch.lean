import Mathlib.Data.List.Basic
import Mathlib.Order.Basic

/-! # Searching a sequence for a pattern, and for a line

Lines are what a separator closes; what follows the last separator is no line yet. -/
namespace Loftail.LineSearch

variable {α : Type*} [DecidableEq α]

/-- Where a pattern first occurs. -/
def firstAt (pat : List α) : List α→Option ℕ
  | [] => if pat=[] then some 0 else none
  | x::xs => if pat.isPrefixOf (x::xs) then some 0 else (firstAt pat xs).map (·+1)

/-- Where a pattern first occurs from a position on. -/
def indexOf (pat xs : List α) (start : ℕ) : Option ℕ := (firstAt pat (xs.drop start)).map (start+·)

def mid (xs : List α) (start len : ℕ) : List α := (xs.drop start).take len

variable {pat xs pre rest line : List α} {sep : α}

/-- A pattern that begins nowhere earlier is found. -/
theorem firstAt_append (h : ∀i < pre.length,¬pat<+:(pre++(pat++rest)).drop i) :
    firstAt pat (pre++(pat++rest))=some pre.length := by
  induction pre with
  | nil =>
    rw [List.nil_append]
    cases hx : pat++rest with
    | nil =>
      obtain ⟨rfl,-⟩ := List.append_eq_nil_iff.mp hx
      rfl
    | cons x xs =>
      rw [firstAt,← hx,if_pos (List.isPrefixOf_iff_prefix.mpr (List.prefix_append pat rest))]
      rfl
  | cons x pre ih =>
    have hfirst := h 0 (Nat.succ_pos _)
    have htail : ∀i < pre.length,¬pat<+:(pre++(pat++rest)).drop i := by
      intro i hi
      exact h (i+1) (Nat.succ_lt_succ hi)
    have hnot : ¬pat.isPrefixOf (x::(pre++(pat++rest)))=true := fun hp => hfirst (List.isPrefixOf_iff_prefix.mp hp)
    rw [List.cons_append,firstAt,if_neg hnot,ih htail]
    rfl

theorem indexOf_append {start : List α} (h : ∀i < pre.length,¬pat<+:(pre++(pat++rest)).drop i) :
    indexOf pat (start++(pre++(pat++rest))) start.length=some (start.length+pre.length) := by
  rw [indexOf,List.drop_left,firstAt_append h]
  rfl

theorem firstAt_some {i : ℕ} (h : firstAt pat xs=some i) : pat<+:xs.drop i := by
  induction xs generalizing i with
  | nil =>
    unfold firstAt at h
    split at h
    · rename_i hpat
      rw [hpat]
      exact List.nil_prefix
    · cases h
  | cons x xs ih =>
    unfold firstAt at h
    split at h
    · rename_i hpat
      cases h
      exact List.isPrefixOf_iff_prefix.mp hpat
    · obtain ⟨j,hj,rfl⟩ := Option.map_eq_some_iff.mp h
      exact ih hj

/-- The first occurrence is no later than any. -/
theorem firstAt_of_prefix {j : ℕ} (h : pat<+:xs.drop j) : ∃i≤j,firstAt pat xs=some i := by
  induction xs generalizing j with
  | nil =>
    rw [List.drop_nil] at h
    exact ⟨0,Nat.zero_le _,if_pos (List.prefix_nil.mp h)⟩
  | cons x xs ih =>
    unfold firstAt
    split
    · exact ⟨0,Nat.zero_le _,rfl⟩
    · rename_i hpat
      cases j with
      | zero => exact absurd (List.isPrefixOf_iff_prefix.mpr h) hpat
      | succ j =>
        obtain ⟨i,hi,hfirst⟩ := ih h
        exact ⟨i+1,Nat.succ_le_succ hi,by rw [hfirst,Option.map_some]⟩

/-- An occurrence stays the first when more comes. -/
theorem firstAt_extend {i : ℕ} (more : List α) (h : firstAt pat xs=some i) : firstAt pat (xs++more)=some i := by
  have hpre : pat<+:(xs++more).drop i := by
    by_cases hi : i≤xs.length
    · rw [List.drop_append_of_le_length hi]
      exact (firstAt_some h).trans (List.prefix_append ..)
    · have hnil := firstAt_some h
      rw [List.drop_eq_nil_of_le (by omega),List.prefix_nil] at hnil
      rw [hnil]
      exact List.nil_prefix
  obtain ⟨j,hj,hfirst⟩ := firstAt_of_prefix hpre
  have hfits : i+pat.length≤xs.length ∨ pat=[] := by
    have hlen := (firstAt_some h).length_le
    rw [List.length_drop] at hlen
    by_cases hpat : pat=[]
    · exact Or.inr hpat
    · have hpos := List.length_pos_iff.mpr hpat
      left
      omega
  have hback : pat<+:xs.drop j := by
    rcases hfits with hfits | rfl
    · have hat := firstAt_some hfirst
      rw [List.drop_append_of_le_length (by omega)] at hat
      apply List.prefix_of_prefix_length_le hat (List.prefix_append ..)
      rw [List.length_drop]
      omega
    · exact List.nil_prefix
  obtain ⟨k,hk,hfirst'⟩ := firstAt_of_prefix hback
  rw [h] at hfirst'
  cases hfirst'
  rw [hfirst,Nat.le_antisymm hj hk]

private theorem indexOf_extend {start stop : ℕ} (more : List α) (hs : start≤xs.length)
    (h : indexOf pat xs start=some stop) :
    indexOf pat (xs++more) start=some stop := by
  obtain ⟨i,hi,rfl⟩ := Option.map_eq_some_iff.mp h
  rw [indexOf,List.drop_append_of_le_length hs,firstAt_extend more hi]
  rfl

/-- A separator is found past what has none. -/
theorem indexOf_sep {start : List α} (h : sep∉line) :
    indexOf [sep] (start++(line++sep::rest)) start.length=some (start.length+line.length) := by
  have hfirst : ∀i < line.length,¬[sep]<+:(line++([sep]++rest)).drop i := by
    intro i hi hp
    rw [List.drop_append_of_le_length (Nat.le_of_lt hi),List.drop_eq_getElem_cons hi,List.cons_append,
      List.cons_prefix_cons] at hp
    exact h (hp.1 ▸ List.getElem_mem hi)
  exact indexOf_append hfirst

/-- The first line from `pos` on that meets `p`: where it starts, and where the next starts. -/
def lineWhere (sep : α) (p : List α→Bool) (xs : List α) : ℕ→ℕ→Option (ℕ×ℕ)
  | 0,_ => none
  | n+1,pos =>
    if pos < xs.length then
      match indexOf [sep] xs pos with
      | none => none
      | some stop => if p (mid xs pos (stop-pos)) then some (pos,stop+1) else lineWhere sep p xs n (stop+1)
    else none

section LineWhere
variable {p : List α→Bool} {n : ℕ}

omit [DecidableEq α] in
theorem mid_append {start : List α} : mid (start++(line++rest)) start.length line.length=line := by
  rw [mid,List.drop_left,List.take_left]

/-- A line that meets `p` is found where it starts. -/
theorem lineWhere_here (start rest : List α) (hsep : sep∉line) (hp : p line=true) :
    lineWhere sep p (start++(line++sep::rest)) (n+1) start.length=
      some (start.length,start.length+line.length+1) := by
  have hlt : start.length < (start++(line++sep::rest)).length := by
    simp only [List.length_append,List.length_cons]
    omega
  simp only [lineWhere,if_pos hlt,indexOf_sep hsep,Nat.add_sub_cancel_left,mid_append,if_pos hp]

theorem lineWhere_next {start : List α} (hsep : sep∉line) (hp : p line=false) :
    lineWhere sep p (start++(line++sep::rest)) (n+1) start.length=
      lineWhere sep p (start++(line++sep::rest)) n (start.length+line.length+1) := by
  have hlt : start.length < (start++(line++sep::rest)).length := by
    simp only [List.length_append,List.length_cons]
    omega
  simp only [lineWhere,if_pos hlt,indexOf_sep hsep,Nat.add_sub_cancel_left,mid_append,hp,Bool.false_eq_true,
    if_false]

/-- A text is its first line and the rest, or has no separator. -/
theorem line_induction {P : List α→Prop} (sep : α) (hlast : ∀line,sep∉line→P line)
    (hline : ∀line text,sep∉line→P text→P (line++sep::text)) (text : List α) : P text := by
  induction hn : text.length using Nat.strongRecOn generalizing text with
  | ind n ih =>
    by_cases hsep : sep∈text
    · obtain ⟨line,rest,rfl,hnot⟩ := List.eq_append_cons_of_mem hsep
      apply hline line rest hnot
      apply ih rest.length ?_ rest rfl
      rw [← hn]
      simp only [List.length_append,List.length_cons]
      omega
    · exact hlast text hsep

omit [DecidableEq α] in
/-- What has no separator and begins a text begins its first line. -/
theorem prefix_line {head : List α} (hsep : sep∉head) (h : head<+:line++sep::rest) : head<+:line := by
  by_cases hle : head.length≤line.length
  · exact List.prefix_of_prefix_length_le h (List.prefix_append ..) hle
  · have hline : line++[sep]<+:line++sep::rest := ⟨rest,by simp⟩
    have hin : line++[sep]<+:head := by
      apply List.prefix_of_prefix_length_le hline h
      simp only [List.length_append,List.length_singleton]
      omega
    exact absurd (hin.subset (List.mem_append_right line (List.mem_singleton_self sep))) hsep

private theorem prefix_some_line {head text : List α} (hsep : sep∉head) (h : head<+:text++sep::rest) :
    ∃l∈text.splitOn sep,head<+:l := by
  induction text using line_induction sep with
  | hlast last hlast =>
    rw [List.splitOn_eq_singleton hlast]
    exact ⟨last,List.mem_singleton_self last,prefix_line hsep h⟩
  | hline first text hfirst _ =>
    rw [List.splitOn_append_cons_self_of_not_mem hfirst]
    rw [List.append_assoc,List.cons_append] at h
    exact ⟨first,List.mem_cons_self ..,prefix_line hsep h⟩

/-- A separator and a head that no line of a text starts with do not occur in the text. -/
theorem not_prefix_drop {head text : List α} (hhead : sep∉head) (hskip : ∀l∈text.splitOn sep,¬head<+:l) (i : ℕ)
    (hi : i < text.length) : ¬(sep::head)<+:(text++sep::rest).drop i := by
  intro h
  have hat : (text++sep::rest)[i]?=some sep := by
    obtain ⟨t,ht⟩ := h
    have hz : ((text++sep::rest).drop i)[0]?=some sep := by rw [← ht]; rfl
    simpa using hz
  rw [List.getElem?_append_left hi] at hat
  induction text using line_induction sep generalizing i with
  | hlast last hlast => exact hlast (List.mem_of_getElem? hat)
  | hline first text hfirst ih =>
    rw [List.splitOn_append_cons_self_of_not_mem hfirst] at hskip
    rcases Nat.lt_trichotomy i first.length with hlt | heq | hgt
    · rw [List.getElem?_append_left hlt] at hat
      exact hfirst (List.mem_of_getElem? hat)
    · subst heq
      rw [List.append_assoc,List.drop_left,List.cons_append,List.cons_prefix_cons] at h
      obtain ⟨l,hl,hp⟩ := prefix_some_line hhead h.2
      exact hskip l (List.mem_cons_of_mem _ hl) hp
    · obtain ⟨j,rfl⟩ : ∃j,i=first.length+1+j := ⟨i-(first.length+1),by omega⟩
      have hdrop : (first++sep::text++sep::rest).drop (first.length+1+j)=(text++sep::rest).drop j := by
        have hshape : first++sep::text++sep::rest=(first++[sep])++(text++sep::rest) := by simp
        have hlen : first.length+1=(first++[sep]).length := by simp
        rw [hshape,hlen,List.drop_append]
        simp
      have hat' : text[j]?=some sep := by
        rw [List.getElem?_append_right (by omega)] at hat
        have hj : first.length+1+j-first.length=j+1 := by omega
        rw [hj,List.getElem?_cons_succ] at hat
        exact hat
      apply ih (fun l hl => hskip l (List.mem_cons_of_mem _ hl)) j ?_ (hdrop ▸ h) hat'
      exact (List.getElem?_eq_some_iff.mp hat').1

omit [DecidableEq α] in
/-- Past a line, what a separator begins is in the rest. -/
theorem infix_of_prefix_drop {head : List α} (hsep : sep∉line) {i : ℕ} (h : sep::head<+:(line++sep::rest).drop i) :
    head<:+:rest := by
  have hat : (line++sep::rest)[i]?=some sep := by
    obtain ⟨t,ht⟩ := h
    have hz : ((line++sep::rest).drop i)[0]?=some sep := by rw [← ht]; rfl
    simpa using hz
  by_cases hi : i < line.length
  · rw [List.getElem?_append_left hi] at hat
    exact absurd (List.mem_of_getElem? hat) hsep
  · obtain ⟨j,rfl⟩ : ∃j,i=line.length+j := ⟨i-line.length,by omega⟩
    rw [List.drop_length_add_append] at h
    have htail : (sep::head)<:+:sep::rest := h.isInfix.trans (List.drop_suffix j (sep::rest)).isInfix
    rcases List.infix_cons_iff.mp htail with hp | hin
    · exact (List.cons_prefix_cons.mp hp).2.isInfix
    · exact (List.suffix_cons sep head).isInfix.trans hin

/-- Lines that do not meet `p` are passed, and the one after them is found. -/
theorem lineWhere_past {skipped : List α} (hskip : ∀l∈skipped.splitOn sep,p l=false) (hsep : sep∉line)
    (hp : p line=true) {start : List α} (hn : skipped.length+1 < n) :
    lineWhere sep p (start++(skipped++sep::(line++sep::rest))) n start.length=
      some (start.length+skipped.length+1,start.length+skipped.length+1+line.length+1) := by
  induction skipped using line_induction sep generalizing start n with
  | hlast last hlast =>
    obtain ⟨m,rfl⟩ : ∃m,n=m+2 := ⟨n-2,by omega⟩
    have hl : p last=false := hskip last (by rw [List.splitOn_eq_singleton hlast]; simp)
    rw [lineWhere_next hlast hl]
    have hshape : start++(last++sep::(line++sep::rest))=(start++(last++[sep]))++(line++sep::rest) := by simp
    have hlen : start.length+last.length+1=(start++(last++[sep])).length := by simp [Nat.add_assoc]
    rw [hshape,hlen,lineWhere_here _ rest hsep hp]
  | hline first text hfirst ih =>
    rw [List.splitOn_append_cons_self_of_not_mem hfirst] at hskip
    have hl : p first=false := hskip first (List.mem_cons_self ..)
    obtain ⟨m,rfl⟩ : ∃m,n=m+1 := ⟨n-1,by omega⟩
    have hshape : start++(first++sep::text++sep::(line++sep::rest))=
        (start++(first++[sep]))++(text++sep::(line++sep::rest)) := by simp
    have hbegin : start++(first++sep::text++sep::(line++sep::rest))=
        start++(first++sep::(text++sep::(line++sep::rest))) := by simp
    have hlen : start.length+first.length+1=(start++(first++[sep])).length := by simp [Nat.add_assoc]
    rw [hbegin,lineWhere_next hfirst hl,← hbegin,hshape,hlen]
    rw [ih (fun l hl => hskip l (List.mem_cons_of_mem _ hl)) (by
      simp only [List.length_append,List.length_cons] at hn
      omega)]
    simp only [List.length_append,List.length_cons,List.length_nil]
    congr 2 <;> omega

theorem indexOf_sep_lt {start stop : ℕ} (h : indexOf [sep] xs start=some stop) : start ≤ stop ∧
    stop < xs.length := by
  obtain ⟨i,hi,rfl⟩ := Option.map_eq_some_iff.mp h
  have hlen := (firstAt_some hi).length_le
  rw [List.drop_drop,List.length_drop,List.length_singleton] at hlen
  omega

theorem lineWhere_le {pos : ℕ} {r : ℕ×ℕ} (h : lineWhere sep p xs n pos=some r) : r.2≤xs.length := by
  induction n generalizing pos with
  | zero => cases h
  | succ n ih =>
    unfold lineWhere at h
    split at h
    · cases hstop : indexOf [sep] xs pos with
      | none =>
        rw [hstop] at h
        cases h
      | some stop =>
        rw [hstop] at h
        dsimp only at h
        split at h
        · cases h
          exact (indexOf_sep_lt hstop).2
        · exact ih h
    · cases h

/-- A line that is found is found when more comes. -/
theorem lineWhere_extend {pos m : ℕ} {r : ℕ×ℕ} (more : List α) (hm : n ≤ m) (h : lineWhere sep p xs n pos=some r) :
    lineWhere sep p (xs++more) m pos=some r := by
  induction n generalizing pos m with
  | zero => cases h
  | succ n ih =>
    obtain ⟨m,rfl⟩ : ∃k,m=k+1 := ⟨m-1,by omega⟩
    unfold lineWhere at h
    split at h
    · rename_i hpos
      cases hstop : indexOf [sep] xs pos with
      | none =>
        rw [hstop] at h
        cases h
      | some stop =>
        have hlt := indexOf_sep_lt hstop
        have hmid : mid (xs++more) pos (stop-pos)=mid xs pos (stop-pos) := by
          rw [mid,mid,List.drop_append_of_le_length (Nat.le_of_lt hpos),List.take_append_of_le_length]
          rw [List.length_drop]
          omega
        have hlen : pos < (xs++more).length := by
          rw [List.length_append]
          omega
        rw [hstop] at h
        dsimp only at h
        rw [lineWhere,if_pos hlen,indexOf_extend more (Nat.le_of_lt hpos) hstop]
        dsimp only
        rw [hmid]
        split at h
        · rename_i hline
          rwa [if_pos hline]
        · rename_i hline
          rw [if_neg hline]
          exact ih (by omega) h
    · cases h

/-- Where a line meets `p`, that line or an earlier one is found. -/
theorem lineWhere_isSome {skipped : List α} (hsep : sep∉line) (hp : p line=true) {start : List α}
    (hn : skipped.length+1 < n) :
    (lineWhere sep p (start++(skipped++sep::(line++sep::rest))) n start.length).isSome=true := by
  induction skipped using line_induction sep generalizing start n with
  | hlast last hlast =>
    obtain ⟨m,rfl⟩ : ∃m,n=m+2 := ⟨n-2,by omega⟩
    cases hl : p last with
    | true =>
      rw [lineWhere_here start (line++sep::rest) hlast hl]
      rfl
    | false =>
      rw [lineWhere_next hlast hl]
      have hshape : start++(last++sep::(line++sep::rest))=(start++(last++[sep]))++(line++sep::rest) := by simp
      have hlen : start.length+last.length+1=(start++(last++[sep])).length := by simp [Nat.add_assoc]
      rw [hshape,hlen,lineWhere_here _ rest hsep hp]
      rfl
  | hline first text hfirst ih =>
    obtain ⟨m,rfl⟩ : ∃m,n=m+1 := ⟨n-1,by omega⟩
    have hbegin : start++(first++sep::text++sep::(line++sep::rest))=
        start++(first++sep::(text++sep::(line++sep::rest))) := by simp
    rw [hbegin]
    cases hl : p first with
    | true =>
      rw [lineWhere_here start _ hfirst hl]
      rfl
    | false =>
      have hshape : start++(first++sep::(text++sep::(line++sep::rest)))=
          (start++(first++[sep]))++(text++sep::(line++sep::rest)) := by simp
      have hlen : start.length+first.length+1=(start++(first++[sep])).length := by simp [Nat.add_assoc]
      rw [lineWhere_next hfirst hl,hshape,hlen]
      apply ih
      simp only [List.length_append,List.length_cons] at hn
      omega

end LineWhere

/-! ### Behind a head -/

section Behind
variable {head : List α} {p : List α→Bool} {n m pos : ℕ}

/-- What begins nowhere in the head is found behind it. -/
theorem firstAt_past (h : ∀i < head.length,¬pat<+:(head++xs).drop i) :
    firstAt pat (head++xs)=(firstAt pat xs).map (head.length+·) := by
  induction head with
  | nil => simp
  | cons x head ih =>
    have hfirst : ¬pat.isPrefixOf (x::(head++xs))=true :=
      fun hp => h 0 (Nat.succ_pos _) (List.isPrefixOf_iff_prefix.mp hp)
    have hrest : ∀i < head.length,¬pat<+:(head++xs).drop i := fun i hi => h (i+1) (Nat.succ_lt_succ hi)
    rw [List.cons_append,firstAt,if_neg hfirst,ih hrest,Option.map_map]
    congr 1
    funext i
    simp only [Function.comp_apply,List.length_cons]
    omega

theorem indexOf_shift (start : ℕ) :
    indexOf pat (head++xs) (head.length+start)=(indexOf pat xs start).map (head.length+·) := by
  rw [indexOf,indexOf,List.drop_length_add_append,Option.map_map]
  congr 1
  funext i
  exact Nat.add_assoc ..

omit [DecidableEq α] in
theorem mid_shift (start len : ℕ) : mid (head++xs) (head.length+start) len=mid xs start len := by
  rw [mid,mid,List.drop_length_add_append]

theorem lineWhere_shift :
    lineWhere sep p (head++xs) n (head.length+pos)=
      (lineWhere sep p xs n pos).map fun r => (head.length+r.1,head.length+r.2) := by
  induction n generalizing pos with
  | zero => rfl
  | succ n ih =>
    unfold lineWhere
    rw [List.length_append,indexOf_shift]
    simp only [Nat.add_lt_add_iff_left]
    split
    · cases hstop : indexOf [sep] xs pos with
      | none => rfl
      | some stop =>
        have hlen : head.length+stop-(head.length+pos)=stop-pos := by omega
        simp only [Option.map_some,hlen,mid_shift]
        split
        · rfl
        · rw [Nat.add_assoc]
          exact ih
    · rfl

/-- Enough fuel is as good as more. -/
theorem lineWhere_fuel (hn : xs.length < pos+n) (hm : xs.length < pos+m) :
    lineWhere sep p xs n pos=lineWhere sep p xs m pos := by
  induction n generalizing pos m with
  | zero =>
    cases m with
    | zero => rfl
    | succ m => rw [lineWhere,lineWhere,if_neg (by omega)]
  | succ n ih =>
    cases m with
    | zero => rw [lineWhere,lineWhere,if_neg (by omega)]
    | succ m =>
      unfold lineWhere
      split
      · cases hstop : indexOf [sep] xs pos with
        | none => rfl
        | some stop =>
          have hlt := indexOf_sep_lt hstop
          dsimp only
          split
          · rfl
          · exact ih (by omega) (by omega)
      · rfl

/-- A text without a separator has no line yet. -/
theorem lineWhere_unended (h : sep∉xs) : lineWhere sep p xs n pos=none := by
  cases n with
  | zero => rfl
  | succ n =>
    unfold lineWhere
    split
    · cases hstop : indexOf [sep] xs pos with
      | none => rfl
      | some stop =>
        obtain ⟨i,hi,-⟩ := Option.map_eq_some_iff.mp hstop
        have hmem : sep∈(xs.drop pos).drop i := (firstAt_some hi).subset (List.mem_singleton_self sep)
        exact absurd (List.mem_of_mem_drop (List.mem_of_mem_drop hmem)) h
    · rfl

theorem lineWhere_lt {r : ℕ×ℕ} (h : lineWhere sep p xs n pos=some r) : pos < r.2 := by
  induction n generalizing pos with
  | zero => cases h
  | succ n ih =>
    unfold lineWhere at h
    split at h
    · cases hstop : indexOf [sep] xs pos with
      | none =>
        rw [hstop] at h
        cases h
      | some stop =>
        have hlt := indexOf_sep_lt hstop
        rw [hstop] at h
        dsimp only at h
        split at h
        · cases h
          exact Nat.lt_succ_of_le hlt.1
        · have hrest := ih h
          omega
    · cases h

theorem lineWhere_first {line : List α} (h : sep∉line) (rest : List α) (hp : p line=true) :
    lineWhere sep p (line++sep::rest) (n+1) 0=some (0,line.length+1) := by
  have hhere := lineWhere_here (n:=n) (p:=p) [] rest h hp
  rwa [List.nil_append,List.length_nil,Nat.zero_add] at hhere

theorem lineWhere_second {line : List α} (h : sep∉line) (rest : List α) (hp : p line=false) :
    lineWhere sep p (line++sep::rest) (n+1) 0=
      (lineWhere sep p rest n 0).map fun r => (line.length+1+r.1,line.length+1+r.2) := by
  have hnext : lineWhere sep p ([]++(line++sep::rest)) (n+1) ([] : List α).length=
      lineWhere sep p ([]++(line++sep::rest)) n (([] : List α).length+line.length+1) := lineWhere_next h hp
  have hshift : lineWhere sep p ((line++[sep])++rest) n ((line++[sep]).length+0)=
      (lineWhere sep p rest n 0).map fun r => ((line++[sep]).length+r.1,(line++[sep]).length+r.2) := lineWhere_shift
  rw [List.nil_append,List.length_nil,Nat.zero_add] at hnext
  rw [List.append_assoc,List.length_append,List.length_singleton,Nat.add_zero] at hshift
  exact hnext.trans hshift

/-- A head that does not change whether the first line meets `p` moves what is found by its length. -/
theorem lineWhere_behind_part {head line : List α} (hhead : sep∉head) (hline : sep∉line) (rest : List α)
    (hsame : p (head++line)=p line) (hn : rest.length < n) (hm : rest.length < m) :
    (lineWhere sep p (head++(line++sep::rest)) (n+1) 0).map (·.2)=
      (lineWhere sep p (line++sep::rest) (m+1) 0).map fun r => head.length+r.2 := by
  have hboth : sep∉head++line := by simp [hhead,hline]
  rw [← List.append_assoc]
  cases hp : p line with
  | true =>
    rw [lineWhere_first hboth rest (hsame.trans hp),lineWhere_first hline rest hp,List.length_append]
    simp only [Option.map_some,Nat.add_assoc]
  | false =>
    rw [lineWhere_second hboth rest (hsame.trans hp),lineWhere_second hline rest hp,Option.map_map,Option.map_map,
      lineWhere_fuel (m:=m) (by omega) (by omega)]
    congr 1
    funext r
    simp only [Function.comp_apply,List.length_append]
    omega

end Behind

end Loftail.LineSearch
