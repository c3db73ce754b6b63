import Mathlib.Data.List.Basic
import Mathlib.Tactic.Linarith

/-! # Lines of a delimited sequence, and reading them through windows of any size

A line finder answers the length of the first line of a sequence, its terminator
included. The answer may depend on nothing past that terminator, which is all the
theory needs: the lines of a growing sequence, of a suffix at a line boundary and of
a sequence seen through windows are then the same lines. -/
namespace Loftail.DelimitedLines

variable {α σ : Type*}

/-- How the end of the first line of a sequence is found. -/
structure LineFinder (α : Type*) where
  find : List α→Option ℕ
  pos : ∀{xs k},find xs=some k→0<k
  le : ∀{xs k},find xs=some k→k≤xs.length
  take : ∀{xs k},find xs=some k→find (xs.take k)=some k
  append : ∀{xs k},find xs=some k→∀ys,find (xs++ys)=some k

/-- A line that ends in its own terminator and holds no other. -/
def LineFinder.Terminated (f : LineFinder α) (l : List α) : Prop := f.find l=some l.length

instance (f : LineFinder α) (l : List α) : Decidable (f.Terminated l) :=
  inferInstanceAs (Decidable (f.find l=some l.length))

private theorem LineFinder.find_take (f : LineFinder α) {xs : List α} {n k : ℕ}
    (h : f.find xs=some k) (hn : k≤n) : f.find (xs.take n)=some k := by
  have ht := f.append (f.take h) ((xs.take n).drop k)
  have he : (xs.take n).take k=xs.take k := by rw [List.take_take,Nat.min_eq_left hn]
  rwa [← he,List.take_append_drop] at ht

theorem LineFinder.terminated_take (f : LineFinder α) {xs : List α} {k : ℕ}
    (h : f.find xs=some k) : f.Terminated (xs.take k) := by
  have hl : (xs.take k).length=k := by simp [f.le h]
  simpa [LineFinder.Terminated,hl] using f.take h

/-- The lines of a sequence; the last one may lack its terminator. -/
def linesUpTo (f : LineFinder α) : ℕ→List α→List (List α)
  | 0,_ => []
  | n+1,xs => if xs=[] then [] else
      match f.find xs with
      | some k => xs.take k::linesUpTo f n (xs.drop k)
      | none => [xs]

def lines (f : LineFinder α) (xs : List α) : List (List α) := linesUpTo f xs.length xs

section Lines
variable (f : LineFinder α)

private theorem linesUpTo_stable (n m : ℕ) (xs : List α) (hn : xs.length≤n) (hm : xs.length ≤ m) :
    linesUpTo f n xs=linesUpTo f m xs := by
  induction n generalizing m xs with
  | zero =>
    have hx : xs=[] := List.eq_nil_of_length_eq_zero (by omega)
    subst hx
    cases m <;> simp [linesUpTo]
  | succ n ih =>
    cases m with
    | zero =>
      have hx : xs=[] := List.eq_nil_of_length_eq_zero (by omega)
      simp [hx,linesUpTo]
    | succ m =>
      simp only [linesUpTo]
      cases hf : f.find xs with
      | none => rfl
      | some k =>
        have hp := f.pos hf
        have hd : (xs.drop k).length≤n ∧ (xs.drop k).length ≤ m := by
          simp only [List.length_drop]
          omega
        simp only [ih m (xs.drop k) hd.1 hd.2]

@[simp] theorem lines_nil : lines f []=[] := rfl

theorem lines_of_find {xs : List α} {k : ℕ} (h : f.find xs=some k) :
    lines f xs=xs.take k::lines f (xs.drop k) := by
  have hp := f.pos h
  have hl := f.le h
  have hx : xs≠[] := by
    rintro rfl
    simp only [List.length_nil] at hl
    omega
  obtain ⟨n,hn⟩ : ∃n,xs.length=n+1 := ⟨xs.length-1,by omega⟩
  rw [lines,hn,linesUpTo,if_neg hx,h]
  simp only [lines]
  rw [linesUpTo_stable f n (xs.drop k).length (xs.drop k) (by simp only [List.length_drop]; omega) le_rfl]

theorem lines_of_unfound {xs : List α} (hx : xs≠[]) (h : f.find xs=none) : lines f xs=[xs] := by
  obtain ⟨n,hn⟩ : ∃n,xs.length=n+1 := ⟨xs.length-1,by
    have := List.length_pos_of_ne_nil hx
    omega⟩
  rw [lines,hn,linesUpTo,if_neg hx,h]

theorem lines_flatten (xs : List α) : (lines f xs).flatten=xs := by
  induction hn : xs.length using Nat.strong_induction_on generalizing xs with
  | _ n ih =>
    by_cases hx : xs=[]
    · simp [hx]
    · cases hf : f.find xs with
      | none => simp [lines_of_unfound f hx hf]
      | some k =>
        have hp := f.pos hf
        have hl := f.le hf
        have hd : (xs.drop k).length<n := by
          simp only [List.length_drop]
          omega
        rw [lines_of_find f hf,List.flatten_cons,ih _ hd _ rfl,List.take_append_drop]

theorem lines_ne_nil_of_mem {xs l : List α} (hl : l∈lines f xs) : l≠[] := by
  induction hn : xs.length using Nat.strong_induction_on generalizing xs with
  | _ n ih =>
    by_cases hx : xs=[]
    · simp [hx] at hl
    · cases hf : f.find xs with
      | none =>
        rw [lines_of_unfound f hx hf,List.mem_singleton] at hl
        exact hl ▸ hx
      | some k =>
        have hp := f.pos hf
        have hk := f.le hf
        rw [lines_of_find f hf,List.mem_cons] at hl
        rcases hl with rfl | hl
        · exact List.ne_nil_of_length_pos (by simp only [List.length_take]; omega)
        · exact ih (xs.drop k).length (by simp only [List.length_drop]; omega) hl rfl

theorem lines_eq_nil {xs : List α} : lines f xs=[] ↔ xs=[] := by
  constructor
  · intro h
    have hf := lines_flatten f xs
    simpa [h] using hf.symm
  · rintro rfl
    rfl

/-- Terminated lines stay what they are, whatever follows them. -/
theorem lines_append (ls : List (List α)) (ys : List α) (h : ∀l∈ls,f.Terminated l) :
    lines f (ls.flatten++ys)=ls++lines f ys := by
  induction ls with
  | nil => simp
  | cons l ls ih =>
    have hl : f.find ((l::ls).flatten++ys)=some l.length := by
      simpa [List.append_assoc] using f.append (h l (by simp)) (ls.flatten++ys)
    rw [lines_of_find f hl]
    simp only [List.flatten_cons,List.append_assoc,List.take_left',List.drop_left',List.cons_append]
    rw [ih (fun a ha => h a (by simp [ha]))]

/-- Every line but the last is terminated. -/
theorem lines_terminated {xs l : List α} {ls : List (List α)} (h : lines f xs=ls++[l]) :
    ∀a∈ls,f.Terminated a := by
  induction ls generalizing xs with
  | nil => simp
  | cons a ls ih =>
    have hx : xs≠[] := by
      rintro rfl
      simp at h
    cases hf : f.find xs with
    | none => simp [lines_of_unfound f hx hf] at h
    | some k =>
      rw [lines_of_find f hf,List.cons_append,List.cons.injEq] at h
      intro b hb
      rcases List.mem_cons.mp hb with rfl | hb
      · exact h.1 ▸ f.terminated_take hf
      · exact ih h.2 b hb

/-- Lines cut off at a line boundary are the remaining lines. -/
theorem lines_split {xs : List α} {as bs : List (List α)} (h : lines f xs=as++bs) :
    lines f (xs.drop as.flatten.length)=bs := by
  have hx : xs=as.flatten++bs.flatten := by
    have hf := lines_flatten f xs
    simpa [h] using hf.symm
  have hd : xs.drop as.flatten.length=bs.flatten := by rw [hx,List.drop_left' rfl]
  rw [hd]
  rcases List.eq_nil_or_concat' bs with rfl | ⟨bs,l,rfl⟩
  · rfl
  · have hterm : ∀a∈as,f.Terminated a := by
      rw [← List.append_assoc] at h
      exact fun a ha => lines_terminated f h a (by simp [ha])
    rw [hx,lines_append f as _ hterm] at h
    exact List.append_cancel_left h

/-- The last line is terminated, or shows no terminator at all. -/
theorem lines_last {xs l : List α} {ls : List (List α)} (h : lines f xs=ls++[l]) :
    f.Terminated l ∨ f.find l=none := by
  induction ls generalizing xs with
  | nil =>
    have hx : xs≠[] := by
      rintro rfl
      simp at h
    cases hf : f.find xs with
    | none =>
      have hl : xs=l := by simpa [lines_of_unfound f hx hf] using h
      exact Or.inr (hl ▸ hf)
    | some k =>
      rw [lines_of_find f hf,List.nil_append,List.cons.injEq] at h
      exact Or.inl (h.1 ▸ f.terminated_take hf)
  | cons a ls ih =>
    have hx : xs≠[] := by
      rintro rfl
      simp at h
    cases hf : f.find xs with
    | none => simp [lines_of_unfound f hx hf] at h
    | some k =>
      rw [lines_of_find f hf,List.cons_append,List.cons.injEq] at h
      exact ih h.2

/-- Growth reaches the last line only. -/
theorem lines_grow {xs l : List α} {ls : List (List α)} (h : lines f xs=ls++[l]) (ys : List α) :
    lines f (xs++ys)=ls++lines f (l++ys) := by
  have hx : xs=ls.flatten++l := by
    have hf := lines_flatten f xs
    simpa [h] using hf.symm
  rw [hx,List.append_assoc]
  exact lines_append f ls (l++ys) (lines_terminated f h)

/-- The first line of a grown last line extends it. -/
theorem lines_grow_head {l : List α} (hl : l≠[]) (h : f.Terminated l ∨ f.find l=none) (ys : List α) :
    ∃l' ls,lines f (l++ys)=l'::ls ∧ l<+:l' ∧ (f.Terminated l→l'=l) := by
  rcases h with h | h
  · refine ⟨l,lines f ys,?_,List.prefix_rfl,fun _ => rfl⟩
    simpa using lines_append f [l] ys (by simpa using h)
  · have hne : l++ys≠[] := by simp [hl]
    have hnot : ¬f.Terminated l := by simp [LineFinder.Terminated,h]
    cases hf : f.find (l++ys) with
    | none => exact ⟨l++ys,[],lines_of_unfound f hne hf,List.prefix_append _ _,fun ht => (hnot ht).elim⟩
    | some k =>
      have hk : l.length≤k := by
        by_contra hlt
        have hlt' : k≤l.length := by omega
        have ht := f.find_take hf hlt'
        rw [List.take_left' rfl] at ht
        exact absurd ht (by simp [h])
      refine ⟨(l++ys).take k,lines f ((l++ys).drop k),lines_of_find f hf,?_,fun ht => (hnot ht).elim⟩
      exact List.prefix_of_prefix_length_le (List.prefix_append _ _) (List.take_prefix _ _)
        (by simp only [List.length_take,List.length_append]; omega)

end Lines

/-- A left fold over lines that also tells each step where its line begins. -/
def foldLines (step : σ→ℕ→List α→σ) : ℕ→σ→List (List α)→σ
  | _,s,[] => s
  | pos,s,l::ls => foldLines step (pos+l.length) (step s pos l) ls

@[simp] theorem foldLines_nil (step : σ→ℕ→List α→σ) (pos : ℕ) (s : σ) :
    foldLines step pos s []=s := rfl

theorem foldLines_append (step : σ→ℕ→List α→σ) (pos : ℕ) (s : σ) (ls ms : List (List α)) :
    foldLines step pos s (ls++ms)=
      foldLines step (pos+ls.flatten.length) (foldLines step pos s ls) ms := by
  induction ls generalizing pos s with
  | nil => rfl
  | cons l ls ih =>
    simp only [List.cons_append,foldLines,ih,List.flatten_cons,List.length_append,Nat.add_assoc]

/-- What a fold keeps at every line it keeps over all of them. -/
theorem foldLines_induct {step : σ→ℕ→List α→σ} {P : ℕ→σ→List (List α)→Prop}
    (hstep : ∀pos s done l,P pos s done→P (pos+l.length) (step s pos l) (done++[l]))
    {pos : ℕ} {s : σ} {done : List (List α)} (h : P pos s done) (ls : List (List α)) :
    P (pos+ls.flatten.length) (foldLines step pos s ls) (done++ls) := by
  induction ls generalizing pos s done with
  | nil => simpa using h
  | cons l ls ih =>
    have hs := ih (hstep pos s done l h)
    simpa [foldLines,Nat.add_assoc] using hs

section Windows
variable (f : LineFinder α)

/-- The lines a window shows whole; at the end of the sequence the cut one too. -/
def shownLines (atEof : Bool) (xs : List α) : List (List α) :=
  (lines f xs).filter (fun l => atEof || decide (f.Terminated l))

@[simp] theorem shownLines_nil (atEof : Bool) : shownLines f atEof []=[] := rfl

theorem shownLines_of_find {xs : List α} {k : ℕ} (atEof : Bool) (h : f.find xs=some k) :
    shownLines f atEof xs=xs.take k::shownLines f atEof (xs.drop k) := by
  simp [shownLines,lines_of_find f h,f.terminated_take h]

theorem shownLines_of_unfound {xs : List α} (atEof : Bool) (hx : xs≠[]) (h : f.find xs=none) :
    shownLines f atEof xs=if atEof then [xs] else [] := by
  have hnot : ¬f.Terminated xs := by simp [LineFinder.Terminated,h]
  cases atEof <;> simp [shownLines,lines_of_unfound f hx h,hnot]

private theorem shown_flatten_prefix (xs : List α) : (shownLines f false xs).flatten<+:(lines f xs).flatten := by
  induction hn : xs.length using Nat.strong_induction_on generalizing xs with
  | _ n ih =>
    by_cases hx : xs=[]
    · simp [hx]
    · cases hf : f.find xs with
      | none => simp [shownLines_of_unfound f false hx hf]
      | some k =>
        have hp := f.pos hf
        have hl := f.le hf
        have hd := ih (xs.drop k).length (by simp only [List.length_drop]; omega) (xs.drop k) rfl
        rw [shownLines_of_find f false hf,lines_of_find f hf]
        simpa using hd

/-- What a window shows is what the sequence begins with, and the rest of the sequence
has the remaining lines. -/
theorem lines_of_shownLines (xs : List α) (w : ℕ) (atEof : Bool) (hw : atEof=true→xs.length≤w) :
    lines f xs=shownLines f atEof (xs.take w)++
      lines f (xs.drop (shownLines f atEof (xs.take w)).flatten.length) := by
  cases atEof with
  | true =>
    have ht : xs.take w=xs := List.take_of_length_le (hw rfl)
    have hs : shownLines f true xs=lines f xs := by simp [shownLines]
    rw [ht,hs,lines_flatten,List.drop_length,lines_nil,List.append_nil]
  | false =>
    set ls := shownLines f false (xs.take w) with hls
    have hterm : ∀l∈ls,f.Terminated l := by
      intro l hl
      simpa [hls,shownLines] using (List.mem_filter.mp hl).2
    have hpre : ls.flatten<+:xs := by
      refine List.IsPrefix.trans ?_ (List.take_prefix w xs)
      rw [← lines_flatten f (xs.take w),hls]
      exact shown_flatten_prefix f (xs.take w)
    obtain ⟨ys,hys⟩ := hpre
    rw [← hys,List.drop_left',lines_append f ls ys hterm]
    rfl

end Windows

section Cuts
variable (f : LineFinder α) {xs : List α} {as bs : List (List α)} {n : ℕ}

/-- The first lines of a sequence are lines on their own. -/
theorem lines_front (h : lines f xs=as++bs) : lines f as.flatten=as := by
  rcases List.eq_nil_or_concat' bs with rfl | ⟨bs,l,rfl⟩
  · rw [List.append_nil] at h
    rw [← h,lines_flatten]
  · have hterm : ∀a∈as,f.Terminated a := by
      rw [← List.append_assoc] at h
      exact fun a ha => lines_terminated f h a (List.mem_append_left _ ha)
    have hall := lines_append f as [] hterm
    rwa [List.append_nil,lines_nil,List.append_nil] at hall

/-- Where a line begins the later ones are read from. -/
theorem lines_from (h : lines f (xs.drop n)=as++bs) : lines f (xs.drop (n+as.flatten.length))=bs := by
  rw [← List.drop_drop]
  exact lines_split f h

theorem begins_inside (h : lines f (xs.drop n)=as++bs) (hbs : bs≠[]) : n+as.flatten.length<xs.length := by
  by_contra hge
  have hnil := lines_from f h
  rw [List.drop_of_length_le (Nat.le_of_not_lt hge),lines_nil] at hnil
  exact hbs hnil.symm

/-- Lines before the last stay what they are while the sequence grows. -/
theorem lines_grown (h : lines f (xs.drop n)=as++bs) (hbs : bs≠[]) (more : List α) :
    lines f ((xs++more).drop n)=as++lines f ((xs++more).drop (n+as.flatten.length)) := by
  have hlt := begins_inside f h hbs
  have hterm : ∀a∈as,f.Terminated a := by
    obtain ⟨front,l,rfl⟩ := (List.eq_nil_or_concat' bs).resolve_left hbs
    rw [← List.append_assoc] at h
    exact fun a ha => lines_terminated f h a (List.mem_append_left _ ha)
  have hbytes : xs.drop n=as.flatten++xs.drop (n+as.flatten.length) := by
    rw [← lines_flatten f (xs.drop n),h,List.flatten_append,← lines_flatten f (xs.drop (n+_)),lines_from f h]
  rw [List.drop_append_of_le_length (by omega),hbytes,List.append_assoc,lines_append f as _ hterm,
    List.drop_append_of_le_length hlt.le]

/-- Lines cut out of a sequence between two places where one begins. -/
theorem lines_between {m : ℕ} (hn : n ≤ m) (h : lines f (xs.drop n)=as++lines f (xs.drop m)) :
    lines f ((xs.take m).drop n)=as := by
  have hbytes : (xs.take m).drop n++xs.drop m=as.flatten++xs.drop m := by
    have hdrop : xs.drop m=(xs.drop n).drop (m-n) := by rw [List.drop_drop,Nat.add_sub_cancel' hn]
    have hall := congrArg List.flatten h
    rw [lines_flatten,List.flatten_append,lines_flatten] at hall
    rw [← hall,hdrop,List.drop_take,List.take_append_drop]
  rw [List.append_cancel_right hbytes]
  exact lines_front f h

end Cuts

end Loftail.DelimitedLines
