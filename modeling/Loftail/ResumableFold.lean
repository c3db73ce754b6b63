import Mathlib.Data.List.Basic

/-! # Folds over a stretch of a growing sequence, taken up where they were left

A fold over the elements from `start` up to `stop` can be left at any point between and
taken up there, as long as the elements it has taken in have not changed. -/
namespace Loftail.ResumableFold

variable {α σ : Type*}

/-- The elements from `start` up to `stop`. -/
def span (xs : List α) (start stop : ℕ) : List α := (xs.take stop).drop start

theorem span_self (xs : List α) (i : ℕ) : span xs i i=[] := by simp [span]

theorem span_append (xs : List α) {start mid stop : ℕ} (h : start ≤ mid) (h' : mid ≤ stop) :
    span xs start mid++span xs mid stop=span xs start stop := by
  have ht : (xs.take stop).take mid=xs.take mid := by rw [List.take_take,Nat.min_eq_left h']
  simp only [span]
  rw [← ht]
  conv_rhs => rw [← List.take_append_drop mid (xs.take stop)]
  rw [List.drop_append]
  congr 1
  by_cases hm : mid≤(xs.take stop).length
  · have hz : start-((xs.take stop).take mid).length=0 := by
      rw [List.length_take,Nat.min_eq_left hm]
      omega
    rw [hz,List.drop_zero]
  · rw [List.drop_of_length_le (show (xs.take stop).length ≤ mid by omega),List.drop_nil]

theorem span_take (xs : List α) {start stop n : ℕ} (h : start+n ≤ stop) :
    (span xs start stop).take n=span xs start (start+n) := by
  rw [span,span,List.take_drop,List.take_take,Nat.min_eq_left h]

/-- A stretch sees no further than its end. -/
theorem span_congr {xs ys : List α} {start stop : ℕ} (h : xs.take stop=ys.take stop) :
    span xs start stop=span ys start stop := by rw [span,span,h]

theorem span_succ {xs : List α} {start k : ℕ} {x : α} (hs : start≤k) (hx : xs[k]?=some x) :
    span xs start (k+1)=span xs start k++[x] := by
  rw [← span_append xs hs (Nat.le_succ k)]
  congr 1
  obtain ⟨hk,rfl⟩ := List.getElem?_eq_some_iff.mp hx
  have hl : (xs.take k).length=k := by rw [List.length_take,Nat.min_eq_left (by omega)]
  rw [span,← List.take_append_getElem hk,List.drop_left' hl]

/-- The fold over a stretch. -/
def foldSpan (f : σ→α→σ) (z : σ) (xs : List α) (start stop : ℕ) : σ := (span xs start stop).foldl f z

theorem foldSpan_resume (f : σ→α→σ) (z : σ) (xs : List α) {start mid stop : ℕ} (h : start ≤ mid) (h' : mid ≤ stop) :
    (span xs mid stop).foldl f (foldSpan f z xs start mid)=foldSpan f z xs start stop := by
  rw [foldSpan,foldSpan,← List.foldl_append,span_append xs h h']

theorem foldSpan_congr (f : σ→α→σ) (z : σ) {xs ys : List α} {start stop : ℕ} (h : xs.take stop=ys.take stop) :
    foldSpan f z xs start stop=foldSpan f z ys start stop := by rw [foldSpan,foldSpan,span_congr h]

/-- An element the fold cannot tell from another may be replaced by it. -/
theorem foldSpan_replace (f : σ→α→σ) (z : σ) {xs ys : List α} {start k : ℕ} {x y : α} (h : xs.take k=ys.take k)
    (hx : xs[k]?=some x) (hy : ys[k]?=some y) (hf : ∀s,f s x=f s y) :
    foldSpan f z xs start (k+1)=foldSpan f z ys start (k+1) := by
  by_cases hs : start≤k
  · rw [foldSpan,foldSpan,span_succ hs hx,span_succ hs hy,span_congr h,List.foldl_append,List.foldl_append]
    exact hf _
  · have hn (zs : List α) : span zs start (k+1)=[] := by
      refine List.drop_of_length_le ?_
      rw [List.length_take]
      omega
    rw [foldSpan,foldSpan,hn,hn]

/-- The first value a test picks out of a stretch. -/
def firstSpan {β : Type*} (p : α→Option β) (xs : List α) (start stop : ℕ) : Option β :=
  (span xs start stop).findSome? p

theorem firstSpan_congr {β : Type*} (p : α→Option β) {xs ys : List α} {start stop : ℕ}
    (h : xs.take stop=ys.take stop) :
    firstSpan p xs start stop=firstSpan p ys start stop := by rw [firstSpan,firstSpan,span_congr h]

theorem firstSpan_replace {β : Type*} (p : α→Option β) {xs ys : List α} {start k : ℕ} {x y : α}
    (h : xs.take k=ys.take k) (hx : xs[k]?=some x) (hy : ys[k]?=some y) (hp : p x=p y) :
    firstSpan p xs start (k+1)=firstSpan p ys start (k+1) := by
  by_cases hs : start≤k
  · simp [firstSpan,span_succ hs hx,span_succ hs hy,span_congr h,List.findSome?_append,hp]
  · have hn (zs : List α) : span zs start (k+1)=[] := by
      refine List.drop_of_length_le ?_
      rw [List.length_take]
      omega
    rw [firstSpan,firstSpan,hn,hn]

theorem firstSpan_resume {β : Type*} (p : α→Option β) (xs : List α) {start mid stop : ℕ} (h : start ≤ mid)
    (h' : mid ≤ stop) (hn : firstSpan p xs start mid=none) :
    firstSpan p xs mid stop=firstSpan p xs start stop := by
  rw [firstSpan,firstSpan,← span_append xs h h',List.findSome?_append]
  rw [firstSpan] at hn
  rw [hn,Option.none_or]

theorem firstSpan_stable {β : Type*} (p : α→Option β) (xs : List α) {start mid stop : ℕ} {b : β} (h : start ≤ mid)
    (h' : mid ≤ stop) (hb : firstSpan p xs start mid=some b) : firstSpan p xs start stop=some b := by
  rw [firstSpan,← span_append xs h h',List.findSome?_append]
  rw [firstSpan] at hb
  rw [hb,Option.some_or]

theorem firstSpan_none_mono {β : Type*} (p : α→Option β) (xs : List α) {start mid stop : ℕ} (h' : mid ≤ stop)
    (hn : firstSpan p xs start stop=none) : firstSpan p xs start mid=none := by
  by_cases h : start ≤ mid
  · cases hm : firstSpan p xs start mid with
    | none => rfl
    | some b => simp [firstSpan_stable p xs h h' hm] at hn
  · have he : span xs start mid=[] := by
      refine List.drop_of_length_le ?_
      rw [List.length_take]
      omega
    rw [firstSpan,he]
    rfl

end Loftail.ResumableFold
