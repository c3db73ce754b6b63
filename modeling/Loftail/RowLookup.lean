import Loftail.FilteredIndex
import Loftail.LineLookup

/-! # View rows to source records and back

The parallel arrays of the visible subset are one list of rows, under every sequence of
edits, and the two lookups answer from it. -/
namespace Loftail
open BlockPrefixSums RecordIndex

section Search

/-- `std::ranges::lower_bound`: `len` entries from `first` on are left to look at. -/
def lowerBound (xs : List ℕ) (x : ℤ) (first len : ℕ) : ℕ :=
  if len=0 then first else
    match xs[first+len/2]? with
    | none => first
    | some v => if (v : ℤ)<x then lowerBound xs x (first+len/2+1) (len-len/2-1) else lowerBound xs x first (len/2)
termination_by len

/-- Over ascending entries it stands between those below `x` and the others. -/
theorem lowerBound_spec {xs : List ℕ} {x : ℤ} (h : xs.Pairwise (·<·)) {first len : ℕ} (hin : first+len≤xs.length)
    (hlo : ∀i v,i<first→xs[i]?=some v→(v : ℤ)<x) (hhi : ∀i v,first+len ≤ i→xs[i]?=some v→x≤(v : ℤ)) :
    lowerBound xs x first len≤xs.length ∧ (∀i v,i<lowerBound xs x first len→xs[i]?=some v→(v : ℤ)<x) ∧
      ∀i v,lowerBound xs x first len ≤ i→xs[i]?=some v→x≤(v : ℤ) := by
  induction len using Nat.strongRecOn generalizing first with
  | ind len ih =>
    rw [lowerBound]
    by_cases hz : len=0
    · rw [if_pos hz]
      exact ⟨by omega,hlo,fun i v hle => hhi i v (by omega)⟩
    · have hmid : first+len/2<xs.length := by omega
      rw [if_neg hz,List.getElem?_eq_getElem hmid]
      simp only []
      have hord : ∀i j (hj : j<xs.length) (hij : i<j),xs[i]<xs[j] := fun i j hj hij =>
        List.pairwise_iff_getElem.mp h i j _ hj hij
      split
      · rename_i hlt
        apply ih _ (by omega) (by omega) _ (fun i v hle => hhi i v (by omega))
        intro i v hi hv
        obtain ⟨hil,rfl⟩ := List.getElem?_eq_some_iff.mp hv
        rcases Nat.lt_or_ge i (first+len/2) with hlow | hge
        · have := hord i _ hmid hlow
          omega
        · obtain rfl : i=first+len/2 := by omega
          exact hlt
      · rename_i hge
        apply ih _ (by omega) (by omega) hlo
        intro i v hle hv
        obtain ⟨hil,rfl⟩ := List.getElem?_eq_some_iff.mp hv
        rcases Nat.eq_or_lt_of_le hle with heq | hgt
        · subst heq
          exact Int.not_lt.mp hge
        · have := hord _ i hil hgt
          omega

end Search

namespace FilteredIndex

def sourceRow (f : FilteredIndex) (source : List Record) (viewRow : ℤ) : ℤ :=
  if !f.active then (if 0≤viewRow ∧ viewRow<source.length then viewRow else -1) else
    if 0≤viewRow ∧ viewRow<f.visible.length then (f.visible.getD viewRow.toNat 0 : ℕ) else -1

/-- The view row that shows source record `sourceRow`, or -1. -/
def viewRowOf (f : FilteredIndex) (source : List Record) (sourceRow : ℤ) : ℤ :=
  let n := f.recordCount source
  if !f.active then (if 0 ≤ sourceRow ∧ sourceRow<n then sourceRow else -1) else
    if f.ascending then
      let r := lowerBound f.visible sourceRow 0 f.visible.length
      if r<n ∧ (f.visible.getD r 0 : ℤ)=sourceRow then r else -1
    else
      match f.visible.findIdx? (fun v : ℕ => decide ((v : ℤ)=sourceRow)) with
      | some i => i
      | none => -1

/-- The first row at or after `sourceRow`; out of order, the row that shows it. -/
def viewRowAtOrAfter (f : FilteredIndex) (source : List Record) (sourceRow : ℤ) : ℤ :=
  let n := f.recordCount source
  if !f.active then max 0 (min sourceRow n) else
    if !f.ascending then
      let exact := f.viewRowOf source sourceRow
      if exact≥0 then exact else n
    else lowerBound f.visible sourceRow 0 f.visible.length

/-- What the two lookups answer: the row of a record that is visible once, and in order the
least row that is not before a record. -/
structure Answers (f : FilteredIndex) (source : List Record) : Prop where
  viewRowOf : ∀i : ℕ,i < f.recordCount source→(f.active=true→f.visible.Nodup)→
    f.viewRowOf source (f.sourceRow source i)=i
  viewRowAtOrAfter : ∀s : ℤ,(f.active=true→f.ascending=true)→
    0≤f.viewRowAtOrAfter source s ∧ f.viewRowAtOrAfter source s≤f.recordCount source ∧
      (∀i : ℕ,(i : ℤ)<f.viewRowAtOrAfter source s→f.sourceRow source i<s) ∧
      ∀i : ℕ,f.viewRowAtOrAfter source s≤(i : ℤ)→i < f.recordCount source→s ≤ f.sourceRow source i

/-- One visible row: whose it is, whether it is context, and its copy of the record. -/
structure VisibleRow where
  ordinal : ℕ
  context : Bool
  record : Record

/-- What happens to a subset. -/
inductive Change
  | setVisible (source : List Record) (visible : List ℕ) (context : List Bool)
  | clear
  | appendVisible (sourceRow : ℕ) (rec : Record) (context : Bool)
  | popLastVisible
  | extendCompactSums (validCount : ℤ)

/-- A subset beside the rows it should hold, how many leading ones are as the last build of the
sums saw them, and whether nothing has changed since. -/
structure Tracked where
  index : FilteredIndex
  rows : List VisibleRow
  unchanged : ℕ
  current : Bool

/-- The rows of a subset of `source`; a missing flag is a match. -/
def rowsOf (source : List Record) (visible : List ℕ) (context : List Bool) : List VisibleRow :=
  visible.mapIdx fun i s => ⟨s,context.getD i false,source.getD s default⟩

namespace Tracked

def start : Tracked := ⟨cleared,[],0,false⟩

def edited (t : Tracked) : Edited := ⟨t.index.compact,t.unchanged⟩

def step (t : Tracked) : Change→Tracked
  | .setVisible source visible context =>
    ⟨.setVisible source visible context,FilteredIndex.rowsOf source visible context,visible.length,true⟩
  | .clear => ⟨cleared,[],0,false⟩
  | .appendVisible sourceRow rec context =>
    ⟨t.index.appendVisible sourceRow rec context,t.rows++[⟨sourceRow,context,rec⟩],t.unchanged,false⟩
  | .popLastVisible =>
    ⟨t.index.popLastVisible,t.rows.dropLast,min t.unchanged (t.rows.length-1),t.current && t.rows.isEmpty⟩
  | .extendCompactSums validCount => ⟨t.index.extendCompactSums validCount,t.rows,t.rows.length,true⟩

def run (t : Tracked) (changes : List Change) : Tracked := changes.foldl step t

/-- An extension is told a count no row below which has changed since the last build. -/
def Follows (t : Tracked) : Change→Prop
  | .extendCompactSums validCount => t.edited.Follows (.extend validCount)
  | _ => True

def Followed (t : Tracked) : List Change→Prop
  | [] => True
  | c::cs => t.Follows c ∧ (t.step c).Followed cs

/-- The arrays are those of the rows. -/
structure Represents (t : Tracked) : Prop where
  visible : t.index.visible=t.rows.map VisibleRow.ordinal
  context : t.index.context=t.rows.map VisibleRow.context
  records : t.index.compact.records=t.rows.map VisibleRow.record
  contextCount : t.index.contextCount=t.index.context.count true
  ascending : t.index.ascending=true→t.index.visible.Pairwise (·<·)
  kept : t.edited.Kept
  sums : t.current=true→t.index.compact.SumsValid

theorem represents_start : start.Represents where
  visible := rfl
  context := rfl
  records := rfl
  contextCount := rfl
  ascending := fun _ => .nil
  kept := Edited.kept_start
  sums := by
    intro h
    cases h

end Tracked

/-- Every neighbour in order is every pair in order. -/
theorem pairwise_of_strictlyAscending {xs : List ℕ} (h : strictlyAscending xs=true) : xs.Pairwise (·<·) := by
  induction xs with
  | nil => exact .nil
  | cons a as ih =>
    cases as with
    | nil => simp
    | cons b bs =>
      rw [strictlyAscending,Bool.and_eq_true] at h
      have htail := ih h.2
      refine List.pairwise_cons.mpr ⟨?_,htail⟩
      intro c hc
      have hab := of_decide_eq_true h.1
      rcases List.mem_cons.mp hc with rfl | hc
      · exact hab
      · exact hab.trans ((List.pairwise_cons.mp htail).1 c hc)

private theorem context_rowsOf (source : List Record) (visible : List ℕ) (context : List Bool) :
    (context++List.replicate (visible.length-context.length) false).take visible.length=
      (rowsOf source visible context).map VisibleRow.context := by
  apply List.ext_getElem
  · simp [rowsOf]
    omega
  · intro i hi hi'
    simp only [List.length_take,List.length_append,List.length_replicate] at hi
    simp only [rowsOf,List.getElem_take,List.getElem_map,List.getElem_mapIdx,List.getD_eq_getElem?_getD]
    by_cases hlt : i<context.length
    · rw [List.getElem_append_left hlt,List.getElem?_eq_getElem hlt,Option.getD_some]
    · rw [List.getElem_append_right (by omega),List.getElem_replicate,List.getElem?_eq_none (by omega),
        Option.getD_none]

namespace Tracked
variable {t : Tracked}

private theorem represents_setVisible (t : Tracked) (source : List Record) (visible : List ℕ)
    (context : List Bool) :
    (t.step (.setVisible source visible context)).Represents where
  visible := by
    apply List.ext_getElem
    · simp [step,FilteredIndex.setVisible,rowsOf]
    · intro i hi hi'
      simp [step,FilteredIndex.setVisible,rowsOf]
  context := context_rowsOf source visible context
  records := by
    apply List.ext_getElem
    · simp [step,FilteredIndex.setVisible,rowsOf]
    · intro i hi hi'
      simp [step,FilteredIndex.setVisible,rowsOf]
  contextCount := rfl
  ascending := pairwise_of_strictlyAscending
  kept := by
    have hk := Edited.kept_of_valid (rebuildBlockSums_valid
      ⟨visible.map (fun s => source.getD s default),.empty,.empty,[]⟩)
    rwa [rebuildBlockSums_records,List.length_map] at hk
  sums := fun _ => rebuildBlockSums_valid _

theorem Represents.append (h : t.Represents) (sourceRow : ℕ) (rec : Record) (context : Bool) :
    (t.step (.appendVisible sourceRow rec context)).Represents where
  visible := by simp [step,FilteredIndex.appendVisible,h.visible]
  context := by simp [step,FilteredIndex.appendVisible,h.context]
  records := by simp [step,FilteredIndex.appendVisible,h.records]
  contextCount := by cases context <;> simp [step,FilteredIndex.appendVisible,h.contextCount]
  ascending := by
    intro hasc
    simp only [step,FilteredIndex.appendVisible,Bool.and_eq_true] at hasc ⊢
    have hpair := h.ascending hasc.1
    rcases List.eq_nil_or_concat' t.index.visible with hnil | ⟨vs,v,hv⟩
    · simp [hnil]
    · rw [hv] at hpair ⊢
      have hlast : v<sourceRow := by simpa [hv,lastVisibleSource] using hasc.2
      refine List.pairwise_append.mpr ⟨hpair,by simp,?_⟩
      intro a ha b hb
      obtain rfl := List.mem_singleton.mp hb
      rcases List.mem_append.mp ha with ha | ha
      · exact ((List.pairwise_append.mp hpair).2.2 a ha v (by simp)).trans hlast
      · exact List.mem_singleton.mp ha ▸ hlast
  kept := h.kept.step (e:=.append rec) trivial
  sums := by
    intro hc
    cases hc

theorem Represents.pop (h : t.Represents) : (t.step .popLastVisible).Represents := by
  rcases List.eq_nil_or_concat' t.rows with hnil | ⟨rows,row,hrows⟩
  · have hv : t.index.visible=[] := by simp [h.visible,hnil]
    have hstep : t.step .popLastVisible={t with unchanged := min t.unchanged (t.rows.length-1)} := by
      cases t
      simp_all [step,FilteredIndex.popLastVisible]
    rw [hstep]
    have hkept := h.kept.step (e:=.pop) trivial
    have hsame : t.index.compact.records=[] := by simp [h.records,hnil]
    refine ⟨h.visible,h.context,h.records,h.contextCount,h.ascending,?_,h.sums⟩
    simp only [edited,Edited.step,hsame,List.dropLast_nil,List.length_nil] at hkept
    simp only [edited,hnil,List.length_nil]
    rwa [← hsame] at hkept
  · have hne : ¬t.index.visible.isEmpty=true := by simp [h.visible,hrows]
    have hstep : t.index.popLastVisible=
        {t.index with contextCount := t.index.contextCount-(if t.index.context.getLastD false then 1 else 0)
                      context := t.index.context.dropLast
                      visible := t.index.visible.dropLast
                      compact := {t.index.compact with records := t.index.compact.records.dropLast}} := by
      rw [FilteredIndex.popLastVisible,if_neg hne]
    constructor
    · simp only [step,hstep,h.visible,List.map_dropLast]
    · simp only [step,hstep,h.context,List.map_dropLast]
    · simp only [step,hstep,h.records,List.map_dropLast]
    · simp only [step,hstep,h.contextCount,h.context,hrows,List.map_append,List.map_singleton,List.dropLast_concat,
        List.getLastD_concat,List.count_append]
      cases row.context <;> simp
    · intro hasc
      simp only [step,hstep] at hasc ⊢
      exact (h.ascending hasc).sublist (List.dropLast_sublist _)
    · have hkept := h.kept.step (e:=.pop) trivial
      have hlen : t.index.compact.records.length=t.rows.length := by rw [h.records,List.length_map]
      simpa [step,edited,hstep,Edited.step,hlen] using hkept
    · intro hc
      simp [step,hrows] at hc

theorem Represents.extend (h : t.Represents) {v : ℤ} (hv : t.Follows (.extendCompactSums v)) :
    (t.step (.extendCompactSums v)).Represents where
  visible := h.visible
  context := h.context
  records := by simp [step,FilteredIndex.extendCompactSums,h.records]
  contextCount := h.contextCount
  ascending := h.ascending
  kept := by
    have hkept := h.kept.step (e:=.extend v) hv
    have hlen : t.index.compact.records.length=t.rows.length := by rw [h.records,List.length_map]
    rwa [Edited.step,edited,hlen] at hkept
  sums := fun _ => h.kept.extend hv

theorem Represents.step (h : t.Represents) {c : Change} (hc : t.Follows c) : (t.step c).Represents := by
  cases c with
  | setVisible source visible context => exact represents_setVisible t source visible context
  | clear => exact represents_start
  | appendVisible sourceRow rec context => exact h.append sourceRow rec context
  | popLastVisible => exact h.pop
  | extendCompactSums v => exact h.extend hc

theorem Represents.run (h : t.Represents) {changes : List Change} (hc : t.Followed changes) :
    (t.run changes).Represents := by
  induction changes generalizing t with
  | nil => exact h
  | cons c cs ih => exact ih (h.step hc.1) hc.2

theorem Represents.recordCount (h : t.Represents) (source : List Record) :
    t.index.recordCount source=if t.index.active then t.index.visible.length else source.length := by
  rw [FilteredIndex.recordCount,h.records,h.visible,List.length_map,List.length_map]

/-- The row of every visible record that is visible once. -/
theorem Represents.viewRowOf_sourceRow (h : t.Represents) {source : List Record} {i : ℕ}
    (hi : i < t.index.recordCount source) (hd : t.index.active=true→t.index.visible.Nodup) :
    t.index.viewRowOf source (t.index.sourceRow source i)=i := by
  have hcount := h.recordCount source
  unfold viewRowOf FilteredIndex.sourceRow
  cases ha : t.index.active with
  | false =>
    simp only [ha,Bool.false_eq_true,if_false] at hcount
    simp [hcount]
    omega
  | true =>
    simp only [ha,if_true] at hcount
    have hlt : i < t.index.visible.length := by omega
    have hget : t.index.visible.getD i 0=t.index.visible[i] := by simp [List.getD_eq_getElem?_getD,hlt]
    have hrow : 0≤(i : ℤ) ∧ (i : ℤ)<t.index.visible.length := by omega
    simp only [Bool.not_true,Bool.false_eq_true,if_false,Int.toNat_natCast,hget,if_pos hrow]
    cases hasc : t.index.ascending with
    | true =>
      have hpair := h.ascending hasc
      obtain ⟨hle,hlo,hhi⟩ := lowerBound_spec hpair (x:=(t.index.visible[i] : ℕ))
        (show 0+t.index.visible.length≤_ by omega)
        (fun j v hj => by omega) (fun j v hj hv => by
          have := (List.getElem?_eq_some_iff.mp hv).1
          omega)
      have hr : lowerBound t.index.visible (t.index.visible[i] : ℕ) 0 t.index.visible.length=i := by
        rcases Nat.lt_trichotomy (lowerBound t.index.visible (t.index.visible[i] :
          ℕ) 0 t.index.visible.length) i with
          hlt' | heq | hgt
        · have hge := hhi _ _ le_rfl (List.getElem?_eq_getElem (hlt'.trans hlt))
          have := List.pairwise_iff_getElem.mp hpair _ i (hlt'.trans hlt) hlt hlt'
          omega
        · exact heq
        · have := hlo i _ hgt (List.getElem?_eq_getElem hlt)
          omega
      simp only [if_true,hr,hget]
      rw [if_pos ⟨hi,trivial⟩]
    | false =>
      have hfind : t.index.visible.findIdx? (fun v : ℕ => decide ((v : ℤ)=(t.index.visible[i] : ℕ)))=some i := by
        rw [List.findIdx?_eq_some_iff_getElem]
        refine ⟨hlt,by simp,?_⟩
        intro j hj
        have hne := List.pairwise_iff_getElem.mp (hd ha) j i (by omega) hlt hj
        simpa using hne
      simp only [Bool.false_eq_true,if_false,hfind]

/-- In order, the row at or after a record is the least one that is not before it. -/
theorem Represents.viewRowAtOrAfter_least (h : t.Represents) (source : List Record) (s : ℤ)
    (hasc : t.index.active=true→t.index.ascending=true) :
    0≤t.index.viewRowAtOrAfter source s ∧ t.index.viewRowAtOrAfter source s≤t.index.recordCount source ∧
      (∀i : ℕ,(i : ℤ)<t.index.viewRowAtOrAfter source s→t.index.sourceRow source i<s) ∧
      ∀i : ℕ,t.index.viewRowAtOrAfter source s≤(i : ℤ)→i < t.index.recordCount source→
      s ≤ t.index.sourceRow source i := by
  have hcount := h.recordCount source
  unfold viewRowAtOrAfter FilteredIndex.sourceRow
  cases ha : t.index.active with
  | false =>
    simp only [ha,Bool.false_eq_true,if_false] at hcount
    simp only [hcount,Bool.not_false,if_true]
    refine ⟨by omega,by omega,?_,?_⟩
    · intro i hi
      rw [if_pos (by omega)]
      omega
    · intro i hi hin
      rw [if_pos (by omega)]
      omega
  | true =>
    simp only [ha,if_true] at hcount
    obtain ⟨hle,hlo,hhi⟩ := lowerBound_spec (h.ascending (hasc ha)) (x:=s)
      (show 0+t.index.visible.length≤_ by omega)
      (fun j v hj => by omega) (fun j v hj hv => by
        have := (List.getElem?_eq_some_iff.mp hv).1
        omega)
    simp only [hasc ha,hcount,Bool.not_true,Bool.false_eq_true,if_false,Int.toNat_natCast]
    refine ⟨by omega,by omega,?_,?_⟩
    · intro i hi
      have hlt : i < t.index.visible.length := by omega
      rw [if_pos (by omega)]
      have := hlo i _ (by omega) (List.getElem?_eq_getElem hlt)
      simpa [List.getD_eq_getElem?_getD,hlt] using this
    · intro i hi hlt
      rw [if_pos (by omega)]
      have := hhi i _ (by omega) (List.getElem?_eq_getElem hlt)
      simpa [List.getD_eq_getElem?_getD,hlt] using this

end Tracked

/-- Whatever is done to a subset, its arrays are those of one list of rows, and the lookups
answer from it. -/
theorem tracked_rows {changes : List Change} (hc : Tracked.start.Followed changes) :
    (Tracked.start.run changes).Represents ∧ ∀source,(Tracked.start.run changes).index.Answers source := by
  have h := Tracked.represents_start.run hc
  refine ⟨h,fun source => ⟨?_,?_⟩⟩
  · intro i hi hd
    exact h.viewRowOf_sourceRow hi hd
  · intro s hasc
    exact h.viewRowAtOrAfter_least source s hasc

/-- A filter's two rows, one of them taken back and two appended. -/
theorem tracked_rows_appended :
    let changes : List Change := [.setVisible (List.replicate 5 default) [0,2] [],.popLastVisible,
      .appendVisible 3 default false,.appendVisible 4 default true,.extendCompactSums 1]
    (Tracked.start.run changes).Represents ∧ ∀source,(Tracked.start.run changes).index.Answers source :=
  tracked_rows ⟨trivial,trivial,trivial,trivial,Or.inr (by decide),trivial⟩

/-- Out of order, the first row at or after 3 is row 0, and the lookup answers past the end; a
record visible twice has one row; and the sums wait for their extension. -/
theorem tracked_rows_unordered :
    ((Tracked.start.run [.setVisible (List.replicate 6 default) [5,2] []]).index.viewRowAtOrAfter [] 3=2 ∧
      (Tracked.start.run [.setVisible (List.replicate 6 default) [5,2] []]).index.sourceRow [] 0=5) ∧
      (Tracked.start.run [.setVisible (List.replicate 6 default) [3,3] []]).index.viewRowOf []
        ((Tracked.start.run [.setVisible (List.replicate 6 default) [3,3] []]).index.sourceRow [] 1)=0 ∧
      ¬(Tracked.start.run [.setVisible [] [] [],.appendVisible 0 default false]).index.compact.SumsValid := by
  refine ⟨by decide,by decide,?_⟩
  intro h
  exact absurd (congrArg List.length h) (by decide)

end FilteredIndex

end Loftail
