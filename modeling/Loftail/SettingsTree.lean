import Loftail.LogSettings
import Loftail.ReducedSettings

/-! # The settings tree as it is edited and filed

Every pattern has an id of its own: it is what the dialog finds a pattern again by after a reorder. -/
namespace Loftail

namespace LogSettingsTree
variable {Profile : Type}

def indexOfPatternId (tree : LogSettingsTree Profile) (id : Text) : ℤ :=
  match tree.patterns.findIdx? (·.id=id) with
  | some i => i
  | none => -1

/-- `QStringLiteral("p%1").arg(n)`. -/
def patternId (n : ℕ) : Text := latin1 "p"++(printedNat n).map UInt8.toUInt16

/-- The first number from `n` on whose id is free; there are not more taken ones than patterns. -/
def freeNumber (tree : LogSettingsTree Profile) : ℕ→ℕ→ℕ
  | 0,n => n
  | fuel+1,n => if 0≤tree.indexOfPatternId (patternId n) then freeNumber tree fuel (n+1) else n

def addPattern (tree : LogSettingsTree Profile) (node : LogPatternNode Profile) : LogSettingsTree Profile :=
  let node :=
    if node.id.isEmpty || decide (0≤tree.indexOfPatternId node.id) then
      {node with id := patternId (tree.freeNumber tree.patterns.length (tree.patterns.length+1))}
    else node
  {tree with patterns := tree.patterns++[node]}

def removePattern (tree : LogSettingsTree Profile) (index : ℤ) : LogSettingsTree Profile :=
  if index < 0 ∨ tree.patterns.length ≤ index then tree
  else {tree with patterns := tree.patterns.eraseIdx index.toNat}

/-- `QList::move`. -/
def moved {α : Type} (xs : List α) (i j : ℕ) : List α :=
  match xs[i]? with
  | some x => (xs.eraseIdx i).insertIdx j x
  | none => xs

def movePattern (tree : LogSettingsTree Profile) (index delta : ℤ) : LogSettingsTree Profile :=
  let target := index+delta
  if index < 0 ∨ tree.patterns.length ≤ index ∨ target < 0 ∨ tree.patterns.length≤target then tree
  else {tree with patterns := moved tree.patterns index.toNat target.toNat}

/-- What is edited in place, by reference: anything of a pattern but its id. -/
def editPattern (tree : LogSettingsTree Profile) (index : ℕ) (node : LogPatternNode Profile) :
    LogSettingsTree Profile :=
  {tree with patterns := tree.patterns.modify index fun old => {node with id := old.id}}

/-- No two patterns have one id, and none has an empty one. -/
structure Identified (tree : LogSettingsTree Profile) : Prop where
  nodup : (tree.patterns.map (·.id)).Nodup
  named : ∀node∈tree.patterns,node.id≠[]

variable {tree : LogSettingsTree Profile} {id : Text} {node : LogPatternNode Profile}

theorem indexOfPatternId_nonneg : 0≤tree.indexOfPatternId id↔id∈tree.patterns.map (·.id) := by
  rw [indexOfPatternId,List.mem_map]
  cases h : tree.patterns.findIdx? (·.id=id) with
  | none =>
    rw [List.findIdx?_eq_none_iff] at h
    refine iff_of_false (by decide) ?_
    rintro ⟨node,hnode,hid⟩
    simpa [hid] using h node hnode
  | some i =>
    obtain ⟨hi,hid,-⟩ := List.findIdx?_eq_some_iff_getElem.mp h
    exact iff_of_true (Int.natCast_nonneg i) ⟨_,List.getElem_mem hi,of_decide_eq_true hid⟩

private theorem patternId_ne_nil (n : ℕ) : patternId n≠[] := by simp [patternId,latin1]

private theorem patternId_injective : Function.Injective patternId := by
  intro m n h
  have hmap : (printedNat m).map UInt8.toUInt16=(printedNat n).map UInt8.toUInt16 := List.append_cancel_left h
  have hinj : Function.Injective UInt8.toUInt16 := by
    intro a b hab
    have := congrArg UInt16.toNat hab
    exact UInt8.toNat_inj.mp (by simpa using this)
  have hprinted := List.map_injective_iff.mpr hinj hmap
  exact Option.some_inj.mp ((decimalValue_printedNat m).symm.trans ((congrArg decimalValue hprinted).trans
    (decimalValue_printedNat n)))

/-- A number that is found taken has only taken ones before it. -/
theorem freeNumber_taken {fuel n : ℕ} (h : patternId (tree.freeNumber fuel n)∈tree.patterns.map (·.id)) :
    ∀m∈List.range' n (fuel+1),patternId m∈tree.patterns.map (·.id) := by
  induction fuel generalizing n with
  | zero =>
    intro m hm
    obtain rfl : m=n := by simpa using hm
    exact h
  | succ fuel ih =>
    rw [freeNumber] at h
    split at h
    · rename_i htaken
      intro m hm
      rw [List.range'_succ,List.mem_cons] at hm
      rcases hm with rfl | hm
      · exact indexOfPatternId_nonneg.mp htaken
      · exact ih h m hm
    · rename_i hfree
      exact (hfree (indexOfPatternId_nonneg.mpr h)).elim

/-- Among one number more than there are patterns one is free. -/
theorem freeNumber_free (n : ℕ) : patternId (tree.freeNumber tree.patterns.length n)∉tree.patterns.map (·.id) := by
  intro h
  have hsub : (List.range' n (tree.patterns.length+1)).map patternId ⊆ tree.patterns.map (·.id) := by
    intro id hid
    obtain ⟨m,hm,rfl⟩ := List.mem_map.mp hid
    exact freeNumber_taken h m hm
  have hnodup : ((List.range' n (tree.patterns.length+1)).map patternId).Nodup :=
    (List.nodup_range' _ (by decide)).map patternId_injective
  have hlen := (hnodup.subperm hsub).length_le
  rw [List.length_map,List.length_range',List.length_map] at hlen
  omega

namespace Identified

theorem empty (defaults : Profile) : Identified (⟨defaults,[]⟩ : LogSettingsTree Profile) :=
  ⟨List.nodup_nil,fun _ h => nomatch h⟩

theorem addPattern (h : tree.Identified) (node : LogPatternNode Profile) : (tree.addPattern node).Identified := by
  have hnew (new : LogPatternNode Profile) (hne : new.id≠[]) (hfree : new.id∉tree.patterns.map (·.id)) :
      Identified {tree with patterns := tree.patterns++[new]} := by
    constructor
    · show ((tree.patterns++[new]).map (·.id)).Nodup
      rw [List.map_append,List.map_singleton,← List.concat_eq_append]
      exact h.nodup.concat hfree
    · intro old hold
      rcases List.mem_append.mp hold with hold | hold
      · exact h.named old hold
      · obtain rfl := List.mem_singleton.mp hold
        exact hne
  rw [LogSettingsTree.addPattern]
  split
  · exact hnew _ (patternId_ne_nil _) (freeNumber_free _)
  · rename_i hown
    rw [Bool.or_eq_true,not_or,decide_eq_true_iff,indexOfPatternId_nonneg] at hown
    exact hnew node (by simpa using hown.1) hown.2

/-- A pattern with an id of its own keeps it. -/
theorem addPattern_own (hne : node.id≠[]) (hfree : node.id∉tree.patterns.map (·.id)) :
    tree.addPattern node={tree with patterns := tree.patterns++[node]} := by
  rw [LogSettingsTree.addPattern,if_neg]
  rw [Bool.or_eq_true,not_or,decide_eq_true_iff,indexOfPatternId_nonneg]
  exact ⟨by simpa using hne,hfree⟩

private theorem of_sublist {patterns : List (LogPatternNode Profile)} (h : tree.Identified)
    (hsub : patterns.Sublist tree.patterns) : Identified {tree with patterns := patterns} :=
  ⟨h.nodup.sublist (hsub.map _),fun node hnode => h.named node (hsub.mem hnode)⟩

theorem removePattern (h : tree.Identified) (index : ℤ) : (tree.removePattern index).Identified := by
  rw [LogSettingsTree.removePattern]
  split
  · exact h
  · exact h.of_sublist (List.eraseIdx_sublist ..)

theorem movePattern (h : tree.Identified) (index delta : ℤ) : (tree.movePattern index delta).Identified := by
  rw [LogSettingsTree.movePattern]
  split
  · exact h
  · rename_i hin
    rw [not_or,not_or,not_or] at hin
    have hi : index.toNat < tree.patterns.length := by omega
    have hperm : (moved tree.patterns index.toNat (index+delta).toNat).Perm tree.patterns := by
      rw [moved,List.getElem?_eq_getElem hi]
      have hj : (index+delta).toNat≤(tree.patterns.eraseIdx index.toNat).length := by
        rw [List.length_eraseIdx_of_lt hi]
        omega
      exact (List.perm_insertIdx _ _ hj).trans (List.getElem_cons_eraseIdx_perm hi)
    exact ⟨(hperm.map _).nodup_iff.mpr h.nodup,fun node hnode => h.named node (hperm.mem_iff.mp hnode)⟩

theorem editPattern (h : tree.Identified) (index : ℕ) (node : LogPatternNode Profile) :
    (tree.editPattern index node).Identified := by
  have hids : (tree.editPattern index node).patterns.map (·.id)=tree.patterns.map (·.id) := by
    apply List.ext_getElem?
    intro j
    rw [LogSettingsTree.editPattern,List.getElem?_map,List.getElem?_map,List.getElem?_modify]
    cases tree.patterns[j]? with
    | none => rfl
    | some old => split <;> rfl
  refine ⟨hids ▸ h.nodup,fun new hnew => ?_⟩
  have hmem := List.mem_map_of_mem (f:=(·.id)) hnew
  rw [hids] at hmem
  obtain ⟨old,hold,hid⟩ := List.mem_map.mp hmem
  exact hid ▸ h.named old hold

end Identified

end LogSettingsTree

end Loftail
