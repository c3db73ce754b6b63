import Mathlib.Data.List.Nodup

/-! # Lists whose entries are told apart by a key

An entry is put in the place of the one with its key, or last; of several with one key the first is
kept. -/
namespace Loftail.NamedEntries
variable {α κ : Type} [DecidableEq κ] (key : α→κ)

def indexOf (xs : List α) (k : κ) : Option ℕ := xs.findIdx? fun x => key x=k

def put (xs : List α) (a : α) : List α :=
  match indexOf key xs (key a) with
  | some i => xs.set i a
  | none => xs++[a]

def drop (xs : List α) (k : κ) : List α :=
  match indexOf key xs k with
  | some i => xs.eraseIdx i
  | none => xs

/-- The first entry of each key, after those already kept. -/
def firstsFrom (out : List α) : List α→List α
  | [] => out
  | x::xs => firstsFrom (if (indexOf key out (key x)).isSome then out else out++[x]) xs

def firsts (xs : List α) : List α := firstsFrom key [] xs

/-- No key twice. -/
def Unique (xs : List α) : Prop := (xs.map key).Nodup

variable {key} {xs : List α} {a : α} {k : κ} {i : ℕ}

theorem indexOf_none : indexOf key xs k=none↔∀x∈xs,key x≠k := by
  simp [indexOf,List.findIdx?_eq_none_iff]

theorem indexOf_some (h : indexOf key xs k=some i) : ∃l x r,xs=l++x::r ∧ l.length=i ∧ key x=k ∧ ∀y∈l,key y≠k := by
  obtain ⟨hi,hx,hl⟩ := List.findIdx?_eq_some_iff_getElem.mp h
  refine ⟨xs.take i,xs[i],xs.drop (i+1),?_,?_,by simpa using hx,?_⟩
  · rw [List.getElem_cons_drop,List.take_append_drop]
  · rw [List.length_take]
    omega
  · intro y hy
    obtain ⟨j,hj,rfl⟩ := List.mem_iff_getElem.mp hy
    rw [List.length_take] at hj
    have hlt := hl j (by omega)
    simpa using hlt

variable (key) in
/-- An entry is put in place of the one with its key, or last. -/
theorem put_cases (xs : List α) (a : α) :
    (∃l x r,xs=l++x::r ∧ key x=key a ∧ (∀y∈l,key y≠key a) ∧ put key xs a=l++a::r) ∨
      ((∀x∈xs,key x≠key a) ∧ put key xs a=xs++[a]) := by
  cases h : indexOf key xs (key a) with
  | none => exact Or.inr ⟨indexOf_none.mp h,by simp [put,h]⟩
  | some i =>
    obtain ⟨l,x,r,rfl,rfl,hx,hl⟩ := indexOf_some h
    refine Or.inl ⟨l,x,r,rfl,hx,hl,?_⟩
    simp [put,h]

variable (key) in
theorem drop_cases (xs : List α) (k : κ) :
    (∃l x r,xs=l++x::r ∧ key x=k ∧ (∀y∈l,key y≠k) ∧ drop key xs k=l++r) ∨ ((∀x∈xs,key x≠k) ∧ drop key xs k=xs) := by
  cases h : indexOf key xs k with
  | none => exact Or.inr ⟨indexOf_none.mp h,by simp [drop,h]⟩
  | some i =>
    obtain ⟨l,x,r,rfl,rfl,hx,hl⟩ := indexOf_some h
    refine Or.inl ⟨l,x,r,rfl,hx,hl,?_⟩
    simp [drop,h,List.eraseIdx_append_of_length_le]

variable (key) in
/-- The entries of other keys stay, in their order. -/
theorem put_others (xs : List α) (a : α) :
    (put key xs a).filter (fun x => key x≠key a)=xs.filter fun x => key x≠key a := by
  obtain ⟨l,x,r,rfl,hx,-,hput⟩ | ⟨-,hput⟩ := put_cases key xs a
  · simp [hput,hx]
  · simp [hput]

variable (key) in
theorem drop_others (xs : List α) (k : κ) :
    (drop key xs k).filter (fun x => key x≠k)=xs.filter fun x => key x≠k := by
  obtain ⟨l,x,r,rfl,hx,-,hdrop⟩ | ⟨-,hdrop⟩ := drop_cases key xs k
  · simp [hdrop,hx]
  · simp [hdrop]

theorem put_unique (h : Unique key xs) (a : α) : Unique key (put key xs a) := by
  obtain ⟨l,x,r,rfl,hx,-,hput⟩ | ⟨hne,hput⟩ := put_cases key xs a
  · rw [Unique,List.map_append,List.map_cons] at h
    rwa [hput,Unique,List.map_append,List.map_cons,← hx]
  · rw [hput,Unique,List.map_append,List.nodup_append]
    refine ⟨h,by simp,?_⟩
    intro b hb c hc
    obtain ⟨x,hx,rfl⟩ := List.mem_map.mp hb
    simp only [List.map_cons,List.map_nil,List.mem_singleton] at hc
    rw [hc]
    exact hne x hx

theorem drop_unique (h : Unique key xs) (k : κ) : Unique key (drop key xs k) := by
  obtain ⟨l,x,r,rfl,-,-,hdrop⟩ | ⟨-,hdrop⟩ := drop_cases key xs k
  · rw [hdrop]
    exact h.sublist (((List.sublist_cons_self x r).append_left l).map key)
  · rwa [hdrop]

theorem mem_put (h : Unique key xs) {x : α} : x∈put key xs a→x=a ∨ (x∈xs ∧ key x≠key a) := by
  obtain ⟨l,y,r,rfl,hy,hl,hput⟩ | ⟨hne,hput⟩ := put_cases key xs a
  · intro hx
    rw [hput] at hx
    rw [Unique,List.map_append,List.map_cons,List.nodup_append,List.nodup_cons] at h
    rcases List.mem_append.mp hx with hx | hx
    · exact Or.inr ⟨by simp [hx],hl x hx⟩
    · rcases List.mem_cons.mp hx with rfl | hx
      · exact Or.inl rfl
      · refine Or.inr ⟨by simp [hx],?_⟩
        intro heq
        exact h.2.1.1 (List.mem_map.mpr ⟨x,hx,heq.trans hy.symm⟩)
  · intro hx
    rw [hput] at hx
    rcases List.mem_append.mp hx with hx | hx
    · exact Or.inr ⟨hx,hne x hx⟩
    · exact Or.inl (List.mem_singleton.mp hx)

private theorem firstsFrom_unique {out : List α} (h : Unique key out) (xs : List α) : Unique key
    (firstsFrom key out xs) := by
  induction xs generalizing out with
  | nil => exact h
  | cons x xs ih =>
    apply ih
    split
    · exact h
    · rename_i hnone
      have hput := put_unique h x
      have hidx : indexOf key out (key x)=none := by simpa using hnone
      rwa [put,hidx] at hput

theorem firsts_unique (xs : List α) : Unique key (firsts key xs) :=
  firstsFrom_unique (show Unique key [] from List.nodup_nil) xs

theorem firstsFrom_eq {out : List α} (h : Unique key (out++xs)) : firstsFrom key out xs=out++xs := by
  induction xs generalizing out with
  | nil => simp [firstsFrom]
  | cons x xs ih =>
    have hnone : indexOf key out (key x)=none := by
      rw [indexOf_none]
      intro y hy heq
      rw [Unique,List.map_append,List.nodup_append] at h
      exact h.2.2 _ (List.mem_map_of_mem hy) _ (by simp) heq
    have hsplit : out++x::xs=(out++[x])++xs := by simp
    rw [hsplit] at h ⊢
    rw [firstsFrom,hnone]
    exact ih h

private theorem mem_of_firstsFrom {out : List α} {x : α} (h : x∈firstsFrom key out xs) : x∈out ∨ x∈xs := by
  induction xs generalizing out with
  | nil => exact Or.inl h
  | cons y xs ih =>
    rcases ih h with hmem | hmem
    · split at hmem
      · exact Or.inl hmem
      · rcases List.mem_append.mp hmem with hmem | hmem
        · exact Or.inl hmem
        · exact Or.inr (List.mem_singleton.mp hmem ▸ List.mem_cons_self)
    · exact Or.inr (List.mem_cons_of_mem _ hmem)

theorem mem_of_firsts {x : α} (h : x∈firsts key xs) : x∈xs := by
  rcases mem_of_firstsFrom h with hmem | hmem
  · cases hmem
  · exact hmem

/-- Entries changed without their keys. -/
theorem map_put {f : α→α} (hkey : ∀x,key (f x)=key x) (xs : List α) (a : α) :
    (put key xs a).map f=put key (xs.map f) (f a) := by
  have hidx : indexOf key (xs.map f) (key (f a))=indexOf key xs (key a) := by
    rw [indexOf,indexOf,List.findIdx?_map,hkey]
    congr 1
    funext x
    simp [hkey]
  rw [put,put,hidx]
  cases indexOf key xs (key a) with
  | none => simp
  | some i => simp [List.map_set]

/-- Where only the entry put is not wanted, its key is dropped. -/
theorem filter_put {p : α→Bool} (hp : ∀x∈xs,p x=true) (ha : p a=false) :
    (put key xs a).filter p=drop key xs (key a) := by
  obtain ⟨l,x,r,rfl,hx,hl,hput⟩ | ⟨hne,hput⟩ := put_cases key xs a
  · have hidx : indexOf key (l++x::r) (key a)=some l.length := by
      rw [indexOf,List.findIdx?_append,List.findIdx?_eq_none_iff.mpr (by simpa using hl)]
      simp [List.findIdx?_cons,hx]
    have hl' : l.filter p=l := List.filter_eq_self.mpr fun y hy => hp y (by simp [hy])
    have hr' : r.filter p=r := List.filter_eq_self.mpr fun y hy => hp y (by simp [hy])
    rw [hput,drop,hidx,List.filter_append,List.filter_cons,ha,hl',hr']
    simp [List.eraseIdx_append_of_length_le]
  · have hidx : indexOf key xs (key a)=none := indexOf_none.mpr hne
    rw [hput,drop,hidx,List.filter_append,List.filter_eq_self.mpr hp]
    simp [ha]

end Loftail.NamedEntries
