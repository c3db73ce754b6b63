import Loftail.HostBookmarks

/-! # What a write to the saved hosts leaves alone -/
namespace Loftail.HostBookmarkStore

section Kinds
variable {α : Type}

/-- What is read of an entry as it is written. -/
def EntryKind.readBack (k : EntryKind α) (x : α) : α := k.fromJson (k.toJson x)

/-- What the reader and the writer of a kind have in common. -/
structure EntryKind.Lawful (k : EntryKind α) : Prop where
  readBack : ∀x,k.readBack (k.readBack x)=k.readBack x
  name : ∀x,k.name (k.readBack x)=k.name x
  shown : ∀x,k.shown (k.readBack x)=k.shown x
  secret : ∀x,holdsPassword (.object (k.toJson x))=(k.savePassword x && !(k.password x).isEmpty)
  plain : ∀x,k.savePassword x=false → Json.find? (k.toJson x) "password"=none

end Kinds

private theorem authFromString_toString (a : Auth) : HostBookmark.authFromString
    (HostBookmark.authToString a)=a := by
  cases a <;> simp [HostBookmark.authFromString,HostBookmark.authToString,latin1]

theorem connectionFromString_toString (c : Connection) :
    RemoteType.connectionFromString (RemoteType.connectionToString c)=c := by
  cases c <;> simp [RemoteType.connectionFromString,RemoteType.connectionToString,latin1]

private theorem discoveryFromString_toString (d : Discovery) :
    RemoteType.discoveryFromString (RemoteType.discoveryToString d)=d := by
  cases d <;> simp [RemoteType.discoveryFromString,RemoteType.discoveryToString,latin1]

/-- A number read back is in range. -/
theorem toInt_idem (n fallback : ℤ) (h : -2^31≤fallback ∧ fallback < 2^31) :
    (Json.number ((Json.number n).toInt fallback)).toInt fallback=(Json.number n).toInt fallback := by
  by_cases hn : -2^31≤n ∧ n < 2^31
  · have hread : (Json.number n).toInt fallback=n := if_pos hn
    rw [hread,hread]
  · have hread : (Json.number n).toInt fallback=fallback := if_neg hn
    rw [hread]
    exact if_pos h

private theorem toArray_texts (xs : List Text) :
    ((Json.array (xs.map .string)).toArray.filter Json.isString).map Json.toText=xs := by
  have hall : (xs.map Json.string).filter Json.isString=xs.map Json.string := by
    apply List.filter_eq_self.mpr
    intro v hv
    obtain ⟨s,-,rfl⟩ := List.mem_map.mp hv
    rfl
  rw [Json.toArray,hall,List.map_map]
  exact List.map_id xs

theorem find?_hostPassword (b : HostBookmark) : Json.find? b.toJson "password"=
    if b.savePassword && !b.password.isEmpty then some (.string b.password) else none := by
  unfold HostBookmark.toJson Json.find?
  split <;> split <;> split <;> simp [List.lookup]

theorem find?_typePassword (t : RemoteType) : Json.find? t.toJson "password"=
    if t.savePassword && !t.password.isEmpty then some (.string t.password) else none := by
  unfold RemoteType.toJson Json.find?
  split <;> simp [List.lookup]

theorem readBack_host (b : HostBookmark) : hosts.readBack b=
    {b with port := (Json.number b.port).toInt HostBookmark.kDefaultPort,pollMs := (Json.number b.pollMs).toInt 1000
            tailStartBytes := toQint64 (toDouble b.tailStartBytes)
            password := if b.savePassword then b.password else []} := by
  obtain ⟨label,user,host,port,auth,keyFile,paths,pollMs,tailStartBytes,compress,connection,consolePreset,
    savePassword,password⟩ := b
  cases keyFile <;> cases consolePreset <;> cases savePassword <;> cases password <;>
    simp [EntryKind.readBack,hosts,HostBookmark.toJson,HostBookmark.fromJson,Json.value,Json.find?,
      List.lookup,Json.toText,Json.toBool,Json.toDoubleQint64,toDouble_idem,authFromString_toString,
        connectionFromString_toString,toArray_texts]

theorem readBack_type (t : RemoteType) : types.readBack t=
    {t with port := max 0 (min ((Json.number t.port).toInt 0) 65535),pollMs := (Json.number t.pollMs).toInt 1000
            tailStartBytes := toQint64 (toDouble t.tailStartBytes)
            password := if t.savePassword then t.password else []} := by
  cases hs : t.savePassword <;> cases hp : t.password <;>
    simp [EntryKind.readBack,types,RemoteType.toJson,RemoteType.fromJson,RemoteType.str,Json.value,
      Json.find?,List.lookup,
      Json.toText,Json.toBool,Json.toDoubleQint64,toDouble_idem,connectionFromString_toString,
      discoveryFromString_toString,hs,hp]

theorem hosts_lawful : hosts.Lawful where
  readBack b := by
    simp only [readBack_host,toQint64_idem]
    rw [toInt_idem _ _ (by decide),toInt_idem _ _ (by decide)]
    cases b.savePassword <;> rfl
  name b := by
    rw [readBack_host]
    rfl
  shown b := by
    rw [readBack_host]
    rfl
  secret b := by
    have hread : holdsPassword (.object b.toJson)=
      ((hosts.readBack b).savePassword && !(hosts.readBack b).password.isEmpty) := rfl
    change holdsPassword (.object b.toJson)=(b.savePassword && !b.password.isEmpty)
    rw [hread,readBack_host]
    cases b.savePassword <;> rfl
  plain b h := by
    change Json.find? b.toJson "password"=none
    have h' : b.savePassword=false := h
    simp [find?_hostPassword,h']

theorem types_lawful : types.Lawful where
  readBack t := by
    have hport : (Json.number (max 0 (min ((Json.number t.port).toInt 0) 65535))).toInt 0=
        max 0 (min ((Json.number t.port).toInt 0) 65535) := if_pos (by omega)
    simp only [readBack_type,toQint64_idem]
    rw [toInt_idem _ _ (by decide),hport]
    congr 1
    · omega
    · cases t.savePassword <;> rfl
  name t := by
    rw [readBack_type]
    rfl
  shown t := by
    rw [readBack_type]
    rfl
  secret t := by
    have hread : holdsPassword (.object t.toJson)=
      ((types.readBack t).savePassword && !(types.readBack t).password.isEmpty) := by
      have hvalue : (Json.value t.toJson "password").toText=RemoteType.str t.toJson "password" [] := by
        rw [Json.value,RemoteType.str]
        cases Json.find? t.toJson "password" <;> rfl
      change ((Json.value t.toJson "savePassword").toBool && !(Json.value t.toJson "password").toText.isEmpty)=_
      rw [hvalue]
      rfl
    change holdsPassword (.object t.toJson)=(t.savePassword && !t.password.isEmpty)
    rw [hread,readBack_type]
    cases t.savePassword <;> rfl
  plain t h := by
    change Json.find? t.toJson "password"=none
    have h' : t.savePassword=false := h
    simp [find?_typePassword,h']

/-- What a usable file has under a key. -/
def keyOf (f : ConfigFile) (key : String) : Option Json := (usableRoot f).bind fun root => Json.find? root key

def arrayOf (f : ConfigFile) (key : String) : List Json := ((keyOf f key).getD .null).toArray

section Entries
variable {α : Type} {fold : Text→Text} {k : EntryKind α} {f f' : ConfigFile} {e : WriteOutcome} {ok : Bool}

/-- An entry as it stands in the file. -/
def EntryKind.object (k : EntryKind α) (x : α) : Json := .object (k.toJson x)

/-- What the reader makes of entries that were written. -/
theorem readFrom_objects (out xs : List α) : k.readFrom fold out (xs.map k.object)=
    NamedEntries.firstsFrom (k.id fold) out ((xs.map k.readBack).filter fun x => k.shown x) := by
  induction xs generalizing out with
  | nil => rfl
  | cons x xs ih =>
    rw [List.map_cons,List.map_cons,EntryKind.object,EntryKind.readFrom]
    change (if !k.shown (k.readBack x) || (NamedEntries.indexOf (k.id fold) out
      (k.id fold (k.readBack x))).isSome then _
      else _)=_
    cases hshown : k.shown (k.readBack x) with
    | false => simpa [hshown] using ih out
    | true =>
      rw [List.filter_cons,hshown,if_pos rfl,NamedEntries.firstsFrom]
      cases (NamedEntries.indexOf (k.id fold) out (k.id fold (k.readBack x))).isSome with
      | false => exact ih (out++[k.readBack x])
      | true => exact ih out

theorem entries_eq (f : ConfigFile) : k.entries fold f=k.readFrom fold [] (arrayOf f k.key) := by
  rw [EntryKind.entries,arrayOf,keyOf]
  cases usableRoot f with
  | none => rfl
  | some root => rfl

/-- The entries read of a file that this version wrote: one of a name, each reads back as it is. -/
theorem entries_written (hk : k.Lawful) {xs : List α} (h : arrayOf f k.key=xs.map k.object) :
    NamedEntries.Unique (k.id fold) (k.entries fold f) ∧ ∀x∈k.entries fold f,k.readBack x=x ∧ k.shown x=true := by
  have heq : k.entries fold f=NamedEntries.firsts (k.id fold) ((xs.map k.readBack).filter fun x => k.shown x) := by
    rw [entries_eq,h,readFrom_objects]
    rfl
  rw [heq]
  refine ⟨NamedEntries.firsts_unique _,?_⟩
  intro x hx
  obtain ⟨hmem,hshown⟩ := List.mem_filter.mp (NamedEntries.mem_of_firsts hx)
  obtain ⟨y,-,rfl⟩ := List.mem_map.mp hmem
  exact ⟨hk.readBack y,hshown⟩

theorem EntryKind.Lawful.id (hk : k.Lawful) (fold : Text→Text) (x : α) : k.id fold (k.readBack x)=k.id fold x := by
  rw [EntryKind.id,EntryKind.id,hk.name]

/-- What is read once a list of entries without double names was written. -/
theorem entries_replaced (hk : k.Lawful) {xs : List α} (hu : NamedEntries.Unique (k.id fold) xs)
    (h : arrayOf f' k.key=xs.map k.object) :
    k.entries fold f'=(xs.map k.readBack).filter fun x => k.shown x := by
  rw [entries_eq,h,readFrom_objects]
  apply NamedEntries.firstsFrom_eq
  have hmap : NamedEntries.Unique (k.id fold) (xs.map k.readBack) := by
    rw [NamedEntries.Unique,List.map_map]
    have hcomp : k.id fold∘k.readBack=k.id fold := by
      funext x
      exact hk.id fold x
    rw [hcomp]
    exact hu
  exact hmap.sublist (List.filter_sublist.map (k.id fold))

end Entries

/-- A file that this version can have written, with any keys besides its own. -/
structure Written (f : ConfigFile) : Prop where
  stamp : f.json=none ∨ ∃root,f.json=some (.object root) ∧
    Json.find? root "schemaVersion"=some (.number kSchemaVersion)
  hostArray : ∃xs,arrayOf f "hosts"=List.map hosts.object xs
  typeArray : ∃xs,arrayOf f "types"=List.map types.object xs

/-- Whether an array holds a saved password. -/
def holdsSecret (f : ConfigFile) : Bool := (arrayOf f "hosts").any holdsPassword ||
    (arrayOf f "types").any holdsPassword

/-- What a write leaves: nothing changed, or the array of its key is the one written, every other key but the
stamp is as it was, and the file is private as far as it holds a password and could be restricted. -/
structure Wrote (key : String) (value : List Json) (e : WriteOutcome) (f f' : ConfigFile) (ok : Bool) : Prop where
  stamp : ∃root,f'.json=some (.object root) ∧ Json.find? root "schemaVersion"=some (.number kSchemaVersion)
  value : arrayOf f' key=value
  others : ∀other,other≠key → other≠"schemaVersion" → keyOf f' other=keyOf f other
  isPrivate : holdsSecret f'=true → (f'.isPrivate=true ∧ ok=true) ∨ (e.restricted=false ∧ ok=false)

theorem usableRoot_of_stamp {f : ConfigFile} {root : List (String×Json)} (h : f.json=some (.object root))
    (hs : Json.find? root "schemaVersion"=some (.number kSchemaVersion)) :
    usableRoot f=some root ∧ fileIsFromFuture f=false := by
  have hv : versionOf root=1 := by
    rw [versionOf,Json.value,hs]
    decide
  have hj : judge (versionOf root) kSchemaVersion=.usable := by
    rw [hv]
    decide
  constructor
  · rw [usableRoot,h]
    exact if_pos hj
  · rw [fileIsFromFuture,h]
    simp [hj]

theorem keyOf_eq (f : ConfigFile) (key : String) : keyOf f key=Json.find? ((usableRoot f).getD []) key := by
  rw [keyOf]
  cases usableRoot f <;> rfl

theorem Written.notFuture {f : ConfigFile} (h : Written f) : fileIsFromFuture f=false := by
  rcases h.stamp with hnone | ⟨root,hroot,hs⟩
  · rw [fileIsFromFuture,hnone]
  · exact (usableRoot_of_stamp hroot hs).2

/-- The root that `writeKey` writes. -/
def newRoot (key : String) (value : List Json) (f : ConfigFile) : List (String×Json) :=
  Json.insert key (.array value) (Json.insert "schemaVersion" (.number kSchemaVersion) ((usableRoot f).getD []))

section NewRoot
variable {f g : ConfigFile} {key : String} {value : List Json} (hne : key≠"schemaVersion")
  (hg : g.json=some (.object (newRoot key value f)))
include hne hg

omit hg in
theorem newRoot_stamp : Json.find? (newRoot key value f) "schemaVersion"=some (.number kSchemaVersion) := by
  rw [newRoot,Json.find?_insert_of_ne (Ne.symm hne),Json.find?_insert_self]

theorem keyOf_new (other : String) : keyOf g other=Json.find? (newRoot key value f) other := by
  rw [keyOf_eq,(usableRoot_of_stamp hg (newRoot_stamp hne)).1,Option.getD_some]

private theorem keyOf_new_of_ne {other : String} (ho : other≠key) (hs : other≠"schemaVersion") :
    keyOf g other=keyOf f other := by
  rw [keyOf_new hne hg,newRoot,Json.find?_insert_of_ne ho,Json.find?_insert_of_ne hs,keyOf_eq]

theorem arrayOf_new : arrayOf g key=value := by
  rw [arrayOf,keyOf_new hne hg,newRoot,Json.find?_insert_self]
  rfl

/-- The passwords of the array written and of the one kept are those of the file. -/
theorem holdsSecret_new (hkey : key="hosts" ∨ key="types") :
    (value.any holdsPassword || (["hosts","types"].filter (· ≠ key)).any fun k =>
      (Json.value (newRoot key value f) k).toArray.any holdsPassword)=holdsSecret g := by
  have hvalue : ∀other,(Json.value (newRoot key value f) other).toArray=arrayOf g other := by
    intro other
    rw [arrayOf,keyOf_new hne hg,Json.value]
  have hown := arrayOf_new hne hg
  rcases hkey with rfl | rfl
  · simp [hvalue,holdsSecret,hown]
  · simp [hvalue,holdsSecret,hown,Bool.or_comm]

end NewRoot

private theorem writeKey_wrote {f : ConfigFile} {key : String} {value : List Json} {secret : Bool}
    {e : WriteOutcome}
    (h : Written f) (hkey : key="hosts" ∨ key="types") (hs : secret=value.any holdsPassword) :
    writeKey e key value secret f=(f,false) ∨
      Wrote key value e f (writeKey e key value secret f).1 (writeKey e key value secret f).2 := by
  have hne : key≠"schemaVersion" := by
    rcases hkey with rfl | rfl <;> decide
  have hwrote : ∀g : ConfigFile,∀ok,g.json=some (.object (newRoot key value f)) →
      (holdsSecret g=true → (g.isPrivate=true ∧ ok=true) ∨ (e.restricted=false ∧ ok=false)) →
        Wrote key value e f g ok := by
    intro g ok hg hp
    exact ⟨⟨_,hg,newRoot_stamp hne⟩,arrayOf_new hne hg,fun other ho hso => keyOf_new_of_ne hne hg ho hso,hp⟩
  have hwrite : writeKey e key value secret f=
      if (value.any holdsPassword || (["hosts","types"].filter (· ≠ key)).any fun k =>
        (Json.value (newRoot key value f) k).toArray.any holdsPassword)
      then writePrivate e (.object (newRoot key value f)) f else write e (.object (newRoot key value f)) f := by
    rw [writeKey,h.notFuture,hs]
    rfl
  rw [hwrite]
  cases hc : e.committed with
  | false =>
    left
    split <;> simp [writePrivate,write,hc]
  | true =>
    right
    let g : ConfigFile := ⟨some (.object (newRoot key value f)),e.isPrivate⟩
    have hsecret := holdsSecret_new (g:=g) hne rfl hkey
    rw [hsecret]
    cases hg : holdsSecret g with
    | false =>
      rw [if_neg (by simp)]
      have heq : write e (.object (newRoot key value f)) f=(g,true) := by simp [write,hc,g]
      rw [heq]
      refine hwrote g true rfl ?_
      intro htrue
      simp [hg] at htrue
    | true =>
      rw [if_pos rfl]
      cases hr : e.restricted with
      | false =>
        have heq : writePrivate e (.object (newRoot key value f)) f=(g,false) :=
          by simp [writePrivate,write,hc,hr,g]
        rw [heq]
        exact hwrote g false rfl fun _ => Or.inr ⟨hr,rfl⟩
      | true =>
        have heq : writePrivate e (.object (newRoot key value f)) f=({g with isPrivate := true},true) := by
          simp [writePrivate,write,hc,hr,g]
        rw [heq]
        exact hwrote _ true rfl fun _ => Or.inl ⟨rfl,rfl⟩

section Steps
variable {α : Type} {fold : Text→Text} {k : EntryKind α} {f f' : ConfigFile} {e : WriteOutcome} {ok : Bool}

/-- The names that stand in an array of the file, as they are compared. -/
def EntryKind.namesIn (fold : Text→Text) (k : EntryKind α) (f : ConfigFile) : List Text :=
  (arrayOf f k.key).map fun v => k.id fold (k.fromJson v.toObject)

/-- What an operation about the name `n` does to the entries of its kind: nothing, or they become the ones
expected; those of other names stay, in their order, and no name comes to stand twice. -/
structure EntryKind.Changed (fold : Text→Text) (k : EntryKind α) (n : Text) (expected : List α)
    (f f' : ConfigFile) : Prop where
  entries : k.entries fold f'=k.entries fold f ∨ k.entries fold f'=expected
  others : (k.entries fold f').filter (fun x => k.id fold x≠n)=(k.entries fold f).filter fun x => k.id fold x≠n
  names : (k.namesIn fold f).Nodup→(k.namesIn fold f').Nodup

/-- What is read once an entry was saved. -/
def EntryKind.afterSave (fold : Text→Text) (k : EntryKind α) (x : α) (f : ConfigFile) : List α :=
  if k.shown x then NamedEntries.put (k.id fold) (k.entries fold f) (k.readBack x)
  else NamedEntries.drop (k.id fold) (k.entries fold f) (k.id fold x)

theorem EntryKind.Changed.refl {n : Text} {expected : List α} : k.Changed fold n expected f f :=
  ⟨Or.inl rfl,rfl,fun h => h⟩

theorem namesIn_objects (hk : k.Lawful) {xs : List α} (h : arrayOf f k.key=xs.map k.object) :
    k.namesIn fold f=xs.map (k.id fold) := by
  rw [EntryKind.namesIn,h,List.map_map]
  apply List.map_congr_left
  intro x _
  exact hk.id fold x

theorem map_readBack {xs : List α} (h : ∀x∈xs,k.readBack x=x ∧ k.shown x=true) : xs.map k.readBack=xs := by
  conv_rhs => rw [← List.map_id xs]
  exact List.map_congr_left fun x hx => (h x hx).1

private theorem saved_changed (hk : k.Lawful) {xs : List α} {x : α} (h : arrayOf f k.key=xs.map k.object)
    (hw : Wrote k.key ((NamedEntries.put (k.id fold) (k.entries fold f) x).map k.object) e f f' ok) :
    k.Changed fold (k.id fold x) (k.afterSave fold x f) f f' := by
  have hu : NamedEntries.Unique (k.id fold) (k.entries fold f) := (entries_written hk h).1
  have hall : ∀x∈k.entries fold f,k.readBack x=x ∧ k.shown x=true := (entries_written hk h).2
  have hput := NamedEntries.put_unique hu x
  have hread := entries_replaced hk hput hw.value
  have hfixed : (k.entries fold f).map k.readBack=k.entries fold f := map_readBack hall
  rw [NamedEntries.map_put (fun y => hk.id fold y),hfixed] at hread
  have hafter : k.entries fold f'=k.afterSave fold x f := by
    rw [hread,EntryKind.afterSave]
    cases hx : k.shown x with
    | true =>
      rw [if_pos rfl]
      apply List.filter_eq_self.mpr
      intro y hy
      rcases NamedEntries.mem_put hu hy with rfl | ⟨hy,-⟩
      · exact (hk.shown x).trans hx
      · exact (hall y hy).2
    | false =>
      rw [if_neg (by simp),NamedEntries.filter_put (fun y hy => (hall y hy).2) ((hk.shown x).trans hx),hk.id]
  refine ⟨Or.inr hafter,?_,?_⟩
  · rw [hafter,EntryKind.afterSave]
    split
    · have hothers := NamedEntries.put_others (k.id fold) (k.entries fold f) (k.readBack x)
      rwa [hk.id] at hothers
    · exact NamedEntries.drop_others _ _ _
  · intro _
    rw [namesIn_objects hk hw.value]
    exact hput

private theorem removed_changed (hk : k.Lawful) {xs : List α} {n : Text} (h : arrayOf f k.key=xs.map k.object)
    (hw : Wrote k.key ((NamedEntries.drop (k.id fold) (k.entries fold f) n).map k.object) e f f' ok) :
    k.Changed fold n (NamedEntries.drop (k.id fold) (k.entries fold f) n) f f' := by
  have hu : NamedEntries.Unique (k.id fold) (k.entries fold f) := (entries_written hk h).1
  have hall : ∀x∈k.entries fold f,k.readBack x=x ∧ k.shown x=true := (entries_written hk h).2
  have hdrop := NamedEntries.drop_unique hu n
  have hmem : ∀x∈NamedEntries.drop (k.id fold) (k.entries fold f) n,x∈k.entries fold f := by
    intro x hx
    obtain ⟨l,y,r,heq,-,-,hd⟩ | ⟨-,hd⟩ := NamedEntries.drop_cases (k.id fold) (k.entries fold f) n
    · rw [hd] at hx
      rw [heq]
      simp only [List.mem_append,List.mem_cons] at hx ⊢
      tauto
    · rwa [hd] at hx
  have hafter : k.entries fold f'=NamedEntries.drop (k.id fold) (k.entries fold f) n := by
    rw [entries_replaced hk hdrop hw.value,map_readBack fun x hx => hall x (hmem x hx)]
    exact List.filter_eq_self.mpr fun x hx => (hall x (hmem x hx)).2
  refine ⟨Or.inr hafter,?_,?_⟩
  · rw [hafter]
    exact NamedEntries.drop_others _ _ _
  · intro _
    rw [namesIn_objects hk hw.value]
    exact hdrop

theorem replaceEntries_wrote (hk : k.Lawful) (hf : Written f) (hkey : k.key="hosts" ∨ k.key="types") (xs : List α) :
    k.replaceEntries e xs f=(f,false) ∨
      Wrote k.key (xs.map k.object) e f (k.replaceEntries e xs f).1 (k.replaceEntries e xs f).2 := by
  apply writeKey_wrote hf hkey
  rw [List.any_map]
  congr 1
  funext x
  exact (hk.secret x).symm

end Steps

/-- What is done to the file. -/
inductive StoreOp
  | save (bookmark : HostBookmark)
  | remove (name : Text)
  | saveType (type : RemoteType)
  | removeType (name : Text)

namespace StoreOp

def perform (fold : Text→Text) (e : WriteOutcome) : StoreOp → ConfigFile → ConfigFile×Bool
  | .save bookmark => HostBookmarkStore.save fold e bookmark
  | .remove name => HostBookmarkStore.remove fold e name
  | .saveType type => HostBookmarkStore.saveType fold e type
  | .removeType name => HostBookmarkStore.removeType fold e name

/-- The array it is about. -/
def key : StoreOp→String
  | .save _ | .remove _ => "hosts"
  | .saveType _ | .removeType _ => "types"

/-- What it does to the entries of that array. -/
def Changes (fold : Text→Text) (f f' : ConfigFile) : StoreOp→Prop
  | .save b => hosts.Changed fold (nameKey fold b.displayName) (hosts.afterSave fold b f) f f'
  | .remove n => hosts.Changed fold (nameKey fold n) (NamedEntries.drop (hosts.id fold) (all fold f)
    (nameKey fold n)) f f'
  | .saveType t => types.Changed fold (nameKey fold t.name) (types.afterSave fold t f) f f'
  | .removeType n =>
    types.Changed fold (nameKey fold n) (NamedEntries.drop (types.id fold) (allTypes fold f) (nameKey fold n)) f f'

/-- An entry saved with its password not to be saved stands in the file without one. -/
def Plain (fold : Text→Text) (f' : ConfigFile) : StoreOp→Prop
  | .save b => b.savePassword=false→∀v∈arrayOf f' "hosts",
    hosts.id fold (HostBookmark.fromJson v.toObject)=nameKey fold b.displayName →
      Json.find? v.toObject "password"=none
  | .saveType t => t.savePassword=false→∀v∈arrayOf f' "types",
    types.id fold (RemoteType.fromJson v.toObject)=nameKey fold t.name → Json.find? v.toObject "password"=none
  | _ => True

/-- What one operation changes and leaves; a write that answered false may have taken the file's place all the
same. -/
structure Touches (fold : Text→Text) (op : StoreOp) (e : WriteOutcome) (f f' : ConfigFile) (ok : Bool) : Prop where
  otherKeys : ∀other,other≠op.key → other≠"schemaVersion" → keyOf f' other=keyOf f other
  changes : op.Changes fold f f'
  future : fileIsFromFuture f=true→f'=f
  isPrivate : f'=f ∨ (holdsSecret f'=true → (f'.isPrivate=true ∧ ok=true) ∨ (e.restricted=false ∧ ok=false))
  plain : ok=true ∨ f'≠f → op.Plain fold f'

end StoreOp

/-- A file reached from another: the operations, how their writes went and what they answered. -/
inductive Reached (fold : Text→Text) (f₀ : ConfigFile) : List (WriteOutcome×Bool) → ConfigFile→Prop
  | start : Reached fold f₀ [] f₀
  | step {steps : List (WriteOutcome×Bool)} {f : ConfigFile} (h : Reached fold f₀ steps f) (op : StoreOp)
    (e : WriteOutcome) :
      Reached fold f₀ (steps++[(e,(op.perform fold e f).2)]) (op.perform fold e f).1

section Operations
variable {fold : Text→Text} {f f₀ : ConfigFile} {e : WriteOutcome}

private theorem written_wrote {key : String} {value : List Json} {f' : ConfigFile} {ok : Bool} (hf : Written f)
    (hw : Wrote key value e f f' ok) (hkey : (key="hosts" ∧ ∃xs,value=List.map hosts.object xs) ∨
      (key="types" ∧ ∃xs,value=List.map types.object xs)) : Written f' := by
  have hother : ∀other,other≠key → other≠"schemaVersion" → arrayOf f' other=arrayOf f other := by
    intro other ho hs
    rw [arrayOf,hw.others other ho hs,arrayOf]
  rcases hkey with ⟨rfl,xs,hxs⟩ | ⟨rfl,xs,hxs⟩
  · refine ⟨Or.inr hw.stamp,⟨xs,hw.value.trans hxs⟩,?_⟩
    rw [hother "types" (by decide) (by decide)]
    exact hf.typeArray
  · refine ⟨Or.inr hw.stamp,?_,⟨xs,hw.value.trans hxs⟩⟩
    rw [hother "hosts" (by decide) (by decide)]
    exact hf.hostArray

/-- What an operation on one kind comes to: the file is as it was, or an array of entries was written. -/
structure EntryKind.Stepped {α : Type} (fold : Text→Text) (k : EntryKind α) (n : Text) (expected : List α)
    (e : WriteOutcome) (f f' : ConfigFile) (ok : Bool) : Prop where
  wrote : f'=f ∨ ∃xs : List α,Wrote k.key (xs.map k.object) e f f' ok
  changed : k.Changed fold n expected f f'

section Kind
variable {α : Type} {k : EntryKind α} {xs : List α}

theorem save_stepped (hk : k.Lawful) (hf : Written f) (hkey : k.key="hosts" ∨ k.key="types")
    (h : arrayOf f k.key=xs.map k.object) (x : α) : k.Stepped fold (k.id fold x) (k.afterSave fold x f) e f
      (k.saveEntry fold e x f).1 (k.saveEntry fold e x f).2 := by
  rcases replaceEntries_wrote (e:=e) hk hf hkey (NamedEntries.put (k.id fold) (k.entries fold f) x) with heq | hw
  · rw [EntryKind.saveEntry,heq]
    exact ⟨Or.inl rfl,.refl⟩
  · exact ⟨Or.inr ⟨_,hw⟩,saved_changed hk h hw⟩

/-- Saved without its password, an entry stands in the file without one. -/
theorem save_plain (hk : k.Lawful) (hf : Written f) (hkey : k.key="hosts" ∨ k.key="types")
    (h : arrayOf f k.key=xs.map k.object) {x : α} (hx : k.savePassword x=false)
    (hwritten : (k.saveEntry fold e x f).2=true ∨ (k.saveEntry fold e x f).1≠f) {v : Json}
    (hv : v∈arrayOf (k.saveEntry fold e x f).1 k.key)
    (hn : k.id fold (k.fromJson v.toObject)=k.id fold x) : Json.find? v.toObject "password"=none := by
  rcases replaceEntries_wrote (e:=e) hk hf hkey (NamedEntries.put (k.id fold) (k.entries fold f) x) with heq | hw
  · rw [EntryKind.saveEntry,heq] at hwritten
    exact (hwritten.elim Bool.false_ne_true fun hne => hne rfl).elim
  · have hvalue : arrayOf (k.saveEntry fold e x f).1 k.key=_ := hw.value
    rw [hvalue] at hv
    obtain ⟨y,hy,rfl⟩ := List.mem_map.mp hv
    have hu : NamedEntries.Unique (k.id fold) (k.entries fold f) := (entries_written hk h).1
    rcases NamedEntries.mem_put hu hy with rfl | ⟨-,hne⟩
    · exact hk.plain y hx
    · exact absurd ((hk.id fold y).symm.trans hn) hne

theorem remove_stepped (hk : k.Lawful) (hf : Written f) (hkey : k.key="hosts" ∨ k.key="types")
    (h : arrayOf f k.key=xs.map k.object) (n : Text) :
    k.Stepped fold (nameKey fold n) (NamedEntries.drop (k.id fold) (k.entries fold f) (nameKey fold n)) e f
      (k.removeEntry fold e n f).1 (k.removeEntry fold e n f).2 := by
  rw [EntryKind.removeEntry]
  split
  · exact ⟨Or.inl rfl,.refl⟩
  · rcases replaceEntries_wrote (e:=e) hk hf hkey (NamedEntries.drop (k.id fold) (k.entries fold f)
      (nameKey fold n))
      with heq | hw
    · rw [heq]
      exact ⟨Or.inl rfl,.refl⟩
    · exact ⟨Or.inr ⟨_,hw⟩,removed_changed hk h hw⟩

end Kind

variable (fold) in
theorem StoreOp.perform_stepped (hf : Written f) (op : StoreOp) (e : WriteOutcome) :
    ((op.perform fold e f).1=f ∨ ∃value,Wrote op.key value e f (op.perform fold e f).1 (op.perform fold e f).2 ∧
      ((op.key="hosts" ∧ ∃xs,value=List.map hosts.object xs) ∨
        (op.key="types" ∧ ∃xs,value=List.map types.object xs))) ∧
      op.Changes fold f (op.perform fold e f).1 := by
  obtain ⟨hs,hhs⟩ := hf.hostArray
  obtain ⟨ts,hts⟩ := hf.typeArray
  cases op with
  | save b =>
    have hstep : hosts.Stepped fold _ _ e f _ _ := save_stepped hosts_lawful hf (Or.inl rfl) hhs b
    exact ⟨hstep.wrote.imp_right fun ⟨xs,hw⟩ => ⟨_,hw,Or.inl ⟨rfl,xs,rfl⟩⟩,hstep.changed⟩
  | remove n =>
    have hstep : hosts.Stepped fold _ _ e f _ _ := remove_stepped hosts_lawful hf (Or.inl rfl) hhs n
    exact ⟨hstep.wrote.imp_right fun ⟨xs,hw⟩ => ⟨_,hw,Or.inl ⟨rfl,xs,rfl⟩⟩,hstep.changed⟩
  | saveType t =>
    have hstep : types.Stepped fold _ _ e f _ _ := save_stepped types_lawful hf (Or.inr rfl) hts t
    exact ⟨hstep.wrote.imp_right fun ⟨xs,hw⟩ => ⟨_,hw,Or.inr ⟨rfl,xs,rfl⟩⟩,hstep.changed⟩
  | removeType n =>
    have hstep : types.Stepped fold _ _ e f _ _ := remove_stepped types_lawful hf (Or.inr rfl) hts n
    exact ⟨hstep.wrote.imp_right fun ⟨xs,hw⟩ => ⟨_,hw,Or.inr ⟨rfl,xs,rfl⟩⟩,hstep.changed⟩

private theorem StoreOp.perform_written (hf : Written f) (op : StoreOp) (e : WriteOutcome) : Written
    (op.perform fold e f).1 := by
  obtain ⟨hsame | ⟨value,hw,hkey⟩,-⟩ := StoreOp.perform_stepped fold hf op e
  · rwa [hsame]
  · exact written_wrote hf hw hkey

private theorem StoreOp.perform_touches (hf : Written f) (op : StoreOp) (e : WriteOutcome) :
    op.Touches fold e f (op.perform fold e f).1 (op.perform fold e f).2 := by
  obtain ⟨hstep,hchanges⟩ := StoreOp.perform_stepped fold hf op e
  obtain ⟨hs,hhs⟩ := hf.hostArray
  obtain ⟨ts,hts⟩ := hf.typeArray
  refine ⟨?_,hchanges,?_,?_,?_⟩
  · intro other ho hso
    rcases hstep with hsame | ⟨value,hw,-⟩
    · rw [hsame]
    · exact hw.others other ho hso
  · intro hfuture
    rw [hf.notFuture] at hfuture
    cases hfuture
  · exact hstep.imp_right fun ⟨value,hw,_⟩ => hw.isPrivate
  · intro hwritten
    cases op with
    | save b => exact fun hb v hv hn => save_plain hosts_lawful hf (Or.inl rfl) hhs hb hwritten hv hn
    | saveType t => exact fun ht v hv hn => save_plain types_lawful hf (Or.inr rfl) hts ht hwritten hv hn
    | remove n => trivial
    | removeType n => trivial

/-- A file of a newer version is read as nothing. -/
theorem entries_future {α : Type} {k : EntryKind α} (h : fileIsFromFuture f=true) : k.entries fold f=[] := by
  have hnone : usableRoot f=none := by
    rw [fileIsFromFuture] at h
    rw [usableRoot]
    split
    · rename_i root heq
      rw [heq] at h
      have hj : judge (versionOf root) kSchemaVersion=.fromFuture := of_decide_eq_true h
      rw [hj]
      exact if_neg (by decide)
    · rfl
  rw [EntryKind.entries,hnone]

private theorem replaceEntries_future {α : Type} {k : EntryKind α} (h : fileIsFromFuture f=true) (xs : List α) :
    k.replaceEntries e xs f=(f,false) := by
  rw [EntryKind.replaceEntries,writeKey,if_pos h]

variable (fold) in
/-- Nothing is written over a file of a newer version. -/
theorem StoreOp.perform_future (h : fileIsFromFuture f=true) (op : StoreOp) (e : WriteOutcome) :
    (op.perform fold e f).1=f ∧ op.Touches fold e f (op.perform fold e f).1 (op.perform fold e f).2 := by
  have hnone : ∀{α : Type} (k : EntryKind α) (n : Text),NamedEntries.indexOf (k.id fold)
    (k.entries fold f) n=none := by
    intro α k n
    rw [entries_future h]
    rfl
  have hremove : ∀{α : Type} (k : EntryKind α) (n : Text),k.removeEntry fold e n f=(f,true) := by
    intro α k n
    rw [EntryKind.removeEntry,hnone]
    rfl
  have hsave : ∀{α : Type} (k : EntryKind α) (x : α),k.saveEntry fold e x f=(f,false) := fun k x =>
    replaceEntries_future h _
  have hunwritten (op : StoreOp) : false=true ∨ f≠f → op.Plain fold f :=
    fun hwritten => (hwritten.elim Bool.false_ne_true fun hne => hne rfl).elim
  cases op with
  | save b =>
    have heq : (StoreOp.save b).perform fold e f=(f,false) := hsave hosts b
    rw [heq]
    exact ⟨rfl,fun _ _ _ => rfl,.refl,fun _ => rfl,Or.inl rfl,hunwritten _⟩
  | remove n =>
    have heq : (StoreOp.remove n).perform fold e f=(f,true) := hremove hosts n
    rw [heq]
    exact ⟨rfl,fun _ _ _ => rfl,.refl,fun _ => rfl,Or.inl rfl,fun _ => trivial⟩
  | saveType t =>
    have heq : (StoreOp.saveType t).perform fold e f=(f,false) := hsave types t
    rw [heq]
    exact ⟨rfl,fun _ _ _ => rfl,.refl,fun _ => rfl,Or.inl rfl,hunwritten _⟩
  | removeType n =>
    have heq : (StoreOp.removeType n).perform fold e f=(f,true) := hremove types n
    rw [heq]
    exact ⟨rfl,fun _ _ _ => rfl,.refl,fun _ => rfl,Or.inl rfl,fun _ => trivial⟩

/-- A file that this version can have written, or one of a newer version. -/
def Sound (f : ConfigFile) : Prop := Written f ∨ fileIsFromFuture f=true

theorem Sound.touches (h : Sound f) (op : StoreOp) (e : WriteOutcome) :
    Sound (op.perform fold e f).1 ∧ op.Touches fold e f (op.perform fold e f).1 (op.perform fold e f).2 := by
  rcases h with hw | hf
  · exact ⟨Or.inl (op.perform_written hw e),op.perform_touches hw e⟩
  · obtain ⟨hsame,ht⟩ := StoreOp.perform_future fold hf op e
    exact ⟨Or.inr (hsame.symm ▸ hf),ht⟩

theorem Reached.sound {steps : List (WriteOutcome×Bool)} (h : Reached fold f₀ steps f)
    (h₀ : Sound f₀) : Sound f := by
  induction h with
  | start => exact h₀
  | step _ op e ih => exact (Sound.touches ih op e).1

/-- Every operation of a run over a file that this version can have written, or over one of a newer version,
touches only the entry of its name; and the file is private while it holds a saved password, unless a write
could not restrict it and answered so. -/
theorem writes_touch_their_entry {steps : List (WriteOutcome×Bool)} (h₀ : Sound f₀)
    (hp : holdsSecret f₀=true→f₀.isPrivate=true) (h : Reached fold f₀ steps f) :
    (∀op e,StoreOp.Touches fold op e f (op.perform fold e f).1 (op.perform fold e f).2) ∧
      (holdsSecret f=true → f.isPrivate=true ∨ ∃s∈steps,s.1.restricted=false ∧ s.2=false) := by
  refine ⟨fun op e => (Sound.touches (h.sound h₀) op e).2,?_⟩
  induction h with
  | start => exact fun hs => Or.inl (hp hs)
  | step hrun op e ih =>
    intro hs
    rcases (Sound.touches (hrun.sound h₀) op e).2.isPrivate with hsame | hwrote
    · rw [hsame] at hs ⊢
      rcases ih hs with hpriv | ⟨s,hmem,hfailed⟩
      · exact Or.inl hpriv
      · exact Or.inr ⟨s,List.mem_append_left _ hmem,hfailed⟩
    · rcases hwrote hs with ⟨hpriv,-⟩ | hfailed
      · exact Or.inl hpriv
      · exact Or.inr ⟨_,List.mem_append_right _ List.mem_cons_self,hfailed⟩

/-- A host with a password to be saved. -/
def secretHost : HostBookmark :=
  ⟨[],[],[0x68],22,.password,[],[],1000,0,false,.ssh,[],true,[0x78]⟩

/-- No file yet. -/
theorem sound_absent (p : Bool) : Sound ⟨none,p⟩ := Or.inl ⟨Or.inl rfl,⟨[],rfl⟩,⟨[],rfl⟩⟩

/-- A host and a type are saved, and the type is removed again. -/
theorem writes_touch_their_entry_saved :
    ∃f : ConfigFile,holdsSecret f=true ∧ f.isPrivate=true ∧ (all id f).length=1 ∧
      ∀op e,StoreOp.Touches id op e f (op.perform id e f).1 (op.perform id e f).2 := by
  let e : WriteOutcome := ⟨true,false,true⟩
  let t : RemoteType := ⟨[0x63],.bonjour,[],[],[],[],[],.ssh,0,[],false,[],[],1000,0,false,[]⟩
  have hstart : Reached id ⟨none,false⟩ [] ⟨none,false⟩ := .start
  have hrun := ((hstart.step (.save secretHost) e).step (.saveType t) e).step (.removeType [0x63]) e
  have hkept := writes_touch_their_entry (sound_absent false) (by decide) hrun
  exact ⟨_,by decide +kernel,by decide +kernel,by decide +kernel,hkept.1⟩

/-- The password is saved, and the file cannot be restricted to its owner. -/
theorem unrestricted_secret :
    ¬∀(fold : Text→Text) (f₀ f : ConfigFile) (steps : List (WriteOutcome×Bool)),Sound f₀ →
      (holdsSecret f₀=true→f₀.isPrivate=true)→Reached fold f₀ steps f→holdsSecret f=true → f.isPrivate=true := by
  intro h
  let e : WriteOutcome := ⟨true,false,false⟩
  have hstart : Reached id ⟨none,false⟩ [] ⟨none,false⟩ := .start
  have hrun := hstart.step (.save secretHost) e
  have hpriv := h id _ _ _ (sound_absent false) (by decide) hrun (by decide +kernel)
  revert hpriv
  decide +kernel

end Operations

end Loftail.HostBookmarkStore
