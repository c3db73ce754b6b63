import Loftail.CriteriaJson

/-! # Saved criteria against the criteria they were saved from -/
namespace Loftail
open PortableCriteria

variable {p : Platform} {iso : IsoDates}

/-! ## Names -/

private theorem mem_addName {x s : Text} {out : List Text} : x∈addName out s ↔ x∈out ∨ (x=s ∧ x≠[]) := by
  rw [addName]
  split
  · rename_i h
    have hs : s≠[] := by
      intro hs
      simp [hs] at h
    constructor
    · intro hx
      rcases List.mem_append.mp hx with hx | hx
      · exact .inl hx
      · obtain rfl := List.mem_singleton.mp hx
        exact .inr ⟨rfl,hs⟩
    · rintro (hx | ⟨rfl,-⟩)
      · exact List.mem_append_left _ hx
      · simp
  · rename_i h
    constructor
    · exact .inl
    · rintro (hx | ⟨rfl,hx⟩)
      · exact hx
      · simpa [hx] using h

private theorem mem_foldl_addName {x : Text} {names out : List Text} :
    x∈names.foldl addName out ↔ x∈out ∨ (x∈names ∧ x≠[]) := by
  induction names generalizing out with
  | nil => simp
  | cons s names ih =>
    rw [List.foldl_cons,ih,mem_addName,List.mem_cons]
    tauto

/-- What a name list is after it was written and read. -/
def keptNames (p : Platform) (names : List Text) : List Text := arrayToNames (namesToArray p names)

theorem mem_keptNames {x : Text} {names : List Text} : x∈keptNames p names ↔ x∈names ∧ x≠[] := by
  rw [keptNames,arrayToNames,mem_foldl_addName,namesToArray,List.map_map]
  have htext : Json.toText∘Json.string=id := funext fun _ => rfl
  simp [htext]

/-- All that was named is the empty name. -/
def namesNothing (names : List Text) : Bool := names.all List.isEmpty

theorem keptNames_isEmpty (names : List Text) : (keptNames p names).isEmpty=namesNothing names := by
  rw [Bool.eq_iff_iff,List.isEmpty_iff,List.eq_nil_iff_forall_not_mem,namesNothing,List.all_eq_true]
  constructor
  · intro h x hx
    by_contra hne
    exact h x (mem_keptNames.mpr ⟨hx,by simpa using hne⟩)
  · intro h x hx
    obtain ⟨hx,hne⟩ := mem_keptNames.mp hx
    exact hne (List.isEmpty_iff.mp (h x hx))

/-! ## One reading after one writing -/

namespace PortableCriteria

/-- The list was not empty and nothing of it is left, so that it reads as one that covers everything. -/
def rereadCoverage (coversAll : Bool) (names : List Text) : Bool :=
  coversAll || (!names.isEmpty && namesNothing names)

def reread (iso : IsoDates) (c : PortableCriteria p) : PortableCriteria p :=
  {c with
   minPriority := if c.minPriority=.unknown then .trace else c.minPriority
   loggerNames := keptNames p c.loggerNames
   threadNames := keptNames p c.threadNames
   loggerCoversAll := rereadCoverage c.loggerCoversAll c.loggerNames
   threadCoversAll := rereadCoverage c.threadCoversAll c.threadNames
   start := iso.reread c.start
   stop := iso.reread c.stop}

private theorem at_indexOf (q : Priority) :
    PriorityChoice.at (PriorityChoice.indexOf q)=if q=.unknown then .trace else q := by
  cases q <;> rfl

private theorem indexOf_bounds (q : Priority) : -2^31≤PriorityChoice.indexOf q ∧
    PriorityChoice.indexOf q < 2^31 := by
  cases q <;> decide

private theorem toInt_indexOf (q : Priority) :
    (Json.number (PriorityChoice.indexOf q)).toInt 0=PriorityChoice.indexOf q :=
  if_pos (indexOf_bounds q)

theorem lookup_optional {key other : String} {written : Bool} {v : Json} :
    List.lookup other (Json.optional written key v)=if (other==key && written)=true then some v else none := by
  cases written <;> cases h : other==key <;> simp [Json.optional,List.lookup,h]

theorem lookup_coverageEntry {key other : String} {coversAll : Bool} {names : List Text} :
    List.lookup other (coverageEntry key coversAll names)=
      if (other==key && coversAll != names.isEmpty)=true then some (.bool coversAll) else none :=
  lookup_optional

private theorem readCoverage_eq {o : List (String×Json)} {key : String} {coversAll : Bool} {names : List Text}
    (h : Json.find? o key=if coversAll != names.isEmpty then some (.bool coversAll) else none) :
    readCoverage o key (keptNames p names)=rereadCoverage coversAll names := by
  rw [readCoverage,Json.value,h,keptNames_isEmpty,rereadCoverage]
  cases coversAll <;> cases names <;> simp [Json.toBoolOr,namesNothing]

/-- What follows the keys that are written only where they say something. -/
theorem value_toJson (iso : IsoDates) (c : PortableCriteria p) :
    Json.value (c.toJson iso) "textEnabled"=.bool c.text.enabled ∧
    Json.value (c.toJson iso) "text"=.string c.text.matcher.pattern ∧
    Json.value (c.toJson iso) "textRegex"=.bool c.text.matcher.regex ∧
    Json.value (c.toJson iso) "textCase"=.bool (decide (c.text.matcher.cs=.sensitive)) ∧
    Json.value (c.toJson iso) "textNegate"=.bool c.text.negate ∧
    Json.value (c.toJson iso) "timeEnabled"=.bool c.timeEnabled ∧
    Json.value (c.toJson iso) "timeStart"=.string (iso.toText c.start) ∧
    Json.value (c.toJson iso) "timeEnd"=.string (iso.toText c.stop) := by
  simp [Json.value,Json.find?,toJson,List.lookup,List.lookup_append,lookup_optional,lookup_coverageEntry]

private theorem restrictive_toJson (iso : IsoDates) (c : PortableCriteria p) :
    (Json.value (c.toJson iso) "loggerRestrictive").toBoolOr false=c.loggerRestrictive ∧
    (Json.value (c.toJson iso) "threadRestrictive").toBoolOr false=c.threadRestrictive := by
  cases hlogger : c.loggerRestrictive <;> cases hthread : c.threadRestrictive <;>
    simp [Json.value,Json.find?,toJson,List.lookup,List.lookup_append,lookup_optional,lookup_coverageEntry,
      hlogger,hthread,Json.toBoolOr]

private theorem coverage_toJson (iso : IsoDates) (c : PortableCriteria p) :
    readCoverage (c.toJson iso) "loggerCoversAll" (keptNames p c.loggerNames)=
      rereadCoverage c.loggerCoversAll c.loggerNames ∧
    readCoverage (c.toJson iso) "threadCoversAll" (keptNames p c.threadNames)=
      rereadCoverage c.threadCoversAll c.threadNames := by
  constructor <;> apply readCoverage_eq <;>
    simp [Json.find?,toJson,List.lookup,List.lookup_append,lookup_optional,lookup_coverageEntry]

theorem fromJson_toJson (hiso : iso.Lawful) (c : PortableCriteria p) : fromJson p iso
    (c.toJson iso)=c.reread iso := by
  obtain ⟨htextEnabled,hpattern,hregex,hcase,hnegate,htimeEnabled,hstart,hstop⟩ := value_toJson iso c
  obtain ⟨hloggerRestrictive,hthreadRestrictive⟩ := restrictive_toJson iso c
  obtain ⟨hloggerCovers,hthreadCovers⟩ := coverage_toJson iso c
  have hpriorityEnabled : Json.value (c.toJson iso) "priorityEnabled"=.bool c.priorityEnabled := rfl
  have hpriority : Json.value (c.toJson iso) "minPriorityIndex"=.number
    (PriorityChoice.indexOf c.minPriority) := rfl
  have hloggerEnabled : Json.value (c.toJson iso) "loggerEnabled"=.bool c.loggerEnabled := rfl
  have hthreadEnabled : Json.value (c.toJson iso) "threadEnabled"=.bool c.threadEnabled := rfl
  have hloggers : arrayToNames (Json.value (c.toJson iso) "loggerChecked").toArray=keptNames p c.loggerNames := rfl
  have hthreads : arrayToNames (Json.value (c.toJson iso) "threadChecked").toArray=keptNames p c.threadNames := rfl
  have hsensitive : (if decide (c.text.matcher.cs=.sensitive)=true then
    CaseSensitivity.sensitive else .insensitive)=
      c.text.matcher.cs := by
    cases c.text.matcher.cs <;> rfl
  simp only [fromJson,reread,htextEnabled,hpattern,hregex,hcase,hnegate,htimeEnabled,hstart,hstop,
    hloggerRestrictive,
    hthreadRestrictive,hloggers,hthreads,hloggerCovers,hthreadCovers,hpriorityEnabled,hpriority,hloggerEnabled,
    hthreadEnabled,Json.toBoolOr_bool,Json.toText,toInt_indexOf,at_indexOf,hiso.reread,hsensitive,← c.compiled]

end PortableCriteria

/-! ## Selections -/

def TextFilter.accepts (p : Platform) (t : TextFilter) (message : Text) : Bool :=
  if !t.active then true else (t.matcher.matches p message)!=t.negate

/-- Nothing but empty names, on an axis that does not cover everything. -/
def emptied (enabled coversAll : Bool) (names : List Text) : Bool :=
  enabled && !coversAll && !names.isEmpty && namesNothing names

namespace PortableCriteria

/-- Whole seconds, which the form can print. -/
def BoundsKept (iso : IsoDates) (c : PortableCriteria p) : Prop :=
  ∀t,c.start=some t ∨ c.stop=some t → iso.printable t=true ∧ t.msec=0

/-- One axis admits no record at all, whatever the others say. -/
def AdmitsNothing (c : PortableCriteria p) (absent : AbsentField) (noOps : NoOpAxes) : Prop :=
  (∀message,c.text.accepts p message=false) ∨
  (absent=.doesNotMatch ∧ c.loggerEnabled=true ∧ namesNothing c.loggerNames=true ∧
    (noOps=.collapse → c.loggerCoversAll=false ∧ c.loggerNames=[]))

/-- What the axes lose is not seen. -/
def Survives (iso : IsoDates) (c : PortableCriteria p) (absent : AbsentField) (noOps : NoOpAxes) : Prop :=
  c.AdmitsNothing absent noOps ∨
  ((c.timeEnabled=true → c.BoundsKept iso) ∧
    (noOps=.collapse → emptied c.loggerEnabled c.loggerCoversAll c.loggerNames=false ∧
      emptied c.threadEnabled c.threadCoversAll c.threadNames=false ∧
      (absent=.doesNotMatch → c.priorityEnabled=true → c.minPriority≠.unknown)))

end PortableCriteria

theorem accepts_iff {fs : FilterSet} {r : Record} {message : Text} : fs.accepts p r message=true ↔
    fs.acceptsPriority r=true ∧ fs.acceptsLogger r=true ∧ fs.acceptsThread r=true ∧ fs.acceptsTime r=true ∧
      fs.text.accepts p message=true := by
  have htext : (!fs.text.active || fs.acceptsText p message)=fs.text.accepts p message := by
    cases hactive : fs.text.active <;> simp [FilterSet.acceptsText,TextFilter.accepts,hactive]
  simp only [FilterSet.accepts,FilterSet.acceptsIntegerAxes,htext,Bool.and_eq_true,and_assoc]

/-! ## What an axis makes of a list that was saved -/

theorem InternTable.idOf_nil (table : InternTable) : table.idOf []=some 0 := by
  cases hnames : table.names with
  | nil => simpa [hnames] using table.zero
  | cons first rest =>
    have hfirst : first=[] := by simpa [hnames] using table.zero
    simp [InternTable.idOf,hnames,hfirst]

/-- An id that names something is found through the names that are left. -/
theorem resolveIds_keptNames (table : InternTable) {names : List Text} {id : ℕ} (h : id≠0) :
    id∈MatchCriteria.resolveIds table (keptNames p names) ↔ id∈MatchCriteria.resolveIds table names := by
  rw [MatchCriteria.resolveIds,MatchCriteria.resolveIds,List.mem_filterMap,List.mem_filterMap]
  constructor
  · rintro ⟨n,hn,hid⟩
    exact ⟨n,(mem_keptNames.mp hn).1,hid⟩
  · rintro ⟨n,hn,hid⟩
    apply Exists.intro n
    apply And.intro _ hid
    apply mem_keptNames.mpr
    apply And.intro hn
    rintro rfl
    rw [InternTable.idOf_nil] at hid
    exact h (Option.some.inj hid).symm

/-- A name axis on a record: what it does without the name, and with it. -/
def nameAxis (absentMatches on : Bool) (ids : List ℕ) (id : ℕ) : Bool :=
  !on || (if id=0 then absentMatches else ids.contains id)

theorem nameAxis_keptNames (table : InternTable) (absentMatches on : Bool) (names : List Text) (id : ℕ) :
    nameAxis absentMatches on (MatchCriteria.resolveIds table (keptNames p names)) id=
      nameAxis absentMatches on (MatchCriteria.resolveIds table names) id := by
  by_cases h : id=0
  · simp [nameAxis,h]
  · have hmem : id∈MatchCriteria.resolveIds table (keptNames p names) ↔ id∈MatchCriteria.resolveIds table names :=
      resolveIds_keptNames table h
    simp [nameAxis,h,List.contains_eq_mem,hmem]

/-- Nothing but empty names admit only what has no name. -/
theorem nameAxis_nothing (table : InternTable) {absentMatches on : Bool} {names : List Text} {id : ℕ}
    (hnames : namesNothing names=true) (hid : id≠0) :
    nameAxis absentMatches on (MatchCriteria.resolveIds table names) id= !on := by
  have hids : id∉MatchCriteria.resolveIds table names := by
    intro h
    obtain ⟨n,hn,hfound⟩ := List.mem_filterMap.mp h
    obtain rfl := List.isEmpty_iff.mp (List.all_eq_true.mp hnames n hn)
    rw [table.idOf_nil] at hfound
    exact hid (Option.some.inj hfound).symm
  simp [nameAxis,hid,List.contains_eq_mem,hids]

private theorem rereadCoverage_eq {enabled coversAll : Bool} {names : List Text} (henabled : enabled=true)
    (h : emptied enabled coversAll names=false) : rereadCoverage coversAll names=coversAll := by
  cases coversAll
  · simpa [emptied,rereadCoverage,henabled] using h
  · rfl

/-! ## The five axes of what was read -/

section Resolved
variable {c : MatchCriteria} {absent : AbsentField} {noOps : NoOpAxes} {loggers threads : InternTable}
  {format : LogFormat} {displayZone : Zone} {r : Record}

theorem acceptsLogger_resolve : (c.resolve loggers threads format displayZone absent noOps).acceptsLogger r=
    nameAxis (decide (absent=.matches)) (c.loggerEnabled && !(decide (noOps=.collapse) && c.loggerCoversAll))
      (MatchCriteria.resolveIds loggers c.loggerNames) r.loggerId := by
  simp [FilterSet.acceptsLogger,FilterSet.axis,MatchCriteria.resolve,nameAxis]

theorem acceptsThread_resolve : (c.resolve loggers threads format displayZone absent noOps).acceptsThread r=
    nameAxis (decide (absent=.matches))
      (c.threadEnabled && !(decide (noOps=.collapse) && c.threadCoversAll) && decide (format.threadGroup>0))
      (MatchCriteria.resolveIds threads c.threadNames) r.threadId := by
  simp [FilterSet.acceptsThread,FilterSet.axis,MatchCriteria.resolve,nameAxis]

end Resolved

section Axes
variable {c : PortableCriteria p} {absent : AbsentField} {noOps : NoOpAxes} {loggers threads : InternTable}
  {format : LogFormat} {displayZone : Zone} {r : Record}

private theorem acceptsPriority_reread
    (h : noOps=.collapse → absent=.doesNotMatch → c.priorityEnabled=true → c.minPriority≠.unknown) :
    ((c.reread iso).resolve loggers threads format displayZone absent noOps).acceptsPriority r=
      (c.resolve loggers threads format displayZone absent noOps).acceptsPriority r := by
  by_cases hmin : c.minPriority=.unknown
  · cases hon : c.priorityEnabled
    · simp [FilterSet.acceptsPriority,FilterSet.axis,MatchCriteria.resolve,reread,hon]
    · cases noOps <;> cases absent <;> cases hp : r.priority <;>
        simp_all [FilterSet.acceptsPriority,FilterSet.axis,MatchCriteria.resolve,reread,Priority.toNat]
  · simp [FilterSet.acceptsPriority,FilterSet.axis,MatchCriteria.resolve,reread,hmin]

/-- An axis that reads as covering what it covered is on when it was. -/
theorem covered_reread {enabled coversAll : Bool} {names : List Text}
    (h : noOps=.collapse → emptied enabled coversAll names=false) :
    (enabled && !(decide (noOps=.collapse) && rereadCoverage coversAll names))=
      (enabled && !(decide (noOps=.collapse) && coversAll)) := by
  cases henabled : enabled
  · rfl
  · cases noOps with
    | collapse => rw [rereadCoverage_eq henabled (h rfl)]
    | keep => rfl

private theorem acceptsLogger_reread
    (h : noOps=.collapse → emptied c.loggerEnabled c.loggerCoversAll c.loggerNames=false) :
    ((c.reread iso).resolve loggers threads format displayZone absent noOps).acceptsLogger r=
      (c.resolve loggers threads format displayZone absent noOps).acceptsLogger r := by
  rw [acceptsLogger_resolve,acceptsLogger_resolve,← covered_reread h]
  exact nameAxis_keptNames _ _ _ _ _

private theorem acceptsThread_reread
    (h : noOps=.collapse → emptied c.threadEnabled c.threadCoversAll c.threadNames=false) :
    ((c.reread iso).resolve loggers threads format displayZone absent noOps).acceptsThread r=
      (c.resolve loggers threads format displayZone absent noOps).acceptsThread r := by
  rw [acceptsThread_resolve,acceptsThread_resolve,← covered_reread h]
  exact nameAxis_keptNames _ _ _ _ _

theorem reread_bound {bound : Option LocalDateTime} :
    iso.reread bound=bound ↔ ∀t,bound=some t → iso.printable t=true ∧ t.msec=0 := by
  cases bound with
  | none => simp [IsoDates.reread]
  | some t =>
    have hwhole : ({t with msec := 0} : LocalDateTime)=t ↔ t.msec=0 := by
      constructor
      · intro h
        rw [← h]
      · rintro h
        cases t
        simp_all
    cases hp : iso.printable t <;> simp [IsoDates.reread,Option.filter,hp,hwhole]

private theorem acceptsTime_reread (h : c.timeEnabled=true → c.BoundsKept iso) :
    ((c.reread iso).resolve loggers threads format displayZone absent noOps).acceptsTime r=
      (c.resolve loggers threads format displayZone absent noOps).acceptsTime r := by
  cases hon : c.timeEnabled
  · simp [FilterSet.acceptsTime,FilterSet.axis,MatchCriteria.resolve,reread,hon]
  · have hstart : iso.reread c.start=c.start := reread_bound.mpr fun t ht => h hon t (.inl ht)
    have hstop : iso.reread c.stop=c.stop := reread_bound.mpr fun t ht => h hon t (.inr ht)
    simp [FilterSet.acceptsTime,FilterSet.axis,MatchCriteria.resolve,reread,hstart,hstop]

/-- A list of nothing shuts an axis that asks for a name. -/
theorem nameAxis_shut (table : InternTable) {names : List Text} {id : ℕ} (hnames : namesNothing names=true) :
    nameAxis false true (MatchCriteria.resolveIds table names) id=false := by
  by_cases hid : id=0
  · simp [nameAxis,hid]
  · exact nameAxis_nothing table hnames hid

private theorem namesNothing_keptNames {names : List Text} (h : namesNothing names=true) : namesNothing
    (keptNames p names)=true := by
  have hkept : keptNames p names=[] := by
    rw [← List.isEmpty_iff,keptNames_isEmpty,h]
  rw [hkept]
  rfl

theorem acceptsLogger_shut {c : MatchCriteria} (hon : c.loggerEnabled=true)
    (hnames : namesNothing c.loggerNames=true) (hcovers : noOps=.collapse → c.loggerCoversAll=false) :
    (c.resolve loggers threads format displayZone .doesNotMatch noOps).acceptsLogger r=false := by
  have honly : (c.loggerEnabled && !(decide (noOps=.collapse) && c.loggerCoversAll))=true := by
    cases noOps with
    | collapse => rw [hon,hcovers rfl]; rfl
    | keep => rw [hon]; rfl
  rw [acceptsLogger_resolve,honly]
  exact nameAxis_shut loggers hnames

end Axes

/-! ## Sufficiency -/

namespace PortableCriteria

theorem selects_of_survives {c : PortableCriteria p} {absent : AbsentField} {noOps : NoOpAxes}
    (h : c.Survives iso absent noOps) (idx : RecordIndex) (format : LogFormat) (displayZone : Zone) (r : Record)
    (message : Text) : (c.reread iso).selects p absent noOps idx format displayZone r message=
      c.selects p absent noOps idx format displayZone r message := by
  apply Bool.eq_iff_iff.mpr
  rw [MatchCriteria.selects,MatchCriteria.selects,accepts_iff,accepts_iff]
  rcases h with (hshut | ⟨habsent,hon,hnames,hcovers⟩) | ⟨htime,haxes⟩
  · -- no message is accepted, before or after
    have hread : ((c.reread iso).resolve idx.loggers idx.threads format displayZone absent noOps).text=c.text := rfl
    have hdirect : (c.resolve idx.loggers idx.threads format displayZone absent noOps).text=c.text := rfl
    rw [hread,hdirect,hshut message]
    simp
  · -- no subsystem is accepted, before or after
    have hdirect : (c.resolve idx.loggers idx.threads format displayZone .doesNotMatch noOps).acceptsLogger r=
      false :=
      acceptsLogger_shut hon hnames fun hc => (hcovers hc).1
    have hread : ((c.reread iso).resolve idx.loggers idx.threads format displayZone .doesNotMatch
      noOps).acceptsLogger r=false := by
      have hnames' : namesNothing (c.reread iso).loggerNames=true := namesNothing_keptNames hnames
      apply acceptsLogger_shut (c:=(c.reread iso).toMatchCriteria) hon hnames'
      intro hc
      have hcoverage : (c.reread iso).loggerCoversAll=rereadCoverage c.loggerCoversAll c.loggerNames := rfl
      rw [hcoverage,(hcovers hc).1,(hcovers hc).2]
      rfl
    rw [habsent,hdirect,hread]
    simp
  · rw [acceptsPriority_reread fun hc => (haxes hc).2.2,acceptsLogger_reread fun hc => (haxes hc).1,
      acceptsThread_reread fun hc => (haxes hc).2.1,acceptsTime_reread htime]
    rfl

end PortableCriteria

/-! ## Necessity -/

/-- A name the axis asks for can be interned. -/
theorem nameAxis_open {absentMatches on : Bool} {names : List Text}
    (h : absentMatches=true ∨ on=false ∨ namesNothing names=false) :
    ∃(table : InternTable) (id : ℕ),nameAxis absentMatches on (MatchCriteria.resolveIds table names) id=true := by
  rcases h with habsent | hon | hnames
  · exact ⟨.empty,0,by simp [nameAxis,habsent]⟩
  · exact ⟨.empty,0,by simp [nameAxis,hon]⟩
  · obtain ⟨n,hn,hne⟩ : ∃n∈names,¬n.isEmpty=true := by
      simpa [namesNothing] using hnames
    have hne : n≠[] := by simpa using hne
    have hnames : (InternTable.empty.intern n).2.names=[[],n] := by
      simp [InternTable.intern,InternTable.empty,hne]
    have hid : (InternTable.empty.intern n).2.idOf n=some 1 := by
      simp [InternTable.idOf,hnames,Ne.symm hne]
    have hmem : 1∈MatchCriteria.resolveIds (InternTable.empty.intern n).2 names := List.mem_filterMap.mpr ⟨n,hn,hid⟩
    exact ⟨(InternTable.empty.intern n).2,1,by simp [nameAxis,List.contains_eq_mem,hmem]⟩

/-- A bound that is not kept is another instant to some zone. -/
theorem time_apart {start stop : Option LocalDateTime} (h : iso.reread start≠start ∨ iso.reread stop≠stop) :
    ∃(zone : Zone) (ts : ℤ),ts≠kNoTimestamp ∧
      ¬((start.bind zone.instant).getD FilterSet.kMinTime≤ts ∧
        ts≤(stop.bind zone.instant).getD FilterSet.kMaxTime) ∧
      ((iso.reread start).bind zone.instant).getD FilterSet.kMinTime≤ts ∧
      ts≤((iso.reread stop).bind zone.instant).getD FilterSet.kMaxTime := by
  rcases h with h | h
  · cases start with
    | none => exact absurd rfl h
    | some t =>
      -- the bound alone is at one, all else at zero
      apply Exists.intro ⟨true,fun u => some (if u=t then 1 else 0),fun _ => 0⟩
      apply Exists.intro 0
      refine ⟨by decide,by simp,?_,?_⟩
      · cases hread : iso.reread (some t) with
        | none => simp [FilterSet.kMinTime]
        | some u =>
          have hne : u≠t := by
            rintro rfl
            exact h hread
          simp [hne]
      · cases iso.reread stop with
        | none => simp [FilterSet.kMaxTime]
        | some u =>
          simp only [Option.bind_some,Option.getD_some]
          split <;> decide
  · cases stop with
    | none => exact absurd rfl h
    | some t =>
      apply Exists.intro ⟨true,fun u => some (if u=t then 0 else 1),fun _ => 0⟩
      apply Exists.intro 1
      refine ⟨by decide,by simp,?_,?_⟩
      · cases iso.reread start with
        | none => simp [FilterSet.kMinTime]
        | some u =>
          simp only [Option.bind_some,Option.getD_some]
          split <;> decide
      · cases hread : iso.reread (some t) with
        | none => simp [FilterSet.kMaxTime]
        | some u =>
          have hne : u≠t := by
            rintro rfl
            exact h hread
          simp [hne]

section Probes
variable {c : MatchCriteria} {absent : AbsentField} {noOps : NoOpAxes} {loggers threads : InternTable}
  {format : LogFormat} {displayZone : Zone} {r : Record}

theorem acceptsPriority_fatal (h : r.priority=.fatal) :
    (c.resolve loggers threads format displayZone absent noOps).acceptsPriority r=true := by
  cases hmin : c.minPriority <;> simp [FilterSet.acceptsPriority,FilterSet.axis,MatchCriteria.resolve,h,
    hmin,Priority.toNat]

theorem acceptsThread_ungrouped (h : format.threadGroup≤0) :
    (c.resolve loggers threads format displayZone absent noOps).acceptsThread r=true := by
  simp [acceptsThread_resolve,nameAxis,h]

theorem acceptsTime_ungrouped (h : format.dateGroup≤0) :
    (c.resolve loggers threads format displayZone absent noOps).acceptsTime r=true := by
  simp [FilterSet.acceptsTime,FilterSet.axis,MatchCriteria.resolve,h]

theorem acceptsTime_grouped (hon : c.timeEnabled=true) (hgroup : format.dateGroup>0)
    (hts : r.timestamp≠kNoTimestamp) :
    (c.resolve loggers threads format displayZone absent noOps).acceptsTime r=true ↔
      (c.start.bind displayZone.instant).getD FilterSet.kMinTime≤r.timestamp ∧
        r.timestamp≤(c.stop.bind displayZone.instant).getD FilterSet.kMaxTime := by
  simp [FilterSet.acceptsTime,FilterSet.axis,MatchCriteria.resolve,hon,hgroup,hts]

end Probes

private theorem emptied_iff {enabled coversAll : Bool} {names : List Text} : emptied enabled coversAll names=true ↔
    enabled=true ∧ coversAll=false ∧ names≠[] ∧ namesNothing names=true := by
  simp [emptied,and_assoc]

/-- Unless it is shut, the subsystem axis of what was read admits some record. -/
theorem loggers_open {c : PortableCriteria p} {absent : AbsentField} {noOps : NoOpAxes}
    (h : ¬(absent=.doesNotMatch ∧ c.loggerEnabled=true ∧ namesNothing c.loggerNames=true ∧
      (noOps=.collapse → c.loggerCoversAll=false ∧ c.loggerNames=[]))) :
    decide (absent=.matches)=true ∨
      (c.loggerEnabled && !(decide (noOps=.collapse) && rereadCoverage c.loggerCoversAll c.loggerNames))=false ∨
      namesNothing (keptNames p c.loggerNames)=false := by
  cases absent with
  | «matches» => exact .inl rfl
  | doesNotMatch =>
    right
    cases hon : c.loggerEnabled with
    | false => exact .inl rfl
    | true =>
      cases hnames : namesNothing c.loggerNames with
      | false =>
        right
        obtain ⟨n,hn,hne⟩ : ∃n∈c.loggerNames,¬n.isEmpty=true := by
          simpa [namesNothing] using hnames
        have hkept : n∈keptNames p c.loggerNames := mem_keptNames.mpr ⟨hn,by simpa using hne⟩
        rw [namesNothing,List.all_eq_false]
        exact ⟨n,hkept,hne⟩
      | true =>
        left
        -- what covers everything, or seems to, is off
        cases noOps with
        | keep => exact absurd ⟨rfl,hon,hnames,nofun⟩ h
        | collapse =>
          cases hcovers : c.loggerCoversAll with
          | true => rfl
          | false =>
            have hsome : c.loggerNames≠[] := fun hnil => h ⟨rfl,hon,hnames,fun _ => ⟨hcovers,hnil⟩⟩
            simp [rereadCoverage,hsome,hnames]

/-- An axis that was emptied is off when it is read, and admitted nothing that has a name. -/
theorem emptied_apart (absentMatches : Bool) {enabled coversAll grouped : Bool} {names : List Text}
    {noOps : NoOpAxes}
    (h : emptied enabled coversAll names=true) (hcollapse : noOps=.collapse) (hgrouped : grouped=true)
    (table : InternTable) :
    (enabled && !(decide (noOps=.collapse) && rereadCoverage coversAll names))=false ∧
      nameAxis absentMatches (enabled && !(decide (noOps=.collapse) && coversAll) && grouped)
        (MatchCriteria.resolveIds table names) 1=false := by
  obtain ⟨hon,hcovers,hsome,hnames⟩ := emptied_iff.mp h
  constructor
  · simp [rereadCoverage,hsome,hnames,hcollapse]
  · rw [nameAxis_nothing table hnames (by decide),hon,hcovers,hgrouped,Bool.and_false]
    rfl

theorem nameAxis_off (absentMatches : Bool) (ids : List ℕ) (id : ℕ) :
    nameAxis absentMatches false ids id=true := rfl

/-- A table with one name. -/
def named : InternTable := (InternTable.empty.intern (latin1 "main")).2

/-- What was saved selects what it selected, or shows that it does not on one of four records. -/
theorem survives_of_selects {c : PortableCriteria p} {absent : AbsentField} {noOps : NoOpAxes}
    (h : ∀(idx : RecordIndex) (format : LogFormat) (displayZone : Zone) (r : Record) (message : Text),
      (c.reread iso).selects p absent noOps idx format displayZone r message=
        c.selects p absent noOps idx format displayZone r message) : c.Survives iso absent noOps := by
  by_cases hshut : c.AdmitsNothing absent noOps
  · exact .inl hshut
  obtain ⟨hmessage,hlogger⟩ := not_or.mp hshut
  obtain ⟨message,hmessage⟩ : ∃message,c.text.accepts p message=true := by
    simpa using hmessage
  obtain ⟨loggers,id,haxis⟩ := nameAxis_open (loggers_open hlogger)
  have carries (loggers threads : InternTable) (format : LogFormat) (zone : Zone) (r : Record)
      (hpriority : ((c.reread iso).resolve loggers threads format zone absent noOps).acceptsPriority r=true)
      (hlogger : ((c.reread iso).resolve loggers threads format zone absent noOps).acceptsLogger r=true)
      (hthread : ((c.reread iso).resolve loggers threads format zone absent noOps).acceptsThread r=true)
      (htime : ((c.reread iso).resolve loggers threads format zone absent noOps).acceptsTime r=true) :
      (c.resolve loggers threads format zone absent noOps).acceptsPriority r=true ∧
        (c.resolve loggers threads format zone absent noOps).acceptsLogger r=true ∧
        (c.resolve loggers threads format zone absent noOps).acceptsThread r=true ∧
        (c.resolve loggers threads format zone absent noOps).acceptsTime r=true := by
    have hsame := h ⟨[r],loggers,threads,[]⟩ format zone r message
    have hread : (c.reread iso).selects p absent noOps ⟨[r],loggers,threads,[]⟩ format zone r message=true :=
      accepts_iff.mpr ⟨hpriority,hlogger,hthread,htime,hmessage⟩
    rw [hread] at hsame
    obtain ⟨hpriority,hlogger,hthread,htime,-⟩ := accepts_iff.mp hsame.symm
    exact ⟨hpriority,hlogger,hthread,htime⟩
  refine .inr ⟨fun hon => ?bounds,fun hcollapse => ⟨?loggers,?threads,fun habsent hon hmin => ?priority⟩⟩
  case bounds =>
    by_contra hkept
    have hlost : iso.reread c.start≠c.start ∨ iso.reread c.stop≠c.stop := by
      by_contra hboth
      obtain ⟨hstart,hstop⟩ := not_or.mp hboth
      apply hkept
      rintro t (ht | ht)
      · exact reread_bound.mp (not_not.mp hstart) t ht
      · exact reread_bound.mp (not_not.mp hstop) t ht
    obtain ⟨zone,ts,hts,hout,hin⟩ := time_apart hlost
    have hr := carries loggers .empty {LogFormat.empty with dateGroup := 1} zone ⟨0,ts,0,id,0,1,.fatal⟩
      (acceptsPriority_fatal rfl) (by rw [acceptsLogger_resolve]; exact haxis) (acceptsThread_ungrouped (by decide))
      ((acceptsTime_grouped (c:=(c.reread iso).toMatchCriteria) hon (by decide) hts).mpr hin)
    exact hout ((acceptsTime_grouped hon (by decide) hts).mp hr.2.2.2)
  case loggers =>
    by_contra hemptied
    obtain ⟨hread,hdirect⟩ := emptied_apart (decide (absent=.matches)) (by simpa using hemptied) hcollapse rfl named
    have hr := carries named .empty .empty .invalid ⟨0,0,0,1,0,1,.fatal⟩ (acceptsPriority_fatal rfl)
      (by rw [acceptsLogger_resolve]; simp only [reread,hread]; exact nameAxis_off _ _ _)
      (acceptsThread_ungrouped (by decide)) (acceptsTime_ungrouped (by decide))
    rw [acceptsLogger_resolve,← Bool.and_true (_ && _),hdirect] at hr
    exact Bool.false_ne_true hr.2.1
  case threads =>
    by_contra hemptied
    obtain ⟨hread,hdirect⟩ := emptied_apart (decide (absent=.matches)) (by simpa using hemptied) hcollapse rfl named
    have hr := carries loggers named {LogFormat.empty with threadGroup := 1} .invalid ⟨0,0,0,id,1,1,.fatal⟩
      (acceptsPriority_fatal rfl) (by rw [acceptsLogger_resolve]; exact haxis)
      (by rw [acceptsThread_resolve]; simp only [reread,hread]; exact nameAxis_off _ _ _)
        (acceptsTime_ungrouped (by decide))
    rw [acceptsThread_resolve] at hr
    exact Bool.false_ne_true (hdirect.symm.trans hr.2.2.1)
  case priority =>
    have hr := carries loggers .empty .empty .invalid ⟨0,0,0,id,0,1,.unknown⟩
      (by simp [FilterSet.acceptsPriority,FilterSet.axis,MatchCriteria.resolve,reread,hcollapse,hmin])
      (by rw [acceptsLogger_resolve]; exact haxis) (acceptsThread_ungrouped (by decide))
        (acceptsTime_ungrouped (by decide))
    simpa [FilterSet.acceptsPriority,FilterSet.axis,MatchCriteria.resolve,hcollapse,hmin,hon,habsent] using hr.1

/-! ## Rules -/

namespace PortableRule

private theorem toText_actions (a : HighlightActions) : actionsFromJson (actionsToJson a)=a := by
  obtain ⟨color,digest,tab,notify⟩ := a
  revert color digest tab notify
  decide

def reread (iso : IsoDates) (h : PortableRule p) : PortableRule p :=
  {h with
   criteria := h.criteria.reread iso
   background := readSlot (.number h.background)
   foreground := readSlot (.number h.foreground)}

theorem fromJson_toJson (hiso : iso.Lawful) (h : PortableRule p) : fromJson p iso (h.toJson iso)=h.reread iso := by
  have hactions : (if (Json.find? (h.toJson iso) "actions").isSome then
      actionsFromJson (Json.value (h.toJson iso) "actions").toArray else colourOnly)=h.actions := by
    by_cases hcolour : h.actions=colourOnly
    · simp [toJson,Json.find?,List.lookup,List.lookup_append,lookup_optional,hcolour]
    · simp [toJson,Json.find?,Json.value,List.lookup,List.lookup_append,lookup_optional,hcolour,
        Json.toArray,toText_actions]
  have hbackground : Json.value (h.toJson iso) "background"=.number h.background := by
    simp [toJson,Json.find?,Json.value,List.lookup,List.lookup_append,lookup_optional]
  have hforeground : Json.value (h.toJson iso) "foreground"=.number h.foreground := by
    simp [toJson,Json.find?,Json.value,List.lookup,List.lookup_append,lookup_optional]
  have henabled : Json.value (h.toJson iso) "enabled"=.bool h.enabled := rfl
  have hmatch : Json.value (h.toJson iso) "match"=.object (h.criteria.toJson iso) := rfl
  simp [fromJson,reread,hactions,hbackground,hforeground,henabled,hmatch,Json.isObject,Json.toObject,
    PortableCriteria.fromJson_toJson hiso]

/-- What the rule matches, on its own in a list. -/
def selects (h : PortableRule p) (idx : RecordIndex) (format : LogFormat) (displayZone : Zone) (r : Record)
    (message : Text) : Bool :=
  ((⟨[h.rule],[]⟩ : HighlighterSet).resolve idx format displayZone).ruleMatches p 0 r message

theorem selects_eq (h : PortableRule p) (idx : RecordIndex) (format : LogFormat) (displayZone : Zone) (r : Record)
    (message : Text) : h.selects idx format displayZone r message=
      (h.enabled && ((h.criteria.resolve idx.loggers idx.threads format displayZone .doesNotMatch
        .keep).anyActive &&
        h.criteria.selects p .doesNotMatch .keep idx format displayZone r message)) := rfl

end PortableRule

/-- Axes that are all off admit everything. -/
theorem accepts_of_inactive {fs : FilterSet} (h : fs.anyActive=false) (r : Record) (message : Text) :
    fs.accepts p r message=true := by
  simp only [FilterSet.anyActive,Bool.or_eq_false_iff] at h
  obtain ⟨⟨⟨⟨hpriority,hlogger⟩,hthread⟩,htime⟩,htext⟩ := h
  simp [FilterSet.accepts,FilterSet.acceptsIntegerAxes,FilterSet.acceptsPriority,FilterSet.acceptsLogger,
    FilterSet.acceptsThread,FilterSet.acceptsTime,FilterSet.axis,hpriority,hlogger,hthread,htime,htext]

/-- A rule on its own decides as its axes do. -/
theorem rule_selects_iff {h : PortableRule p} (hon : h.enabled=true) (idx : RecordIndex) (format : LogFormat)
    (displayZone : Zone) (r : Record) (message : Text) :
    ((h.reread iso).selects idx format displayZone r message=h.selects idx format displayZone r message ↔
      (h.criteria.reread iso).selects p .doesNotMatch .keep idx format displayZone r message=
        h.criteria.selects p .doesNotMatch .keep idx format displayZone r message) := by
  have hactive : ((h.criteria.reread iso).resolve idx.loggers idx.threads format displayZone .doesNotMatch
    .keep).anyActive=
      (h.criteria.resolve idx.loggers idx.threads format displayZone .doesNotMatch .keep).anyActive := by
    simp [FilterSet.anyActive,MatchCriteria.resolve,PortableCriteria.reread]
  have hreread : (h.reread iso).enabled=true := hon
  have hcriteria : (h.reread iso).criteria=h.criteria.reread iso := rfl
  rw [PortableRule.selects_eq,PortableRule.selects_eq,hreread,hon,hcriteria,hactive]
  cases hany : (h.criteria.resolve idx.loggers idx.threads format displayZone .doesNotMatch .keep).anyActive
  · have hdirect := accepts_of_inactive (p:=p) hany r message
    have hread := accepts_of_inactive (p:=p) (hactive.trans hany) r message
    simp [MatchCriteria.selects,hdirect,hread]
  · simp

/-- Saved criteria select the same records just where no bound in use loses its milliseconds or its text, no
list of empty names stands for a restriction, or one axis admits nothing anyway. -/
theorem saved_criteria (hiso : iso.Lawful) :
    (∀(c : PortableCriteria p) (absent : AbsentField) (noOps : NoOpAxes),
      (∀(idx : RecordIndex) (format : LogFormat) (displayZone : Zone) (r : Record) (message : Text),
        (PortableCriteria.fromJson p iso (c.toJson iso)).selects p absent noOps idx format displayZone r message=
          c.selects p absent noOps idx format displayZone r message) ↔ c.Survives iso absent noOps) ∧
    ∀h : PortableRule p,
      (∀(idx : RecordIndex) (format : LogFormat) (displayZone : Zone) (r : Record) (message : Text),
        (PortableRule.fromJson p iso (h.toJson iso)).selects idx format displayZone r message=
          h.selects idx format displayZone r message) ↔
        h.enabled=false ∨ h.criteria.Survives iso .doesNotMatch .keep := by
  constructor
  · intro c absent noOps
    rw [PortableCriteria.fromJson_toJson hiso]
    exact ⟨survives_of_selects,selects_of_survives⟩
  · intro h
    rw [PortableRule.fromJson_toJson hiso]
    cases hon : h.enabled with
    | false =>
      have hreread : (h.reread iso).enabled=false := hon
      simp [PortableRule.selects_eq,hreread,hon]
    | true =>
      simp only [Bool.true_eq_false,false_or,rule_selects_iff hon]
      exact ⟨survives_of_selects,selects_of_survives⟩

def warnings : PortableCriteria .ascii := {PortableCriteria.off with priorityEnabled := true,minPriority := .warn}

theorem saved_criteria_warnings :
    (PortableCriteria.fromJson .ascii .plain (warnings.toJson .plain)).selects .ascii .matches .collapse
    .empty .levelled (.fixed 0) ⟨0,0,0,0,0,1,.info⟩ []=false :=
  (((saved_criteria IsoDates.plain_lawful).1 warnings .matches .collapse).mpr
    (.inr ⟨nofun,fun _ => ⟨rfl,rfl,nofun⟩⟩) .empty .levelled (.fixed 0) ⟨0,0,0,0,0,1,.info⟩ []).trans (by decide)

/-- A bound half a second past ten. -/
def halfPast : PortableCriteria .ascii :=
  {PortableCriteria.off with timeEnabled := true,start := some ⟨2024,1,2,10,0,0,500⟩}

/-- The record at ten sharp is outside, and inside once the bound was saved. -/
theorem saved_criteria_milliseconds :
    (PortableCriteria.fromJson .ascii .plain (halfPast.toJson .plain)).selects .ascii .matches .collapse .empty
        {LogFormat.empty with dateGroup := 1} (.fixed 0) ⟨0,1704189600000,0,0,0,1,.info⟩ []≠
      halfPast.selects .ascii .matches .collapse .empty {LogFormat.empty with dateGroup := 1} (.fixed 0)
        ⟨0,1704189600000,0,0,0,1,.info⟩ [] := by
  rw [PortableCriteria.fromJson_toJson IsoDates.plain_lawful]
  decide

end Loftail
