import Loftail.RecordJson
import Loftail.SavedCriteria

/-! # A record that was reduced and filed keeps its effect -/
namespace Loftail

variable {p : Platform} {iso : IsoDates} {sameInstant : LocalDateTime→LocalDateTime→Bool}

/-! ## The profile -/

theorem UInt8.ofInt_toInt (u : UInt8) : UInt8.ofInt ((Json.number u.toNat).toInt 0)=u := by
  have hu := u.toNat_lt
  have hint : (Json.number u.toNat).toInt 0=u.toNat := by
    have hbounds : (-2^31 : ℤ)≤u.toNat ∧ (u.toNat : ℤ) < 2^31 := by omega
    rw [Json.toInt,if_pos hbounds]
  have hmod : ((u.toNat : ℤ)%2^8).toNat=u.toNat := by omega
  rw [hint,UInt8.ofInt,hmod,UInt8.ofNat_toNat]

private theorem printed_ascii (n : ℤ) : ∀b∈printed n,b < 0x80 := by
  have hdigit : ∀b∈printedNat n.natAbs,b < 0x80 := by
    intro b hb
    have hb := isDecimal_iff.mp (printedNat_decimal n.natAbs b hb)
    exact UInt8.lt_iff_toNat_lt.mpr (by change b.toNat < 0x80; omega)
  rw [printed]
  split
  · intro b hb
    rcases List.mem_cons.mp hb with rfl | hb
    · decide
    · exact hdigit b hb
  · exact hdigit

private theorem toInt_printedText {n : ℤ} (h : isInt n=true) : QString.toInt
    ((printed n).map UInt8.toUInt16)=n := by
  have hascii : ((printed n).map UInt8.toUInt16).all (· < 0x80)=true := by
    simp only [List.all_map,List.all_eq_true,Function.comp_apply,decide_eq_true_eq]
    intro b hb
    have hb := UInt8.lt_iff_toNat_lt.mp (printed_ascii n b hb)
    exact UInt16.lt_iff_toNat_lt.mpr (by simpa using hb)
  have hback : ((printed n).map UInt8.toUInt16).map UInt16.toUInt8=printed n := by
    rw [List.map_map]
    have hid : UInt16.toUInt8∘UInt8.toUInt16=id := funext fun b => by simp
    rw [hid,List.map_id]
  rw [QString.toInt,if_pos hascii,hback,toInt_printed h]
  rfl

theorem ZoneChoice.fromText_toText (z : ZoneChoice) : ZoneChoice.fromText z.toText=z := by
  cases z with
  | default => rfl
  | «local» => rfl
  | utc => rfl
  | fixedOffset seconds =>
    obtain ⟨n,hn⟩ := seconds
    have hread := toInt_printedText hn
    generalize hs : (printed n).map UInt8.toUInt16=s at hread
    have htext : ZoneChoice.toText (.fixedOffset ⟨n,hn⟩)=latin1 "offset:"++s := by
      rw [ZoneChoice.toText,hs]
    rw [htext]
    subst hread
    rfl

theorem TimeDisplay.fromText_toText (d : TimeDisplay) : TimeDisplay.fromText d.toText=d := by
  cases d <;> rfl

theorem LogProfile.fromJson_toJson (profile : LogProfile) : LogProfile.fromJson profile.toJson=profile := by
  have hencoding : Json.value profile.toJson "encoding"=.number profile.format.encoding.toNat := rfl
  have hwrap : Json.value profile.toJson "wrapMode"=.number profile.wrapMode.toNat := rfl
  have hzone : (Json.value profile.toJson "sourceZone").toText=profile.format.sourceZone.toText := rfl
  have hdisplay : (Json.value profile.toJson "timeDisplay").toText=profile.format.timeDisplay.toText := rfl
  rw [LogProfile.fromJson,hencoding,hwrap,hzone,hdisplay,UInt8.ofInt_toInt,UInt8.ofInt_toInt,
    ZoneChoice.fromText_toText,TimeDisplay.fromText_toText]
  rfl

/-! ## The rules -/

namespace PortableRule

theorem eq_none_of_sameBound {bound : Option LocalDateTime} (h : sameBound sameInstant bound none=true) :
    bound=none := by
  cases bound with
  | none => rfl
  | some t => cases h

/-- What was typed makes the expression. -/
theorem eq_of_sameText {a b : PortableCriteria p} (h : sameText a.text b.text=true) : a.text=b.text := by
  obtain ⟨henabled,hnegate,hpattern,hregex,hcs⟩ := of_decide_eq_true h
  have hmatcher : a.text.matcher=b.text.matcher := by
    rw [a.compiled,b.compiled,hpattern,hregex,hcs]
  cases ha : a.text
  cases hb : b.text
  simp_all

/-- Criteria without bounds are the same only as themselves. -/
theorem eq_of_sameCriteria {a b : PortableCriteria p} (hstart : b.start=none) (hstop : b.stop=none)
    (h : sameCriteria sameInstant a b=true) : a=b := by
  simp only [sameCriteria,Bool.and_eq_true,decide_eq_true_eq,hstart,hstop] at h
  obtain ⟨⟨⟨hfields,hstart'⟩,hstop'⟩,htext⟩ := h
  have htext := eq_of_sameText htext
  have hstart' := eq_none_of_sameBound hstart'
  have hstop' := eq_none_of_sameBound hstop'
  obtain ⟨a,_,_,_⟩ := a
  obtain ⟨b,_,_,_⟩ := b
  cases a
  cases b
  simp_all

private theorem eq_of_sameRule {a b : PortableRule p} (hstart : b.criteria.start=none)
    (hstop : b.criteria.stop=none) (h : sameRule sameInstant a b=true) : a=b := by
  simp only [sameRule,Bool.and_eq_true,decide_eq_true_eq] at h
  obtain ⟨hfields,hcriteria⟩ := h
  have hcriteria := eq_of_sameCriteria hstart hstop hcriteria
  cases a
  cases b
  simp_all

private theorem eq_of_sameRules {as bs : List (PortableRule p)}
    (hbs : ∀b∈bs,b.criteria.start=none ∧ b.criteria.stop=none)
    (h : sameRules sameInstant as bs=true) : as=bs := by
  induction as generalizing bs with
  | nil =>
    cases bs with
    | nil => rfl
    | cons b bs => cases h
  | cons a as ih =>
    cases bs with
    | nil => cases h
    | cons b bs =>
      obtain ⟨hrule,hrules⟩ := Bool.and_eq_true_iff.mp h
      obtain ⟨hstart,hstop⟩ := hbs b (List.mem_cons_self ..)
      rw [eq_of_sameRule hstart hstop hrule,ih (fun b hb => hbs b (List.mem_cons_of_mem _ hb)) hrules]

private theorem defaults_unbounded : ∀b∈defaults p,b.criteria.start=none ∧ b.criteria.stop=none := by
  simp [defaults,level,PortableCriteria.off,MatchCriteria.none]

end PortableRule

/-! ## The filters -/

/-- Nothing that is on narrows anything. -/
theorem inactive_of_axes {c : MatchCriteria} (hpriority : c.priorityEnabled=true → c.minPriority=.trace)
    (hlogger : c.loggerEnabled=true → c.loggerCoversAll=true)
    (hthread : c.threadEnabled=true → c.threadCoversAll=true)
    (htime : c.timeEnabled=false) (htext : c.text.active=false) (loggers threads : InternTable) (format : LogFormat)
    (displayZone : Zone) (absent : AbsentField) :
    (c.resolve loggers threads format displayZone absent .collapse).anyActive=false := by
  cases hp : c.priorityEnabled <;> cases hl : c.loggerEnabled <;> cases ht : c.threadEnabled <;>
    simp_all [MatchCriteria.resolve,FilterSet.anyActive]

namespace LogRecord

/-- Axis by axis, what a state that says nothing has. -/
theorem axes_of_saysNothing {state : JsonObject} (h : filterStateSaysNothing p iso state=true) :
    let c := PortableCriteria.fromJson p iso state
    ((Json.value state "contextBefore").toInt 0=0 ∧ (Json.value state "contextAfter").toInt 0=0) ∧
      (c.priorityEnabled=true → c.minPriority=.trace) ∧ (c.loggerEnabled=true → c.loggerCoversAll=true) ∧
      (c.threadEnabled=true → c.threadCoversAll=true) ∧ c.timeEnabled=false ∧ c.text.active=false := by
  intro c
  rw [filterStateSaysNothing] at h
  split at h
  · rename_i hempty
    obtain rfl := List.isEmpty_iff.mp hempty
    exact ⟨⟨rfl,rfl⟩,fun _ => rfl,fun _ => rfl,fun h => (Bool.false_ne_true h).elim,rfl,rfl⟩
  · have h : (Json.value state "contextBefore").toInt 0=0 ∧ (Json.value state "contextAfter").toInt 0=0 ∧
        (c.priorityEnabled=false ∨ c.minPriority=PriorityChoice.at 0) ∧
          (c.loggerEnabled=false ∨ c.loggerCoversAll=true) ∧
        (c.threadEnabled=false ∨ c.threadCoversAll=true) ∧ c.timeEnabled=false ∧ c.text.active=false := by
      simpa using h
    obtain ⟨hbefore,hafter,hpriority,hlogger,hthread,htime,htext⟩ := h
    have off {on : Bool} {P : Prop} (h : on=false ∨ P) : on=true → P := by
      rintro rfl
      simpa using h
    exact ⟨⟨hbefore,hafter⟩,off hpriority,off hlogger,off hthread,htime,htext⟩

/-- A state that says nothing selects everything. -/
theorem selects_of_saysNothing {s : LogRecord} (h : filterStateSaysNothing p iso s.filters=true) (idx : RecordIndex)
    (format : LogFormat) (displayZone : Zone) (r : Record) (message : Text) :
    s.selects p iso idx format displayZone r message=true := by
  obtain ⟨-,hpriority,hlogger,hthread,htime,htext⟩ := axes_of_saysNothing h
  exact accepts_of_inactive (inactive_of_axes hpriority hlogger hthread htime htext _ _ _ _ _) r message

/-! ## The run -/

theorem toDouble_small {n : ℤ} (h : n.natAbs < 2^53) : toDouble n=n := by
  rw [toDouble,nearestDouble_small h]
  split <;> omega

private theorem toQint64_small {n : ℤ} (h : n.natAbs < 2^53) : toQint64 n=n := by
  rw [toQint64]
  exact if_pos (by omega)

/-- Below 2^53 a number is its own double. -/
theorem toOffset_small {n fallback : ℤ} (h : n.natAbs < 2^53) : toOffset fallback (.number (toDouble n))=n := by
  have hread : (Json.number (toDouble n)).toDoubleQint64=toQint64 (toDouble (toDouble n)) := rfl
  rw [toOffset,if_pos (by rfl),hread,toDouble_small h,toDouble_small h,toQint64_small h]

/-- What JSON's one kind of number can hold. -/
def Representable (r : StoredRun) : Prop :=
  r.startOffset.natAbs < 2^53 ∧ (r.startTimestamp=StoredRun.kNoTimestamp ∨ r.startTimestamp.natAbs < 2^53)

private theorem runFromJson_toJson {r : StoredRun} (h : Representable r) : runFromJson (runToJson r)=r := by
  obtain ⟨hoffset,htimestamp⟩ := h
  have hall : (Json.value (runToJson r) "all").toBool=r.all := rfl
  have hread : Json.value (runToJson r) "startOffset"=.number (toDouble r.startOffset) := rfl
  rw [runFromJson,hall,hread,toOffset_small hoffset]
  by_cases hnone : r.startTimestamp=StoredRun.kNoTimestamp
  · have hfind : Json.find? (runToJson r) "startTimestamp"=none := by
      simp [runToJson,Json.find?,List.lookup,PortableCriteria.lookup_optional,hnone]
    rw [hfind]
    cases r
    simp_all
  · have hfind : Json.find? (runToJson r) "startTimestamp"=some (.number (toDouble r.startTimestamp)) := by
      simp [runToJson,Json.find?,List.lookup,PortableCriteria.lookup_optional,hnone]
    have hsmall := htimestamp.resolve_left hnone
    rw [Json.value,hfind,Option.isSome_some,if_pos rfl,Option.getD_some,toOffset_small hsmall]

/-! ## The record -/

private theorem addressFromJson_toJson (address : String) : addressFromJson (addressToJson address)=address := by
  have htext : (addressToJson address).toText=QString.ofCodePoints address.toList := rfl
  rw [addressFromJson,htext,QString.codePoints_ofCodePoints,String.ofList_toList]

private theorem filters_toJson (s : LogRecord) : (Json.value (toJson s) "filters").toObject=s.filters := by
  cases h : s.filters <;>
    simp [toJson,Json.value,Json.find?,List.lookup,List.lookup_append,PortableCriteria.lookup_optional,
      h,Json.toObject]

private theorem run_toJson (s : LogRecord) :
    (Json.value (toJson s) "run").toObject=if s.run.saysNothing then [] else runToJson s.run := by
  cases h : s.run.saysNothing <;>
    simp [toJson,Json.value,Json.find?,List.lookup,List.lookup_append,PortableCriteria.lookup_optional,
      h,Json.toObject]

private theorem highlighters_toJson (s : LogRecord) : Json.find?
    (toJson s) "highlighters"=s.highlighters.map Json.array := by
  cases h : s.highlighters <;>
    simp [toJson,Json.find?,List.lookup,List.lookup_append,PortableCriteria.lookup_optional,h]

/-- What is filed is read back, its run as far as doubles hold it. -/
theorem fromJson_toJson (s : LogRecord) : fromJson (toJson s)=
    some {s with run := if s.run.saysNothing then .last else runFromJson (runToJson s.run)} := by
  have hversion : (slotDoc (toJson s)).version=kRecordVersion := rfl
  have haddress : addressFromJson (Json.value (toJson s) "address")=s.address := addressFromJson_toJson s.address
  have hprofile : Json.value (toJson s) "profile"=profileToJson s.profile := rfl
  have hread : (if (profileToJson s.profile).isObject then some
    (LogProfile.fromJson (profileToJson s.profile).toObject)
      else none)=s.profile := by
    cases s.profile with
    | none => rfl
    | some profile => exact congrArg some (LogProfile.fromJson_toJson profile)
  have hrules : (if (Json.find? (toJson s) "highlighters").isSome then
      some (Json.value (toJson s) "highlighters").toArray else none)=s.highlighters := by
    rw [Json.value,highlighters_toJson]
    cases s.highlighters <;> rfl
  have hrun : runFromJson (Json.value (toJson s) "run").toObject=
      if s.run.saysNothing then .last else runFromJson (runToJson s.run) := by
    rw [run_toJson]
    split <;> rfl
  rw [fromJson,SlotDoc.fromJson,hversion,if_pos (by decide),slotDoc,haddress,hprofile,hread,
    filters_toJson,hrules,hrun]

/-! ## The effect of a record -/

/-- What a log shows of its settings, the run apart. -/
structure SameSettings (p : Platform) (iso : IsoDates) (inherited : LogProfile) (s t : LogRecord) : Prop where
  profile : effectiveProfile t inherited=effectiveProfile s inherited
  rules : effectiveRules p iso t=effectiveRules p iso s
  filters : ∀(idx : RecordIndex) (format : LogFormat) (displayZone : Zone) (r : Record) (message : Text),
    selects p iso t idx format displayZone r message=selects p iso s idx format displayZone r message
  context : context t=context s

structure SameEffect (p : Platform) (iso : IsoDates) (inherited : LogProfile) (s t : LogRecord) : Prop
    extends SameSettings p iso inherited s t where
  run : t.run.choice=s.run.choice

variable {inherited : LogProfile} {s t u : LogRecord}

theorem SameEffect.trans (hst : SameEffect p iso inherited s t) (htu : SameEffect p iso inherited t u) :
    SameEffect p iso inherited s u where
  profile := htu.profile.trans hst.profile
  rules := htu.rules.trans hst.rules
  filters idx format displayZone r message :=
    (htu.filters idx format displayZone r message).trans (hst.filters idx format displayZone r message)
  context := htu.context.trans hst.context
  run := htu.run.trans hst.run

theorem SameEffect.symm (h : SameEffect p iso inherited s t) : SameEffect p iso inherited t s where
  profile := h.profile.symm
  rules := h.rules.symm
  filters idx format displayZone r message := (h.filters idx format displayZone r message).symm
  context := h.context.symm
  run := h.run.symm

theorem choice_of_saysNothing {r : StoredRun} (h : r.saysNothing=true) : r.choice=.last := by
  obtain ⟨hall,hoffset⟩ : r.all=false ∧ r.startOffset < 0 := by simpa [StoredRun.saysNothing] using h
  simp [StoredRun.choice,hall,hoffset]

/-- A list of the default rules has none of its own to keep. -/
theorem rules_of_areDefaults {rules : List Json} (h : (sections p iso sameInstant).areDefaults rules=true) :
    PortableRule.rulesFromJson p iso rules=PortableRule.defaults p :=
  PortableRule.eq_of_sameRules PortableRule.defaults_unbounded h

/-- Every section that is dropped said what its parent says. -/
theorem sameEffect_reduce (sameInstant : LocalDateTime→LocalDateTime→Bool) (s : LogRecord)
    (inherited : LogProfile) :
    SameEffect p iso inherited s (s.reduce (sections p iso sameInstant) inherited) where
  profile := by
    rw [effectiveProfile,LogFileSettings.reduce]
    split
    · rename_i h
      rw [effectiveProfile,h]
      rfl
    · rfl
  rules := by
    simp only [effectiveRules,LogFileSettings.reduce]
    cases hrules : s.highlighters with
    | none => rfl
    | some rules =>
      cases hdefaults : (sections p iso sameInstant).areDefaults rules with
      | true => simp [hdefaults,rules_of_areDefaults hdefaults]
      | false => simp [hdefaults]
  filters idx format displayZone r message := by
    cases h : filterStateSaysNothing p iso s.filters with
    | true =>
      have hfilters : (s.reduce (sections p iso sameInstant) inherited).filters=[] := if_pos h
      have hreduced : filterStateSaysNothing p iso
        (s.reduce (sections p iso sameInstant) inherited).filters=true := by
        rw [hfilters]
        rfl
      rw [selects_of_saysNothing h,selects_of_saysNothing hreduced]
    | false =>
      have hfilters : (s.reduce (sections p iso sameInstant) inherited).filters=s.filters :=
        if_neg (by simp [sections,h])
      rw [selects,hfilters]
      rfl
  context := by
    cases h : filterStateSaysNothing p iso s.filters with
    | true =>
      have hfilters : (s.reduce (sections p iso sameInstant) inherited).filters=[] := if_pos h
      obtain ⟨⟨hbefore,hafter⟩,-⟩ := axes_of_saysNothing h
      rw [context,context,hfilters,hbefore,hafter]
      rfl
    | false =>
      have hfilters : (s.reduce (sections p iso sameInstant) inherited).filters=s.filters :=
        if_neg (by simp [sections,h])
      rw [context,hfilters]
      rfl
  run := by
    simp only [LogFileSettings.reduce]
    split
    · rename_i h
      rw [choice_of_saysNothing h]
      rfl
    · rfl

/-- What is left of a record that says nothing is what there is without one. -/
theorem sameEffect_blank (h : t.saysSomething (sections p iso sameInstant)=false) (address : String) :
    SameEffect p iso inherited (LogFileSettings.blank (sections p iso sameInstant) address) t := by
  simp only [LogFileSettings.saysSomething,Bool.or_eq_false_iff] at h
  obtain ⟨⟨⟨hprofile,hfilters⟩,hrules⟩,hrun⟩ := h
  have hprofile : t.profile=none := by simpa using hprofile
  have hrules : t.highlighters=none := by simpa using hrules
  have hfilters : t.filters=[] := List.isEmpty_iff.mp (by simpa [sections] using hfilters)
  have hrun : t.run.saysNothing=true := by simpa using hrun
  constructor
  · constructor
    · rw [effectiveProfile,hprofile]
      rfl
    · rw [effectiveRules,hrules]
      rfl
    · intro idx format displayZone r message
      rw [selects,hfilters]
      rfl
    · rw [context,hfilters]
      rfl
  · rw [choice_of_saysNothing hrun]
    rfl

private theorem reduce_idem (sameInstant : LocalDateTime→LocalDateTime→Bool) (s : LogRecord)
    (inherited : LogProfile) :
    (s.reduce (sections p iso sameInstant) inherited).reduce (sections p iso sameInstant) inherited=
      s.reduce (sections p iso sameInstant) inherited := by
  obtain ⟨address,profile,filters,highlighters,run⟩ := s
  simp only [LogFileSettings.reduce,LogFileSettings.mk.injEq,true_and]
  refine ⟨?profile,?filters,?rules,?run⟩
  case profile =>
    by_cases h : profile=some inherited <;> simp [h]
  case filters =>
    split
    · split <;> rfl
    · rfl
  case rules =>
    cases h : highlighters.any (sections p iso sameInstant).areDefaults <;> simp [h]
  case run =>
    split <;> rfl

/-- Reducing and filing a record keeps its effect, a record that says nothing has the effect of none, and
reducing again changes nothing. -/
theorem reduced_settings (sameInstant : LocalDateTime→LocalDateTime→Bool) (s : LogRecord) (inherited : LogProfile) :
    let reduced := s.reduce (sections p iso sameInstant) inherited
    (∃u,fromJson (toJson reduced)=some u ∧ u.address=s.address ∧ SameSettings p iso inherited s u ∧
      (Representable s.run → u.run.choice=s.run.choice)) ∧
    (reduced.saysSomething (sections p iso sameInstant)=false → 
      SameEffect p iso inherited (LogFileSettings.blank (sections p iso sameInstant) s.address) s) ∧
    reduced.reduce (sections p iso sameInstant) inherited=reduced := by
  intro reduced
  have hsame : SameEffect p iso inherited s reduced := sameEffect_reduce sameInstant s inherited
  refine ⟨⟨_,fromJson_toJson reduced,rfl,⟨hsame.profile,hsame.rules,hsame.filters,hsame.context⟩,fun hrun =>
    ?run⟩,fun h => ?blank,reduce_idem sameInstant s inherited⟩
  case run =>
    cases h : s.run.saysNothing with
    | true =>
      have hreduced : reduced.run=.last := if_pos h
      rw [hreduced,choice_of_saysNothing h]
      rfl
    | false =>
      have hreduced : reduced.run=s.run := if_neg (by simp [h])
      simp only [hreduced,h,runFromJson_toJson hrun,Bool.false_eq_true,if_false]
  case blank => exact (sameEffect_blank h s.address).trans hsame.symm

/-- Every rule deleted, and a run that is pinned. -/
def pinned : LogRecord := ⟨"/var/log/app.log",some .builtIn,[],some [],⟨false,4096,1000⟩⟩

theorem reduced_settings_pinned :
    ∃u,fromJson (toJson (pinned.reduce (sections .ascii .plain fun a b => decide (a=b)) .builtIn))=some u ∧
      effectiveRules .ascii .plain u=[] ∧ u.run.choice=.byStart 4096 1000 := by
  obtain ⟨⟨u,hread,-,hsame,hrun⟩,-⟩ := @reduced_settings .ascii .plain (fun a b => decide (a=b)) pinned .builtIn
  have hrepresentable : Representable pinned.run := by
    rw [pinned,Representable]
    decide
  exact ⟨u,hread,hsame.rules.trans rfl,(hrun hrepresentable).trans rfl⟩

end LogRecord
end Loftail
