import Mathlib.Data.Prod.Lex
import Mathlib.Data.Rat.Defs
import Mathlib.Algebra.Order.Field.Rat
import Loftail.FirstBest
import Loftail.FirstSeen
import Loftail.FormatPreview
import Loftail.LineInference

/-! # Detecting the format of a log

Candidates are rated by how many of the sample's records they parse. A library of known patterns comes
first, patterns inferred from the sample's lines second, and where neither is good enough nothing is said. -/
namespace Loftail
open DelimitedLines FirstBest

namespace FormatDetector

def kScoreRecords : ℕ := 200

def kMinConfidence : ℚ := 6/10

def kInferenceLines : ℕ := 60

/-- The loop over the sample's lines from `pos` on. -/
def decodeFrom (sample : Bytes) (decoder : Decoder) (maxLines : ℕ) : ℕ→ℕ→List Text→List Text
  | 0,_,lines => lines
  | fuel+1,pos,lines =>
    if pos<sample.length ∧ lines.length < maxLines then
      let e := decoder.lineEnd sample pos
      let contentLen := (e.1-pos)-(if e.2 then decoder.unitSize else 0)
      let lines := lines++[decoder.decodeLine ((sample.drop pos).take contentLen)]
      if e.1≤pos then lines else decodeFrom sample decoder maxLines fuel e.1 lines
    else lines

def decodeLines (sample : Bytes) (decoder : Decoder) (maxLines : ℕ) : List Text :=
  decodeFrom sample decoder maxLines (sample.length+1) decoder.bomLength []

/-- A candidate and its rating; of one that does not compile there is no format. Rates are of at most 200
records: as doubles they compare as they do here. -/
structure Scored where
  pattern : Text
  format : Option CompiledFormat
  score : ℚ
  fields : ℕ

def scoreCandidate (p : Platform) (sample : Bytes) (decoder : Decoder) (pattern : Text) : Scored :=
  match PatternCompiler.compile p pattern with
  | .error _ => ⟨pattern,none,0,0⟩
  | .ok format =>
    match FormatPreview.build format sample decoder kScoreRecords with
    | none => ⟨pattern,some format,0,format.fields.length⟩
    | some pv => ⟨pattern,some format,if pv.totalCount>0 then pv.matchedCount/pv.totalCount else 0,
      format.fields.length⟩

/-- Rank by score, then by field count. -/
def better (a b : Scored) : Bool := if a.score≠b.score then a.score>b.score else a.fields>b.fields

/-- The components of a date with slashes at the start of a line. -/
def slashComponents : Text→Option (ℕ×ℕ)
  | a::b::s::c::d::t::rest =>
    let year := rest.takeWhile isAsciiDigit
    if [a,b,c,d].all isAsciiDigit ∧ s=0x2F ∧ t=0x2F ∧ 2≤year.length ∧ year.length≤4 ∧
        startsWith (latin1 " T").contains (rest.dropWhile isAsciiDigit) then
      some ((a-0x30).toNat*10+(b-0x30).toNat,(c-0x30).toNat*10+(d-0x30).toNat)
    else none
  | _ => none

/-- A component past 12 can only be a day. -/
def inferDateOrder : List Text→DateOrder
  | [] => .monthFirst
  | line::lines =>
    match slashComponents line with
    | some (first,second) => if first>12 then .dayFirst else if second>12 then .monthFirst else inferDateOrder lines
    | none => inferDateOrder lines

/-- `QString::replace` of `%m/%d/`; a match has taken the first `skip` characters. -/
def swapDate : Text→ℕ→Text
  | [],_ => []
  | _::rest,skip+1 => swapDate rest skip
  | c::rest,0 => if (latin1 "%m/%d/").isPrefixOf (c::rest) then
    latin1 "%d/%m/"++swapDate rest 5 else c::swapDate rest 0

def applyDateOrder (order : DateOrder) (pattern : Text) : Text :=
  match order with
  | .dayFirst => swapDate pattern 0
  | .monthFirst => pattern

def candidateLibrary : List Text :=
  [latin1 "%d\x7b%Y-%m-%d %H:%M:%S,%q\x7d [%t] %-5p %c - %m%n",
   latin1 "%D\x7b%Y-%m-%d %H:%M:%S,%q\x7d [%t] %-5p %c - %m%n",
   latin1 "%d\x7b%Y-%m-%d %H:%M:%S,%q\x7d %-5p %c [%t] %m%n",
   latin1 "%d\x7b%Y-%m-%d %H:%M:%S,%q\x7d %-5p [%c] %m%n",
   latin1 "%d\x7b%Y-%m-%d %H:%M:%S,%q\x7d %-5p %c - %m%n",
   latin1 "%d\x7b%Y-%m-%d %H:%M:%S\x7d [%t] %-5p %c - %m%n",
   latin1 "%d\x7b%Y-%m-%d %H:%M:%S\x7d %-5p %c - %m%n",
   latin1 "%d\x7b%Y-%m-%d %H:%M:%S\x7d %p %c - %m%n",
   latin1 "%d\x7b%Y-%m-%d %H:%M:%S,%q\x7d [%t] %-5p %c %m%n",
   latin1 "%d\x7b%Y-%m-%d %H:%M:%S,%q\x7d %-5p %c [%x] - %m%n",
   latin1 "%d\x7b%Y-%m-%d %H:%M:%S\x7d %-5p %c [%x] - %m%n",
   latin1 "%D\x7b%m/%d/%y %H:%M:%S\x7d %-5p %c [%x] - %m%n",
   latin1 "%D\x7b%m/%d/%y %H:%M:%S\x7d [%t] %-5p %c - %m%n",
   latin1 "%D\x7b%m/%d/%y %H:%M:%S\x7d %-5p %c - %m%n",
   latin1 "%D\x7b%m/%d/%y %H:%M:%S,%q\x7d %-5p %c [%x] - %m%n",
   latin1 "%D\x7b%m/%d/%Y %H:%M:%S\x7d %-5p %c [%x] - %m%n",
   latin1 "%D\x7b%m/%d/%Y %H:%M:%S\x7d %-5p %c - %m%n",
   latin1 "%d\x7b%m/%d/%y %H:%M:%S\x7d %-5p %c - %m%n",
   latin1 "%d\x7b%H:%M:%S,%q\x7d [%t] %-5p %c - %m%n",
   latin1 "%d\x7b%H:%M:%S\x7d %-5p %c - %m%n",
   latin1 "%d [%t] %-5p %c - %m%n",
   latin1 "%d %-5p %c - %m%n",
   latin1 "%D\x7b%b %e %H:%M:%S\x7d %h %c[%i]: %m%n",
   latin1 "%D\x7b%b %e %H:%M:%S\x7d %h %c: %m%n",
   latin1 "%D\x7b%b %e %H:%M:%S\x7d %h %m%n",
   latin1 "%D\x7b%Y-%m-%dT%H:%M:%S.%Q%z\x7d %h %c[%i]: %m%n",
   latin1 "%D\x7b%Y-%m-%dT%H:%M:%S.%Q%z\x7d %h %c: %m%n",
   latin1 "%D\x7b%Y-%m-%dT%H:%M:%S.%Q%z\x7d %h %m%n"]

inductive DetectionSource | none | library | inference
  deriving DecidableEq

structure DetectionResult where
  detected : Bool
  source : DetectionSource
  pattern : Text
  format : Option CompiledFormat
  score : ℚ

def DetectionResult.empty : DetectionResult := ⟨false,.none,[],none,0⟩

def Scored.result (source : DetectionSource) (best : Scored) : DetectionResult :=
  ⟨true,source,best.pattern,best.format,best.score⟩

/-- The candidates that compile, with their ratings. -/
def rated (p : Platform) (sample : Bytes) (decoder : Decoder) (candidates : List Text) : List Scored :=
  (candidates.map (scoreCandidate p sample decoder)).filter fun s => s.format.isSome

/-- The library, its dates read the way the sample's are. -/
def libraryCandidates (lines : List Text) : List Text := candidateLibrary.map
    (applyDateOrder (inferDateOrder lines))

/-- What the sample's lines give, each once. -/
def inferredCandidates (p : Platform) (lines : List Text) : List Text :=
  FirstSeen.seeAll [] (lines.flatMap fun line => synthesizeFromLine p.isDigit line (inferDateOrder lines))

/-- The best of some candidates, if it is good enough. -/
def confident (scored : List Scored) : Option Scored := (bestOf better scored).filter (kMinConfidence ≤ ·.score)

def detect (p : Platform) (sample : Bytes) (decoder : Decoder) : DetectionResult :=
  if sample=[] then .empty
  else
    let lines := decodeLines sample decoder kInferenceLines
    match confident (rated p sample decoder (libraryCandidates lines)) with
    | some best => best.result .library
    | none =>
      match confident (rated p sample decoder (inferredCandidates p lines)) with
      | some best => best.result .inference
      | none => .empty

/-! ## The sample's lines -/

private theorem decodeFrom_lines (sample : Bytes) (decoder : Decoder) (maxLines fuel : ℕ) {pos : ℕ}
    (texts : List Text) (hfuel : sample.length-pos<fuel) : decodeFrom sample decoder maxLines fuel pos texts=
      texts++((lines decoder.finder (sample.drop pos)).take (maxLines-texts.length)).map decoder.lineText := by
  induction fuel generalizing pos texts with
  | zero => omega
  | succ fuel ih =>
    rw [decodeFrom]
    by_cases hpos : pos<sample.length
    · by_cases hmore : texts.length < maxLines
      · obtain ⟨k,hk⟩ : ∃k,maxLines-texts.length=k+1 := ⟨maxLines-texts.length-1,by omega⟩
        rw [if_pos ⟨hpos,hmore⟩,hk]
        have hne : sample.drop pos≠[] := by
          simp
          omega
        cases hn : decoder.newline (sample.drop pos) with
        | some n =>
          have hle := @LineFinder.le _ decoder.finder (sample.drop pos) _ hn
          have hp := @LineFinder.pos _ decoder.finder (sample.drop pos) _ hn
          rw [List.length_drop] at hle
          have hlen : ((sample.drop pos).take n).length=n := by
            simp
            omega
          have hterm : decoder.finder.Terminated ((sample.drop pos).take n) :=
            @LineFinder.terminated_take _ decoder.finder (sample.drop pos) _ hn
          have htext : decoder.decodeLine ((sample.drop pos).take (n-decoder.unitSize))=
              decoder.lineText ((sample.drop pos).take n) := by
            rw [Decoder.lineText,Decoder.lineContent,if_pos hterm,hlen,List.take_take,
              Nat.min_eq_left (Nat.sub_le _ _)]
          rw [lines_of_find decoder.finder hn]
          simp only [Decoder.lineEnd_of_newline hn,if_true,Nat.add_sub_cancel_left,htext]
          rw [if_neg (by omega),ih _ (by omega),List.drop_drop,List.take_succ_cons,List.map_cons]
          have hroom : maxLines-(texts++[decoder.lineText ((sample.drop pos).take n)]).length=k := by
            rw [List.length_append,List.length_singleton]
            omega
          rw [hroom,List.append_assoc,List.singleton_append]
        | none =>
          have hnot : ¬decoder.finder.Terminated (sample.drop pos) := by
            intro hterm
            rw [LineFinder.Terminated] at hterm
            cases hn.symm.trans hterm
          have htext : decoder.decodeLine ((sample.drop pos).take (sample.length-pos-0))=decoder.lineText
            (sample.drop pos) := by
            rw [Decoder.lineText,Decoder.lineContent,if_neg hnot,List.length_drop]
          rw [lines_of_unfound decoder.finder hne hn,List.take_succ_cons,List.take_nil,List.map_cons,List.map_nil]
          simp only [Decoder.lineEnd_of_none hn,Bool.false_eq_true,if_false,htext]
          rw [if_neg (by omega),ih _ (by omega),List.drop_length,lines_nil,List.take_nil,List.map_nil,
            List.append_nil]
      · have hnone : maxLines-texts.length=0 := by omega
        rw [if_neg fun h => hmore h.2,hnone,List.take_zero,List.map_nil,List.append_nil]
    · rw [if_neg fun h => hpos h.1,List.drop_of_length_le (by omega),lines_nil,List.take_nil,List.map_nil,
        List.append_nil]

/-- The sample's first lines, cut as the indexer cuts them. -/
theorem decodeLines_lines (sample : Bytes) (decoder : Decoder) (maxLines : ℕ) : decodeLines sample decoder maxLines=
    ((lines decoder.finder (sample.drop decoder.bomLength)).take maxLines).map decoder.lineText :=
  decodeFrom_lines sample decoder maxLines _ [] (by omega)

/-- Patterns are inferred from the first lines of the sample, each kept once. -/
theorem inferredCandidates_lines (p : Platform) (sample : Bytes) (decoder : Decoder) (maxLines : ℕ) :
    (inferredCandidates p (decodeLines sample decoder maxLines)).Nodup ∧
    ∀pattern,pattern∈inferredCandidates p (decodeLines sample decoder maxLines) ↔
      ∃line∈(lines decoder.finder (sample.drop decoder.bomLength)).take maxLines,
      pattern∈synthesizeFromLine p.isDigit
        (decoder.lineText line) (inferDateOrder (decodeLines sample decoder maxLines)) := by
  constructor
  · exact FirstSeen.nodup_seeAll List.nodup_nil
  · intro pattern
    rw [inferredCandidates,FirstSeen.mem_seeAll,List.mem_flatMap]
    generalize inferDateOrder _=order
    rw [decodeLines_lines]
    constructor
    · rintro (hnone | ⟨text,htext,hpattern⟩)
      · cases hnone
      · obtain ⟨line,hline,rfl⟩ := List.mem_map.mp htext
        exact ⟨line,hline,hpattern⟩
    · rintro ⟨line,hline,hpattern⟩
      exact Or.inr ⟨_,List.mem_map_of_mem hline,hpattern⟩

/-! ## What is found -/

section Found
variable {p : Platform} {sample : Bytes} {decoder : Decoder} {candidates : List Text} {scored : List Scored}
  {best s : Scored}

/-- By score, and by the number of fields where scores are equal. -/
def Scored.rank (s : Scored) : Lex (ℚ×ℕ) := toLex (s.score,s.fields)

theorem better_rank (a b : Scored) : better a b=true ↔ b.rank<a.rank := by
  rw [better,Scored.rank,Scored.rank,Prod.Lex.toLex_lt_toLex]
  by_cases h : a.score=b.score
  · simp [h]
  · rw [if_pos h]
    simp [Ne.symm h]

theorem confident_some (h : confident scored=some best) : IsFirst Scored.rank scored best ∧
    kMinConfidence ≤ best.score := by
  obtain ⟨hbest,hscore⟩ := Option.filter_eq_some_iff.mp h
  exact ⟨bestOf_isFirst better_rank hbest,of_decide_eq_true hscore⟩

/-- What compiles is rated by the preview of the sample. -/
theorem rated_mem (h : best∈rated p sample decoder candidates) :
    ∃format pv,PatternCompiler.compile p best.pattern=.ok format ∧ best.format=some format ∧
      FormatPreview.build format sample decoder kScoreRecords=some pv ∧
      best.score=if pv.totalCount>0 then (pv.matchedCount : ℚ)/pv.totalCount else 0 := by
  obtain ⟨hmem,hvalid⟩ := List.mem_filter.mp h
  obtain ⟨pattern,-,rfl⟩ := List.mem_map.mp hmem
  rw [scoreCandidate] at hvalid ⊢
  cases hcompile : PatternCompiler.compile p pattern with
  | error e =>
    rw [hcompile] at hvalid
    cases hvalid
  | ok format =>
    obtain ⟨pv,hpv⟩ : ∃pv,FormatPreview.build format sample decoder kScoreRecords=some pv := by
      obtain ⟨-,rows,-,hbuild,-⟩ := FormatPreview.build_agrees
        ⟨p,format.toLogFormat,decoder,p.utcZone,1,Nat.one_pos⟩ format.fields sample kScoreRecords
      exact ⟨_,hbuild⟩
    refine ⟨format,pv,?_⟩
    dsimp only
    rw [hpv]
    exact ⟨hcompile,rfl,rfl,rfl⟩

/-- The line a record lies at starts one. -/
def opensAt (ix : Indexer) (sample : Bytes) (r : Record) : Bool :=
  (lines ix.decoder.finder (sample.drop r.offset)).head?.any ix.isStart

/-- The preview counts the records of a pass that a start line opens. -/
theorem build_counts (ix : Indexer) (fields : List Field) (sample : Bytes) (maxRecords : ℕ) :
    ∃s pv,ix.forwardScan sample ix.decoder.bomLength [] .empty .empty (fun _ => true)=some (true,s) ∧
      FormatPreview.build ⟨ix.format,fields⟩ sample ix.decoder maxRecords=some pv ∧
      pv.totalCount=(s.records.take maxRecords).length ∧
      pv.matchedCount=(s.records.take maxRecords).countP (opensAt ix sample) := by
  obtain ⟨s,rows,hscan,hbuild,hlen,hrows⟩ := FormatPreview.build_agrees ix fields sample maxRecords
  rw [Int.toNat_natCast] at hlen
  have hmatched : rows.map PreviewRow.matched=(s.records.take maxRecords).map (opensAt ix sample) := by
    apply List.ext_getElem
    · rw [List.length_map,List.length_map,List.length_take,hlen]
    · intro i hi hi'
      rw [List.length_map] at hi hi'
      obtain ⟨line,more,-,hpre,-,-,hstart,-⟩ := hrows i rows[i] (s.records.take maxRecords)[i]
        (List.getElem?_eq_getElem hi) (by rw [List.getElem_take,List.getElem?_eq_getElem])
      obtain ⟨later,hlines⟩ := hpre
      rw [List.getElem_map,List.getElem_map,opensAt,← hlines]
      exact Bool.eq_iff_iff.mpr hstart
  refine ⟨s,_,hscan,hbuild,?_,?_⟩
  · rw [List.length_take,hlen]
  · have hcount : (rows.map PreviewRow.matched).countP id=rows.countP PreviewRow.matched := List.countP_map ..
    rw [← hcount,hmatched,List.countP_map]
    rfl

/-- Indexing the sample with a format finds records, and `share` of the first 200 are opened by a start line. -/
def StartShare (sample : Bytes) (decoder : Decoder) (format : CompiledFormat) (share : ℚ) : Prop :=
  ∀ix : Indexer,ix.decoder=decoder→ix.format=format.toLogFormat→
    ∃s,ix.forwardScan sample decoder.bomLength [] .empty .empty (fun _ => true)=some (true,s) ∧ s.records≠[] ∧
      share=((s.records.take kScoreRecords).countP (opensAt ix sample) : ℚ)/(s.records.take kScoreRecords).length

private theorem rated_startShare (h : best∈rated p sample decoder candidates)
    (hscore : kMinConfidence ≤ best.score) :
    ∃format,PatternCompiler.compile p best.pattern=.ok format ∧ best.format=some format ∧
      StartShare sample decoder format best.score := by
  obtain ⟨format,pv,hcompile,hformat,hbuild,hrate⟩ := rated_mem h
  refine ⟨format,hcompile,hformat,?_⟩
  rintro ix rfl hix
  obtain ⟨s,pv',hscan,hbuild',htotal,hmatched⟩ := build_counts ix format.fields sample kScoreRecords
  rw [hix] at hbuild'
  obtain rfl := Option.some_inj.mp (hbuild.symm.trans hbuild')
  have hpos : pv.totalCount>0 := by
    by_contra hzero
    rw [hrate,if_neg hzero] at hscore
    exact absurd hscore (by decide +kernel)
  refine ⟨s,hscan,?_,?_⟩
  · rintro hnone
    rw [htotal,hnone] at hpos
    exact absurd hpos (by decide)
  · rw [hrate,if_pos hpos,htotal,hmatched]

/-- What is found is a rated candidate that is good enough. -/
theorem detect_rated (p : Platform) (sample : Bytes) (decoder : Decoder) :
    detect p sample decoder=.empty ∨ ∃candidates best source,best∈rated p sample decoder candidates ∧
      kMinConfidence ≤ best.score ∧ detect p sample decoder=best.result source := by
  rw [detect]
  split
  · exact Or.inl rfl
  · dsimp only
    split
    · rename_i best hbest
      obtain ⟨hfirst,hscore⟩ := confident_some hbest
      exact Or.inr ⟨_,best,_,hfirst.mem,hscore,rfl⟩
    · split
      · rename_i best hbest
        obtain ⟨hfirst,hscore⟩ := confident_some hbest
        exact Or.inr ⟨_,best,_,hfirst.mem,hscore,rfl⟩
      · exact Or.inl rfl

/-- A detected format is compiled from the detected pattern, and the score is the share of the records that
indexing the sample with it opens at a start line. -/
theorem detect_indexes (p : Platform) (sample : Bytes) (decoder : Decoder) :
    detect p sample decoder=.empty ∨
    ∃pattern format score,(detect p sample decoder).pattern=pattern ∧ (detect p sample decoder).format=some format ∧
      (detect p sample decoder).score=score ∧ PatternCompiler.compile p pattern=.ok format ∧ 6/10 ≤ score ∧
      StartShare sample decoder format score := by
  rcases detect_rated p sample decoder with hempty | ⟨candidates,best,source,hbest,hscore,hdetect⟩
  · exact Or.inl hempty
  · obtain ⟨format,hcompile,hformat,hshare⟩ := rated_startShare hbest hscore
    rw [hdetect]
    exact Or.inr ⟨_,format,_,rfl,hformat,rfl,hcompile,hscore,hshare⟩

end Found

end FormatDetector

end Loftail
