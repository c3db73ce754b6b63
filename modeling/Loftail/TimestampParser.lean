import Loftail.Platform

/-! # Reading a timestamp field -/
namespace Loftail

namespace TimestampParser

def kFutureGraceMs : ℤ := 24*60*60*1000

def kEnglishShortMonths : List Text :=
  ["jan","feb","mar","apr","may","jun","jul","aug","sep","oct","nov","dec"].map latin1

def kEnglishLongMonths : List Text :=
  ["january","february","march","april","may","june","july","august","september","october",
    "november","december"].map latin1

end TimestampParser

structure TimestampParser where
  tokens : List DateToken
  zone : Zone
  qtFormat : Text
  valid : Bool
  months : List (Text×ℕ)
  inferYear : Bool
  assumedYear : ℤ
  futureCutoffMs : ℤ

namespace TimestampParser

private def namesYear (t : DateToken) : Bool := t.kind=.year4 || t.kind=.year2 || t.kind=.epochSeconds

private def namesMonth (t : DateToken) : Bool := t.kind=.monthNumber || t.kind=.monthName

private def namesWords (t : DateToken) : Bool := t.kind=.monthName || t.kind=.skipWord

/-- The insertions into the month table, in their order. -/
def monthTable (p : Platform) : List (Text×ℕ) :=
  (List.range 12).flatMap (fun i =>
      [(kEnglishShortMonths.getD i [],i+1),(kEnglishLongMonths.getD i [],i+1)])++
    (List.range 12).flatMap (fun i => [(p.toLower (p.shortMonth (i+1)),i+1),(p.toLower (p.longMonth (i+1)),i+1)])

def make (p : Platform) (format : DateFormat) (sourceZone : Zone) : TimestampParser :=
  let valid := !(format.tokens.isEmpty && format.qtFormat.isEmpty)
  let infer := !format.tokens.any namesYear && format.tokens.any namesMonth &&
    format.tokens.any (fun t => t.kind=.day)
  {tokens := format.tokens
   zone := sourceZone
   qtFormat := format.qtFormat
   valid := valid
   months := if valid && format.tokens.any namesWords then monthTable p else []
   inferYear := valid && infer
   assumedYear := if valid && infer then p.currentYear else 1970
   futureCutoffMs := if valid && infer then p.currentMSecs+kFutureGraceMs else 0}

/-- The table's answer: a later insertion of a name replaces an earlier one. -/
def month (tp : TimestampParser) (word : Text) : Option ℕ :=
  (tp.months.reverse.find? (fun e => e.1=word)).map Prod.snd

/-- What the token loop has gathered, and the text it has not read. -/
structure Parts where
  rest : Text
  year : ℤ
  month : ℕ
  day : ℕ
  hour : ℕ
  minute : ℕ
  second : ℕ
  millis : ℕ
  pm : Bool
  hour12 : Bool
  epoch : Option ℕ
  offset : Option ℤ

private def digits (p : Platform) : ℕ→Text→ℕ→ℕ→ℕ×ℕ×Text
  | w+1,c::cs,value,n => if p.isDigit c then digits p w cs (value*10+(c.toNat-0x30)) (n+1) else (value,n,c::cs)
  | _,cs,value,n => (value,n,cs)

/-- Spaces, then one digit at least and `maxWidth` at most. -/
def readInt (p : Platform) (maxWidth : ℕ) (text : Text) : Option (ℕ×Text) :=
  let (value,n,rest) := digits p maxWidth (text.dropWhile (fun c => c=0x20)) 0 0
  if n=0 then none else some (value,rest)

/-- A run of letters, and the dot after it unless the format claims that dot. -/
def readWord (p : Platform) (tok : DateToken) (text : Text) : Text×Text :=
  let word := text.takeWhile p.isLetter
  let rest := text.drop word.length
  match rest with
  | c::cs => if !tok.literalDotFollows && c=0x2E then (word,cs) else (word,rest)
  | [] => (word,rest)

/-- `+hh:mm`, its colon optional, or `Z`. -/
def readOffset (p : Platform) (text : Text) : Option (ℤ×Text) :=
  match text with
  | [] => none
  | c::cs =>
    if c=0x5A || c=0x7A then some (0,cs)
    else if c≠0x2D && c≠0x2B then none
    else do
      let (oh,cs) ← readInt p 2 cs
      let (om,cs) ← readInt p 2 (match cs with
        | c::ds => if c=0x3A then ds else c::ds
        | [] => [])
      some (((oh*3600+om*60 : ℕ) : ℤ)*(if c=0x2D then -1 else 1),cs)

/-- One token; nothing is what `return kNoTimestamp` answers. -/
def step (p : Platform) (tp : TimestampParser) (s : Parts) (tok : DateToken) : Option Parts :=
  match tok.kind with
  | .year4 => (readInt p 4 s.rest).map (fun (v,r) => {s with rest := r,year := v})
  | .year2 => (readInt p 2 s.rest).map (fun (v,r) => {s with rest := r,year := (v : ℤ)+if v<70 then 2000 else 1900})
  | .monthNumber => (readInt p 2 s.rest).map (fun (v,r) => {s with rest := r,month := v})
  | .monthName =>
    let (word,r) := readWord p tok s.rest
    if word.isEmpty then none else (tp.month (p.toLower word)).map (fun v => {s with rest := r,month := v})
  | .day => (readInt p 2 s.rest).map (fun (v,r) => {s with rest := r,day := v})
  | .hour24 => (readInt p 2 s.rest).map (fun (v,r) => {s with rest := r,hour := v})
  | .hour12 => (readInt p 2 s.rest).map (fun (v,r) => {s with rest := r,hour := v,hour12 := true})
  | .minute => (readInt p 2 s.rest).map (fun (v,r) => {s with rest := r,minute := v})
  | .second => (readInt p 2 s.rest).map (fun (v,r) => {s with rest := r,second := v})
  | .millis => (readInt p 3 s.rest).map (fun (v,r) => {s with rest := r,millis := v})
  | .millisFrac => do
    let (v,r) ← readInt p 3 s.rest
    let r := match r with
      | c::cs => if c=0x2E then cs else c::cs
      | [] => []
    -- The sub-millisecond remainder is optional and kept nowhere.
    let r ← if (r.head?.map p.isDigit).getD false then (readInt p 6 r).map Prod.snd else some r
    some {s with rest := r,millis := v}
  | .amPm =>
    match readWord p tok s.rest with
    | ([a,m],r) =>
      if p.toUpper m≠0x4D || (p.toUpper a≠0x41 && p.toUpper a≠0x50) then none
      else some {s with rest := r,pm := decide (p.toUpper a=0x50)}
    | _ => none
  | .epochSeconds => (readInt p tok.width s.rest).map (fun (v,r) => {s with rest := r,epoch := some v})
  | .utcOffset => (readOffset p s.rest).map (fun (v,r) => {s with rest := r,offset := some v})
  | .skipDigits => (readInt p tok.width s.rest).map (fun (_,r) => {s with rest := r})
  | .skipWord =>
    let (word,r) := readWord p tok s.rest
    if word.isEmpty then none else some {s with rest := r}
  | .literal =>
    match s.rest with
    | [] => none
    | c::cs =>
      if tok.literal=0x20 then if isSpace c then some {s with rest := cs.dropWhile isSpace} else none
      else if c=tok.literal then some {s with rest := cs} else none

def isLeapYear (year : ℤ) : Bool := decide (year%4=0) && (decide (year%100≠0) || decide (year%400=0))

def daysInMonth (year : ℤ) (month : ℕ) : ℕ :=
  if month=2 then (if isLeapYear year then 29 else 28)
  else if month=4 || month=6 || month=9 || month=11 then 30 else 31

/-- `QDate::isValid` and `QTime::isValid`. There is no year zero. -/
def dateValid (year : ℤ) (month day : ℕ) : Bool :=
  decide (year≠0) && decide (1 ≤ month) && decide (month≤12) && decide (1≤day) && decide
    (day≤daysInMonth year month)

def timeValid (hour minute second msec : ℕ) : Bool :=
  decide (hour<24) && decide (minute<60) && decide (second<60) && decide (msec<1000)

def instantAt (zone : Zone) (s : Parts) (hour : ℕ) (year : ℤ) : ℤ :=
  if dateValid year s.month s.day then
    (zone.instant ⟨year,s.month,s.day,hour,s.minute,s.second,s.millis⟩).getD kNoTimestamp
  else kNoTimestamp

/-- After the tokens: an epoch outright, else the calendar in its zone. -/
def finish (p : Platform) (tp : TimestampParser) (s : Parts) : ℤ :=
  match s.epoch with
  | some e => (e : ℤ)*1000+s.millis
  | none =>
    let hour := if s.hour12 then (if s.hour=12 then 0 else s.hour)+(if s.pm then 12 else 0) else s.hour
    if !timeValid hour s.minute s.second s.millis then kNoTimestamp else
      let zone := match s.offset with
        | some o => p.fixedOffset o
        | none => tp.zone
      let ms := instantAt zone s hour s.year
      -- 29 February in a common year, or a record from before this New Year.
      if tp.inferYear && (decide (ms=kNoTimestamp) || decide (ms>tp.futureCutoffMs)) then
        let previous := instantAt zone s hour (s.year-1)
        if previous≠kNoTimestamp then previous else ms
      else ms

def start (tp : TimestampParser) (text : Text) : Parts :=
  {rest := text,year := if tp.inferYear then tp.assumedYear else 1970,month := 1,day := 1,hour := 0,
   minute := 0,second := 0,millis := 0,pm := false,hour12 := false,epoch := none,offset := none}

def parse (p : Platform) (tp : TimestampParser) (text : Text) : ℤ :=
  if !tp.valid then kNoTimestamp
  else if tp.tokens.isEmpty then
    match p.fromString text tp.qtFormat with
    | none => kNoTimestamp
    | some dt => (tp.zone.instant dt).getD (tp.zone.stretched dt)
  else
    match tp.tokens.foldlM (step p tp) (tp.start text) with
    | none => kNoTimestamp
    | some s => finish p tp s

end TimestampParser

end Loftail
