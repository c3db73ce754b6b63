import Loftail.ShellCommands
import Mathlib.Tactic.IntervalCases

/-! # No path gets out of its word

Each command is its template's words, with the path as one word that is quoted throughout. -/
namespace Loftail.SshExec
open Shell

section Quoting
variable {w : Option (List Letter)} {ts : List Token}

/-- A quoted path goes on the word in progress as it is. -/
theorem read_quote (path : Text) : read
    (shellQuote path) ⟨.plain,w,ts⟩=⟨.plain,some (w.getD []++quoted path),ts⟩ := by
  have inside : ∀v : List Letter,read (path.flatMap fun c => if c=0x27 then [0x27,0x5C,0x27,0x27] else [c])
    ⟨.single,some v,ts⟩=
      ⟨.single,some (v++quoted path),ts⟩ := by
    induction path with
    | nil =>
      intro v
      simp [quoted]
    | cons c path ih =>
      intro v
      -- A quote closes the run, stands escaped outside it, and opens the next.
      have hstep : read (if c=0x27 then [0x27,0x5C,0x27,0x27] else [c]) ⟨.single,some v,ts⟩=
          ⟨.single,some (v++[⟨c,true⟩]),ts⟩ := by
        split
        · rename_i hc
          rw [hc]
          rfl
        · rename_i hc
          have hsingle : 0x27∉[c] := by simpa using Ne.symm hc
          simpa [quoted] using read_single hsingle v ts
      rw [List.flatMap_cons,read_append,hstep,ih]
      simp [quoted]
  change read (path.flatMap _++[0x27]) ⟨.single,some (w.getD []),ts⟩=_
  rw [read_append,inside]
  rfl

/-- What is read once tokens are complete leaves them as they are. -/
theorem read_after (text : Text) (l : Lexer) (us : List Token) :
    read text {l with tokens := us++l.tokens}={read text l with tokens := us++(read text l).tokens} := by
  induction text generalizing l with
  | nil => rfl
  | cons c text ih =>
    have flush : ∀l : Lexer,({l with tokens := us++l.tokens} : Lexer).flush=
        {l.flush with tokens := us++l.flush.tokens} := by
      rintro ⟨mode,_ | w,ts⟩
      · rfl
      · simp [Lexer.flush]
    have operator : ∀l : Lexer,({l with tokens := us++l.tokens} : Lexer).operator c=
        {l.operator c with tokens := us++(l.operator c).tokens} := by
      intro l
      unfold Lexer.operator
      rw [flush]
      simp
    have hstep : Lexer.step {l with tokens := us++l.tokens} c={l.step c with tokens := us++(l.step c).tokens} := by
      obtain ⟨mode,w,ts⟩ := l
      cases mode with
      | plain =>
        unfold Lexer.step
        dsimp only
        split_ifs
        · rfl
        · rfl
        · rfl
        · exact flush ⟨.plain,w,ts⟩
        · exact operator ⟨.plain,w,ts⟩
        · rfl
        · rfl
      | comment =>
        unfold Lexer.step
        dsimp only
        split_ifs
        · exact operator ⟨.comment,w,ts⟩
        · rfl
      | _ =>
        unfold Lexer.step
        dsimp only
        split_ifs <;> rfl
    change read text (Lexer.step _ c)=_
    rw [hstep,ih]
    rfl

/-- A text that ends between words. -/
theorem read_fixed {text : Text} {us : List Token} (h : read text start=⟨.plain,none,us⟩) :
    read text ⟨.plain,none,ts⟩=⟨.plain,none,ts++us⟩ := by
  have hafter := read_after text start ts
  rw [h] at hafter
  simpa [start] using hafter

/-- A blank ends the word, and a text follows that ends between words. -/
theorem read_next {text : Text} {us : List Token} (h : read text start=⟨.plain,none,us⟩) (v : List Letter) :
    read (0x20::text) ⟨.plain,some v,ts⟩=⟨.plain,none,ts++.word v::us⟩ := by
  change read text ⟨.plain,none,ts++[.word v]⟩=_
  rw [read_fixed h]
  simp

end Quoting

theorem tokens_of_read {text : Text} {v : List Letter} {ts : List Token} (h : read text start=⟨.plain,some v,ts⟩) :
    tokens text=some (ts++[.word v]) := by
  unfold tokens
  rw [h]
  rfl

/-! ## The templates filled in -/

section Templates

/-- The parts of a template: texts with a marker after each, and what follows the last marker. -/
def marked (segs : List (Text×ℕ×Text)) (last : Text) : List Part :=
  segs.flatMap (fun s => s.1.map Part.unit++[.place s.2.1 s.2.2])++last.map Part.unit

/-- A template whose parts are known: each marker, after the text before it, is what stands at its rank. -/
theorem arg_segments {format last : Text} {segs : List (Text×ℕ×Text)} (h : parts format=marked segs last)
    (args : List Text) :
    arg format args=segs.flatMap (fun s => s.1++(args[((List.range s.2.1).filter
      fun m => (segs.map fun s => s.2.1).contains m).length]?).getD s.2.2)++last := by
  have hunits : ∀t : Text,places (t.map Part.unit)=[] := by
    intro t
    induction t with
    | nil => rfl
    | cons c t ih => exact ih
  have hplaces : places (parts format)=segs.map fun s => s.2.1 := by
    rw [h,marked]
    unfold places at hunits ⊢
    rw [List.filterMap_append,hunits,List.append_nil,List.filterMap_flatMap]
    simp only [List.filterMap_append,hunits,List.nil_append,List.filterMap_cons,List.filterMap_nil]
    exact List.flatMap_pure_eq_map _ segs
  have htexts : ∀(f : Part→Text),(∀c,f (.unit c)=[c])→∀t : Text,(t.map Part.unit).flatMap f=t := by
    intro f hf t
    induction t with
    | nil => rfl
    | cons c t ih => rw [List.map_cons,List.flatMap_cons,hf,ih]; rfl
  unfold arg rank
  rw [hplaces,h,marked,List.flatMap_append,htexts _ (fun _ => rfl),List.flatMap_assoc]
  congr 2
  funext s
  rw [List.flatMap_append,htexts _ (fun _ => rfl),List.flatMap_singleton]

variable (path : Text)

private theorem statCommand_eq : statCommand path=
    latin1 "stat -c '%s %Y' "++shellQuote path++0x20::latin1 "2>/dev/null || stat -f '%z %m' "++
    shellQuote path := by
  have hparts : parts (latin1 "stat -c '%s %Y' %1 2>/dev/null || stat -f '%z %m' %1")=
      marked [(latin1 "stat -c '%s %Y' ",1,[0x25,0x31]),(0x20::latin1 "2>/dev/null || stat -f '%z %m' ",1,
        [0x25,0x31])] [] := by
    repeat rw [latin1_ofList]
    rfl
  rw [statCommand,arg_segments hparts]
  simp [List.range_succ]

private theorem lsSizeCommand_eq : lsSizeCommand path=
    latin1 "LC_ALL=C BLOCK_SIZE=1 LS_BLOCK_SIZE=1 QUOTING_STYLE=literal ls -lnLd "++shellQuote path := by
  have hparts : parts (latin1 "LC_ALL=C BLOCK_SIZE=1 LS_BLOCK_SIZE=1 QUOTING_STYLE=literal ls -lnLd %1")=
      marked [(latin1 "LC_ALL=C BLOCK_SIZE=1 LS_BLOCK_SIZE=1 QUOTING_STYLE=literal ls -lnLd ",1,[0x25,0x31])]
        [] := by
    repeat rw [latin1_ofList]
    rfl
  rw [lsSizeCommand,arg_segments hparts]
  simp [List.range_succ]

private theorem wcSizeCommand_eq : wcSizeCommand path=latin1 "wc -c < "++shellQuote path := by
  have hparts : parts (latin1 "wc -c < %1")=marked [(latin1 "wc -c < ",1,[0x25,0x31])] [] := by
    repeat rw [latin1_ofList]
    rfl
  rw [wcSizeCommand,arg_segments hparts]
  simp [List.range_succ]

private theorem readCommand_eq (offset length : ℤ) : readCommand path offset length .raw=
    latin1 "tail -c +"++number (readFrom offset)++0x20::shellQuote path++0x20::latin1 "| head -c "++
      number (max 0 length).toNat := by
  have hparts : parts (latin1 "tail -c +%1 %2 | head -c %3")=
      marked [(latin1 "tail -c +",1,[0x25,0x31]),([0x20],2,[0x25,0x32]),
        (0x20::latin1 "| head -c ",3,[0x25,0x33])] [] := by
    repeat rw [latin1_ofList]
    rfl
  rw [readCommand,arg_segments hparts]
  simp [List.range_succ]

private theorem streamReadCommand_eq (offset : ℤ) : streamReadCommand path offset=
    latin1 "tail -c +"++number (readFrom offset)++0x20::shellQuote path := by
  have hparts : parts (latin1 "tail -c +%1 %2")=marked [(latin1 "tail -c +",1,[0x25,0x31]),
    ([0x20],2,[0x25,0x32])] [] := by
    repeat rw [latin1_ofList]
    rfl
  rw [streamReadCommand,arg_segments hparts]
  simp [List.range_succ]

private theorem configReadCommand_eq : configReadCommand path=latin1 "cat < "++shellQuote path := by
  have hparts : parts (latin1 "cat < %1")=marked [(latin1 "cat < ",1,[0x25,0x31])] [] := by
    repeat rw [latin1_ofList]
    rfl
  rw [configReadCommand,arg_segments hparts]
  simp [List.range_succ]

private theorem configWriteCommand_eq : configWriteCommand path=latin1 "cat > "++shellQuote path := by
  have hparts : parts (latin1 "cat > %1")=marked [(latin1 "cat > ",1,[0x25,0x31])] [] := by
    repeat rw [latin1_ofList]
    rfl
  rw [configWriteCommand,arg_segments hparts]
  simp [List.range_succ]

private theorem configExistsCommand_eq : configExistsCommand path=
    latin1 "if test -e "++shellQuote path++
    0x3B::latin1 " then echo loftail-cfg 1; else echo loftail-cfg 0; fi" := by
  have hparts : parts (latin1 "if test -e %1; then echo %2 1; else echo %2 0; fi")=
      marked [(latin1 "if test -e ",1,[0x25,0x31]),(0x3B::latin1 " then echo ",2,[0x25,0x32]),
        (latin1 " 1; else echo ",2,[0x25,0x32])] (latin1 " 0; fi") := by
    repeat rw [latin1_ofList]
    rfl
  have hjoin : latin1 " then echo "++(configMarker++(latin1 " 1; else echo "++(configMarker++latin1 " 0; fi")))=
      latin1 " then echo loftail-cfg 1; else echo loftail-cfg 0; fi" := by
    rw [configMarker]
    repeat rw [latin1_ofList]
    rfl
  rw [configExistsCommand,arg_segments hparts,← hjoin]
  simp [List.range_succ]

end Templates

/-! ## The words of each command -/

/-- The digits of a number are ordinary units. -/
theorem ordinary_number (n : ℕ) : ∀c∈number n,isOrdinary c=true := by
  intro c hc
  obtain ⟨d,hd,rfl⟩ := List.mem_map.mp hc
  have hdigit := Nat.isDigit_of_mem_toDigits (by decide) (by decide) hd
  obtain ⟨hlow,hhigh⟩ : 0x30≤d.toNat ∧ d.toNat≤0x39 := by
    simpa [Char.isDigit,UInt32.le_iff_toNat_le] using hdigit
  generalize d.toNat=m at hlow hhigh
  interval_cases m <;> decide

private theorem number_ne_nil (n : ℕ) : number n≠[] := by
  simp [number]

/-- A word that stands bare. -/
def bareWord (text : String) : Token := .word (bare (latin1 text))

/-- A word of a template that is quoted. -/
def quotedWord (text : String) : Token := .word (quoted (latin1 text))

def statWords (path : Text) : List Token :=
  [bareWord "stat",bareWord "-c",quotedWord "%s %Y",.word (quoted path),bareWord "2",.operator 0x3E,
    bareWord "/dev/null",
    .operator 0x7C,.operator 0x7C,bareWord "stat",bareWord "-f",quotedWord "%z %m",.word (quoted path)]

def lsWords (path : Text) : List Token :=
  [bareWord "LC_ALL=C",bareWord "BLOCK_SIZE=1",bareWord "LS_BLOCK_SIZE=1",
    bareWord "QUOTING_STYLE=literal",bareWord "ls",bareWord "-lnLd",.word (quoted path)]

def wcWords (path : Text) : List Token := [bareWord "wc",bareWord "-c",.operator 0x3C,.word (quoted path)]

/-- `tail` from a byte on. -/
def tailWords (path : Text) (offset : ℤ) : List Token :=
  [bareWord "tail",bareWord "-c",.word (bare (latin1 "+"++number (readFrom offset))),.word (quoted path)]

def readWords (path : Text) (offset length : ℤ) : Safety→List Token
  | .raw => tailWords path offset++[.operator 0x7C,bareWord "head",bareWord "-c",.word
    (bare (number (max 0 length).toNat))]
  | .base64 => tailWords path offset++[.operator 0x7C,bareWord "head",bareWord "-c",
      .word (bare (number (max 0 length).toNat)),.operator 0x7C,bareWord "base64"]

def configReadWords (path : Text) : List Token := [bareWord "cat",.operator 0x3C,.word (quoted path)]

def configWriteWords (path : Text) : List Token := [bareWord "cat",.operator 0x3E,.word (quoted path)]

def configExistsWords (path : Text) : List Token :=
  [bareWord "if",bareWord "test",bareWord "-e",.word (quoted path),.operator 0x3B,bareWord "then",bareWord "echo",
    bareWord "loftail-cfg",bareWord "1",.operator 0x3B,bareWord "else",bareWord "echo",
      bareWord "loftail-cfg",bareWord "0",
    .operator 0x3B,bareWord "fi"]

section Words
variable (path : Text)

/-- A command that is fixed words and then the path. -/
theorem tokens_then_quote {text : Text} (us : List Token) (h : read text start=⟨.plain,none,us⟩) :
    tokens (text++shellQuote path)=some (us++[.word (quoted path)]) := by
  apply tokens_of_read
  rw [read_append,h,read_quote]
  rfl

private theorem tokens_stat : tokens (statCommand path)=some (statWords path) := by
  rw [statCommand_eq]
  have hhead : read (latin1 "stat -c '%s %Y' ") start=⟨.plain,none,
    [bareWord "stat",bareWord "-c",quotedWord "%s %Y"]⟩ := by
    simp only [bareWord,quotedWord]
    repeat rw [latin1_ofList]
    decide
  have hrest : read (latin1 "2>/dev/null || stat -f '%z %m' ") start=⟨.plain,none,[bareWord "2",.operator 0x3E,
      bareWord "/dev/null",.operator 0x7C,.operator 0x7C,bareWord "stat",bareWord "-f",quotedWord "%z %m"]⟩ := by
    simp only [bareWord,quotedWord]
    repeat rw [latin1_ofList]
    decide
  have hread : read (latin1 "stat -c '%s %Y' "++shellQuote path++0x20::latin1 "2>/dev/null || stat -f '%z %m' "++
      shellQuote path) start=⟨.plain,some (quoted path),[bareWord "stat",bareWord "-c",quotedWord "%s %Y",
        .word (quoted path),bareWord "2",.operator 0x3E,bareWord "/dev/null",.operator 0x7C,.operator 0x7C,
          bareWord "stat",bareWord "-f",
        quotedWord "%z %m"]⟩ := by
    rw [read_append,read_append,read_append,hhead,read_quote,read_next hrest,read_quote]
    rfl
  exact tokens_of_read hread

private theorem tokens_ls : tokens (lsSizeCommand path)=some (lsWords path) := by
  rw [lsSizeCommand_eq]
  refine tokens_then_quote path [bareWord "LC_ALL=C",bareWord "BLOCK_SIZE=1",bareWord "LS_BLOCK_SIZE=1",
    bareWord "QUOTING_STYLE=literal",bareWord "ls",bareWord "-lnLd"] ?_
  simp only [bareWord]
  repeat rw [latin1_ofList]
  decide

private theorem tokens_wc : tokens (wcSizeCommand path)=some (wcWords path) := by
  rw [wcSizeCommand_eq]
  refine tokens_then_quote path [bareWord "wc",bareWord "-c",.operator 0x3C] ?_
  simp only [bareWord]
  repeat rw [latin1_ofList]
  decide

private theorem tokens_configRead : tokens (configReadCommand path)=some (configReadWords path) := by
  rw [configReadCommand_eq]
  refine tokens_then_quote path [bareWord "cat",.operator 0x3C] ?_
  simp only [bareWord]
  repeat rw [latin1_ofList]
  decide

private theorem tokens_configWrite : tokens (configWriteCommand path)=some (configWriteWords path) := by
  rw [configWriteCommand_eq]
  refine tokens_then_quote path [bareWord "cat",.operator 0x3E] ?_
  simp only [bareWord]
  repeat rw [latin1_ofList]
  decide

private theorem tokens_configExists : tokens (configExistsCommand path)=some (configExistsWords path) := by
  rw [configExistsCommand_eq]
  have hhead : read (latin1 "if test -e ") start=⟨.plain,none,[bareWord "if",bareWord "test",bareWord "-e"]⟩ := by
    simp only [bareWord]
    repeat rw [latin1_ofList]
    decide
  have hrest : read (latin1 " then echo loftail-cfg 1; else echo loftail-cfg 0; ") start=⟨.plain,none,
    [bareWord "then",
      bareWord "echo",bareWord "loftail-cfg",bareWord "1",.operator 0x3B,bareWord "else",bareWord "echo",
      bareWord "loftail-cfg",bareWord "0",.operator 0x3B]⟩ := by
    simp only [bareWord]
    repeat rw [latin1_ofList]
    decide
  have hcut : latin1 " then echo loftail-cfg 1; else echo loftail-cfg 0; fi"=
      latin1 " then echo loftail-cfg 1; else echo loftail-cfg 0; "++latin1 "fi" := by
    repeat rw [latin1_ofList]
    rfl
  have hend : ∀(v : List Letter) ts text,read (0x3B::text) ⟨.plain,some v,ts⟩=read text
    ⟨.plain,none,ts++[.word v]++[.operator 0x3B]⟩ :=
    fun _ _ _ => rfl
  rw [hcut]
  have hread : read (latin1 "if test -e "++shellQuote path++
      0x3B::(latin1 " then echo loftail-cfg 1; else echo loftail-cfg 0; "++latin1 "fi")) start=
      ⟨.plain,some (bare (latin1 "fi")),[bareWord "if",bareWord "test",bareWord "-e"]++[.word (quoted path)]++
        [.operator 0x3B]++
        [bareWord "then",bareWord "echo",bareWord "loftail-cfg",bareWord "1",.operator 0x3B,bareWord "else",
          bareWord "echo",bareWord "loftail-cfg",bareWord "0",.operator 0x3B]⟩ := by
    rw [read_append,read_append,hhead,read_quote,hend,read_append,read_fixed hrest,
      read_bare_word (List.all_eq_true.mp (by decide)) (by decide)]
    rfl
  exact tokens_of_read hread

/-- What `tail` is given, up to the path. -/
theorem read_tail (offset : ℤ) :
    read (latin1 "tail -c +"++number (readFrom offset)++0x20::shellQuote path) start=
      ⟨.plain,some (quoted path),[bareWord "tail",bareWord "-c",.word
        (bare (latin1 "+"++number (readFrom offset)))]⟩ := by
  have hhead : read (latin1 "tail -c +") start=⟨.plain,some (bare (latin1 "+")),
    [bareWord "tail",bareWord "-c"]⟩ := by
    simp only [bareWord]
    repeat rw [latin1_ofList]
    decide
  have hnext : ∀(v : List Letter) ts,read (0x20::shellQuote path) ⟨.plain,some v,ts⟩=
      read (shellQuote path) ⟨.plain,none,ts++[.word v]⟩ := fun _ _ => rfl
  rw [read_append,read_append,hhead,read_bare (ordinary_number _),hnext,read_quote]
  simp [bare]

private theorem tokens_streamRead (offset : ℤ) : tokens (streamReadCommand path offset)=some
    (tailWords path offset) := by
  rw [streamReadCommand_eq]
  exact tokens_of_read (read_tail path offset)

theorem read_readCommand (offset length : ℤ) : read (readCommand path offset length .raw) start=
    ⟨.plain,some (bare (number (max 0 length).toNat)),
      tailWords path offset++[.operator 0x7C,bareWord "head",bareWord "-c"]⟩ := by
  have hrest : read (latin1 "| head -c ") start=⟨.plain,none,[.operator 0x7C,bareWord "head",bareWord "-c"]⟩ := by
    simp only [bareWord]
    repeat rw [latin1_ofList]
    decide
  rw [readCommand_eq,read_append,read_append,read_tail,read_next hrest,
    read_bare_word (ordinary_number _) (number_ne_nil _)]
  rfl

private theorem tokens_read (offset length : ℤ) (safety : Safety) :
    tokens (readCommand path offset length safety)=some (readWords path offset length safety) := by
  cases safety with
  | raw =>
    rw [tokens_of_read (read_readCommand path offset length)]
    simp [readWords]
  | base64 =>
    have hcommand : readCommand path offset length .base64=readCommand path offset length .raw++
      0x20::latin1 "| base64" := rfl
    have hrest : read (latin1 "| ") start=⟨.plain,none,[.operator 0x7C]⟩ := by decide
    have hcut : 0x20::latin1 "| base64"=(0x20::latin1 "| ")++latin1 "base64" := rfl
    have hread : read (readCommand path offset length .base64) start=⟨.plain,some (bare (latin1 "base64")),
        tailWords path offset++[.operator 0x7C,bareWord "head",bareWord "-c",
          .word (bare (number (max 0 length).toNat)),.operator 0x7C]⟩ := by
      rw [hcommand,read_append,read_readCommand,hcut,read_append,read_next hrest,
        read_bare_word (List.all_eq_true.mp (by decide)) (by decide)]
      simp
    rw [tokens_of_read hread]
    simp [readWords,bareWord]

end Words

/-! ## A script and its variables -/

/-- The words of one variable's assignment and export. -/
def exportWords (v : Text×Text) : List Token :=
  [.word (bare v.1++bare [0x3D]++quoted v.2),.operator 0x0A,bareWord "export",.word (bare v.1),.operator 0x0A]

private theorem read_exported {v : Text×Text} (hname : ∀c∈v.1,isOrdinary c=true) (hne : v.1≠[]) (ts : List Token) :
    read (exported v) ⟨.plain,none,ts⟩=⟨.plain,none,ts++exportWords v⟩ := by
  have hequals : ∀(w : List Letter) ts text,read (0x3D::text) ⟨.plain,some w,ts⟩=read text
    ⟨.plain,some (w++bare [0x3D]),ts⟩ :=
    fun _ _ _ => rfl
  have hline : ∀(w : List Letter) ts text,read (0x0A::text) ⟨.plain,some w,ts⟩=
      read text ⟨.plain,none,ts++[.word w]++[.operator 0x0A]⟩ := fun _ _ _ => rfl
  have hexport : read (latin1 "export ") start=⟨.plain,none,[bareWord "export"]⟩ := by
    simp only [bareWord]
    repeat rw [latin1_ofList]
    decide
  have hshape : exported v=v.1++0x3D::(shellQuote v.2++0x0A::(latin1 "export "++(v.1++[0x0A]))) := by
    simp [exported]
  rw [hshape,read_append,read_bare_word hname hne,hequals,read_append,read_quote,hline,read_append,
    read_fixed hexport,read_append,read_bare_word hname hne,hline]
  simp [exportWords]

/-- The script is read as it would be alone, after the words of its variables. -/
theorem tokens_restart (script : Text) {vars : List (Text×Text)}
    (hvars : ∀v∈vars,v.1≠[] ∧ ∀c∈v.1,isOrdinary c=true) :
    tokens (restartScriptCommand script vars)=(tokens (scriptGroup script)).map (vars.flatMap exportWords++·) := by
  have hread : ∀ts,read (vars.flatMap exported) ⟨.plain,none,ts⟩=⟨.plain,none,ts++vars.flatMap exportWords⟩ := by
    induction vars with
    | nil => simp
    | cons v vars ih =>
      intro ts
      obtain ⟨hne,hname⟩ := hvars v List.mem_cons_self
      rw [List.flatMap_cons,read_append,read_exported hname hne,ih fun u hu => hvars u (List.mem_cons_of_mem _ hu)]
      simp
  have hgroup := read_after (scriptGroup script) start (vars.flatMap exportWords)
  unfold tokens restartScriptCommand
  rw [read_append,start,hread,List.nil_append]
  rw [start,List.append_nil] at hgroup
  rw [hgroup]
  generalize read (scriptGroup script) ⟨.plain,none,[]⟩=l
  obtain ⟨mode,_ | w,ts⟩ := l
  · cases mode <;> rfl
  · cases mode <;> simp [Lexer.flush]

private theorem restartVariables_names (path : Text) (archived : Bool) (member : Text) :
    ∀v∈restartVariables path archived member,v.1≠[] ∧ ∀c∈v.1,isOrdinary c=true := by
  have hlog : latin1 "LOGFILE"≠[] ∧ ∀c∈latin1 "LOGFILE",isOrdinary c=true :=
    ⟨by decide,List.all_eq_true.mp (by decide)⟩
  have harchive : latin1 "ARCHIVE"≠[] ∧ ∀c∈latin1 "ARCHIVE",isOrdinary c=true :=
    ⟨by decide,List.all_eq_true.mp (by decide)⟩
  have hmember : latin1 "MEMBER"≠[] ∧ ∀c∈latin1 "MEMBER",isOrdinary c=true :=
    ⟨by decide,List.all_eq_true.mp (by decide)⟩
  intro v hv
  have hcases : v.1=latin1 "LOGFILE" ∨ v.1=latin1 "ARCHIVE" ∨ v.1=latin1 "MEMBER" := by
    unfold restartVariables at hv
    split_ifs at hv <;> simp only [List.mem_cons,List.not_mem_nil,or_false] at hv <;> aesop
  obtain hv | hv | hv := hcases
  · exact hv ▸ hlog
  · exact hv ▸ harchive
  · exact hv ▸ hmember

/-- A path is one word of every command, taken as it is. -/
theorem path_is_one_word (path : Text) :
    tokens (shellQuote path)=some [.word (quoted path)] ∧ tokens (statCommand path)=some (statWords path) ∧
      tokens (lsSizeCommand path)=some (lsWords path) ∧ tokens (wcSizeCommand path)=some (wcWords path) ∧
      (∀offset length safety,tokens (readCommand path offset length safety)=some
        (readWords path offset length safety)) ∧
      (∀offset,tokens (streamReadCommand path offset)=some (tailWords path offset)) ∧
      tokens (configReadCommand path)=some (configReadWords path) ∧
      tokens (configExistsCommand path)=some (configExistsWords path) ∧
      tokens (configWriteCommand path)=some (configWriteWords path) ∧
      ∀script archived member,tokens (restartScriptCommand script (restartVariables path archived member))=
        (tokens (scriptGroup script)).map ((restartVariables path archived member).flatMap exportWords++·) := by
  refine ⟨?_,tokens_stat path,tokens_ls path,tokens_wc path,tokens_read path,tokens_streamRead path,
    tokens_configRead path,tokens_configExists path,tokens_configWrite path,?_⟩
  · have hstart : read [] start=⟨.plain,none,[]⟩ := rfl
    exact tokens_then_quote path [] hstart
  · intro script archived member
    exact tokens_restart script (restartVariables_names path archived member)

end Loftail.SshExec
