import Loftail.RenderedDates

/-! # A rendered line is a record

The compiled pieces are followed through the loop: what they match is the part of the line they stand
for, and the pending literal is the rest of it. -/
namespace Loftail
open RegularLanguage RegularLanguage.Re

/-- Whether an expression finds a match in a line; `$` also stands before a last newline. -/
def Expression.Accepts (p : Platform) (pair : UInt16→UInt16→Bool) (e : Expression) (line : Text) : Prop :=
  if e.closed then line∈Pattern.language p pair e.body.asRead ∨
    ∃u∈Pattern.language p pair e.body.asRead,line=u++[0x0A]
  else ∃u∈Pattern.language p pair e.body.asRead,∃v,line=u++v

/-- The engine finds what there is to find; it refuses a line with an unpaired surrogate. -/
def Platform.Runs (p : Platform) (pair : UInt16→UInt16→Bool) (e : Expression) : Prop :=
  ∀line,((p.compile e.text .sensitive).exec line).isSome=true ↔ Paired line ∧ e.Accepts p pair line

variable {p : Platform} {pair : UInt16→UInt16→Bool} {loc : Locale} {s s' : Compilation}
  {line text rest left run : Text}
  {ahead : List (Option UInt16)}
  {c : Conversion} {es : List Element} {base : Pattern} {role : FieldRole} {name : Text}
    {hasMinWidth : Bool} {i j : ℤ}

/-! ## Literals -/

theorem isSpace_of_isAsciiSpace {x : UInt16} (h : isAsciiSpace x=true) : isSpace x=true := by
  unfold isAsciiSpace at h
  unfold isSpace
  rw [h]
  rfl

theorem run_isSpace {run : Text} {x y : UInt16} (h : run∈text.splitBy fun a b => isSpace a==isSpace b)
    (hx : x∈run) (hy : y∈run) : isSpace x=isSpace y := by
  have hchain : List.IsChain (fun a b => isSpace a=isSpace b) run := by
    apply (List.isChain_of_mem_splitBy h).imp
    intro a b hab
    exact beq_iff_eq.mp hab
  have : IsTrans UInt16 fun a b => isSpace a=isSpace b := ⟨fun _ _ _ hab hbc => hab.trans hbc⟩
  have : Std.Symm fun a b => isSpace a=isSpace b := ⟨fun _ _ hab => hab.symm⟩
  exact List.Pairwise.forall_of_forall (R:=fun a b => isSpace a=isSpace b) (fun _ _ => rfl)
    (List.isChain_iff_pairwise.mp hchain) hx hy

/-- A literal whose white space is ASCII's is matched by what it is compiled to. -/
theorem compileLiteral_mem (h : ∀x∈text,isSpace x=true→isAsciiSpace x=true) :
    text∈Pattern.language p pair (compileLiteral text) := by
  have hruns : ∀runs : List Text,(∀run∈runs,run∈text.splitBy fun a b => isSpace a==isSpace b)→
      runs.flatten∈Pattern.language p pair (.all (runs.map fun run =>
        if run.any isSpace then .rep (.cls .space) .plus else .cls (.escaped run))) := by
    intro runs hruns
    induction runs with
    | nil => exact mem_empty.mpr rfl
    | cons run runs ih =>
      have hrun := hruns run (List.mem_cons_self ..)
      refine append_mem_seq ?_ (ih fun other hother => hruns other (List.mem_cons_of_mem _ hother))
      dsimp only
      split
      · rename_i hany
        obtain ⟨x,hx,hspace⟩ := List.any_eq_true.mp hany
        apply (mem_rep_units rfl).mpr
        constructor
        · exact List.length_pos_of_mem hx
        · intro y hy
          apply h y
          · have hmem : y∈(text.splitBy fun a b => isSpace a==isSpace b).flatten :=
              List.mem_flatten.mpr ⟨run,hrun,hy⟩
            rwa [List.flatten_splitBy] at hmem
          · rw [run_isSpace hrun hy hx,hspace]
      · exact Pattern.mem_escaped.mpr rfl
  have hall := hruns _ fun _ h => h
  rwa [List.flatten_splitBy] at hall

private theorem space_of_compileLiteral {t : Text} (h : t∈Pattern.language p pair (compileLiteral text)) :
    ∀x∈t,isSpace x=true→isAsciiSpace x=true := by
  have hruns : ∀runs : List Text,∀s,s∈Pattern.language p pair (.all (runs.map fun run =>
      if run.any isSpace then .rep (.cls .space) .plus else .cls (.escaped run)))→
        ∀x∈s,isSpace x=true→isAsciiSpace x=true := by
    intro runs
    induction runs with
    | nil =>
      intro s hs x hx
      rw [mem_empty.mp hs] at hx
      cases hx
    | cons run runs ih =>
      intro s hs x hx hspace
      obtain ⟨u,hu,v,hv,rfl⟩ := mem_all_cons.mp hs
      rcases List.mem_append.mp hx with hx | hx
      · dsimp only at hu
        split at hu
        · exact ((mem_rep_units rfl).mp hu).2 x hx
        · rename_i hany
          obtain rfl := Pattern.mem_escaped.mp hu
          exact absurd (List.any_eq_true.mpr ⟨x,hx,hspace⟩) hany
      · exact ih v hv x hx hspace
  exact hruns _ _ h

/-- One run of a literal, as `compileLiteral` compiles it. -/
def literalRun (run : Text) : Pattern := if run.any isSpace then .rep (.cls .space) .plus else .cls (.escaped run)

theorem literalRun_cases (hrun : ∀x∈run,∀y∈run,isSpace x=isSpace y) :
    (literalRun run=.rep (.cls .space) .plus ∧ run≠[] ∧ ∀x∈run,isSpace x=true) ∨
      (literalRun run=.cls (.escaped run) ∧ ∀x∈run,isSpace x=false) := by
  unfold literalRun
  split
  · rename_i hany
    obtain ⟨x,hx,hspace⟩ := List.any_eq_true.mp hany
    exact .inl ⟨rfl,List.ne_nil_of_mem hx,fun y hy => (hrun y hy x hx).trans hspace⟩
  · rename_i hany
    exact .inr ⟨rfl,fun x hx => Bool.eq_false_iff.mpr fun hspace => hany (List.any_eq_true.mpr ⟨x,hx,hspace⟩)⟩

private theorem still_of_isSpace {x : UInt16} (h : isSpace x=true) : Pattern.Still (some x) := by
  constructor
  · rintro ⟨⟩
    revert h
    decide
  · rw [Option.any_some,← Bool.not_eq_true]
    intro hoctal
    have hnone : ∀k<8,isSpace (0x30+k : ℕ).toUInt16=false := by decide
    simp only [isOctal,Bool.and_eq_true,decide_eq_true_eq,UInt16.le_iff_toNat_le,UInt16.reduceToNat] at hoctal
    have hx := hnone (x.toNat-0x30) (by omega)
    rw [Nat.add_sub_cancel' hoctal.1] at hx
    rw [show x.toNat.toUInt16=x from UInt16.toNat.inj (by simp)] at hx
    rw [hx] at h
    cases h

/-- What a literal writes escaped is its text, with a mark for each run of white space. -/
theorem clear_literal {a : List (Option UInt16)} :
    Pattern.Clear (a++Pattern.signs (compileLiteral text)++ahead) ↔ Pattern.Clear (a++text.map some++ahead) := by
  have hruns : ∀runs : List Text,(∀run∈runs,∀x∈run,∀y∈run,isSpace x=isSpace y)→∀a,
      (Pattern.Clear (a++Pattern.signs (.all (runs.map literalRun))++ahead) ↔
        Pattern.Clear (a++runs.flatten.map some++ahead)) := by
    intro runs hruns
    induction runs with
    | nil => exact fun _ => Iff.rfl
    | cons run runs ih =>
      intro a
      have hrest := ih fun other hother => hruns other (List.mem_cons_of_mem _ hother)
      have hsigns : a++Pattern.signs (.all ((run::runs).map literalRun))++ahead=
          a++Pattern.signs (literalRun run)++Pattern.signs (.all (runs.map literalRun))++ahead := by
        rw [List.map_cons,Pattern.signs_all,Pattern.signs_all,List.flatMap_cons,List.append_assoc a _
          (List.flatMap _ _)]
      rw [hsigns,hrest,List.flatten_cons,List.map_append,← List.append_assoc]
      rcases literalRun_cases (hruns run List.mem_cons_self) with ⟨hspace,hne,hall⟩ | ⟨hescaped,-⟩
      · rw [hspace]
        have hstill : ∀x∈run.map some,Pattern.Still x := by
          intro x hx
          obtain ⟨y,hy,rfl⟩ := List.mem_map.mp hx
          exact still_of_isSpace (hall y hy)
        constructor
        · intro h
          rw [List.append_assoc (a++_)] at h ⊢
          rw [List.append_assoc a] at h
          exact h.fill (by simpa using hne) hstill
        · intro h
          rw [List.append_assoc (a++_)] at h ⊢
          rw [List.append_assoc a]
          exact h.cut
      · rw [hescaped]
        rfl
  have hall := hruns (text.splitBy fun a b => isSpace a==isSpace b) (fun run hrun x hx y hy =>
    run_isSpace hrun hx hy) a
  rwa [List.flatten_splitBy] at hall

theorem legible_literal : Pattern.Legible (compileLiteral text) ↔ Apart text := by
  have hclear := @clear_literal text [] []
  rw [List.append_nil,List.append_nil,List.nil_append,List.nil_append] at hclear
  rw [Pattern.Legible,hclear,Pattern.Clear,List.isChain_map,Apart]
  simp only [Pattern.Takes,Option.some_inj,Option.any_some]

/-- A text that a literal's expression reads has as many characters of its own as the literal, or fewer where an
escape takes a digit. -/
theorem read_count {rs : List Pattern} (hrs : ∀r∈rs,r=.rep (.cls .space) .plus ∨ ∃s,r=.cls (.escaped s))
    (h : text∈Pattern.language p pair (.all (rs.map Pattern.resolved))) :
    text.countP (fun c => !isSpace c) ≤ (rs.flatMap Pattern.sign).countP Option.isSome ∧
      ((rs.flatMap Pattern.sign).countP Option.isSome ≤ text.countP (fun c => !isSpace c)→∀s,.cls
        (.escaped s)∈rs→Apart s) := by
  induction rs generalizing text with
  | nil =>
    rw [mem_empty.mp h]
    exact ⟨Nat.le_refl _,by simp⟩
  | cons r rs ih =>
    obtain ⟨u,hu,v,hv,rfl⟩ := mem_all_cons.mp h
    obtain ⟨hle,hapart⟩ := ih (fun r hr => hrs r (List.mem_cons_of_mem _ hr)) hv
    rw [List.countP_append,List.flatMap_cons,List.countP_append]
    rcases hrs r List.mem_cons_self with rfl | ⟨s,rfl⟩
    · have hspaces : u.countP (fun c => !isSpace c)=0 := by
        apply List.countP_eq_zero.mpr
        intro x hx
        rw [isSpace_of_isAsciiSpace (((mem_rep_units rfl).mp hu).2 x hx)]
        decide
      have hmark : (Pattern.sign (.rep (.cls .space) .plus)).countP Option.isSome=0 := rfl
      rw [hspaces,hmark,Nat.zero_add,Nat.zero_add]
      refine ⟨hle,fun h s hs => ?_⟩
      rcases List.mem_cons.mp hs with hs | hs
      · cases hs
      · exact hapart h s hs
    · obtain rfl := Pattern.mem_escaped.mp hu
      have hread := readEscaped_length s
      have hcount := List.countP_le_length (p:=fun c => !isSpace c) (l:=readEscaped s)
      have hsign : (Pattern.sign (.cls (.escaped s))).countP Option.isSome=s.length := by
        rw [Pattern.sign,List.countP_map]
        exact List.countP_eq_length.mpr fun _ _ => rfl
      rw [hsign]
      refine ⟨by omega,fun h t ht => ?_⟩
      rcases List.mem_cons.mp ht with ht | ht
      · cases ht
        exact apart_iff.mpr (by omega)
      · exact hapart (by omega) t ht

theorem literalRun_mark {x : UInt16} (hx : x∈run) (hspace : isSpace x=true) : Pattern.IsMark (literalRun run) := by
  rw [literalRun,if_pos (List.any_eq_true.mpr ⟨x,hx,hspace⟩)]
  exact nofun

/-- White space and escaped text stand by turns in a literal. -/
theorem literal_isolated : Pattern.Isolated ((text.splitBy fun a b => isSpace a==isSpace b).map literalRun) := by
  refine (List.isChain_map literalRun).mpr ((List.isChain_getLast_head_splitBy _ text).imp ?_)
  rintro a b ⟨ha,hb,hne⟩
  cases hlast : isSpace (a.getLast ha) with
  | true => exact .inl (literalRun_mark (List.getLast_mem ha) hlast)
  | false =>
    refine .inr (literalRun_mark (List.head_mem hb) ?_)
    rw [hlast] at hne
    simpa using hne

/-- The signs of a literal's runs count its characters that are no white space. -/
theorem literal_count {runs : List Text} (hruns : ∀run∈runs,∀x∈run,∀y∈run,isSpace x=isSpace y) :
    ((runs.map literalRun).flatMap Pattern.sign).countP Option.isSome=runs.flatten.countP fun c => !isSpace c := by
  induction runs with
  | nil => rfl
  | cons run runs ih =>
    rw [List.map_cons,List.flatMap_cons,List.countP_append,List.flatten_cons,List.countP_append,
      ih fun other hother => hruns other (List.mem_cons_of_mem _ hother)]
    congr 1
    rcases literalRun_cases (hruns run List.mem_cons_self) with ⟨hspace,-,hall⟩ | ⟨hescaped,hall⟩
    · have hnone : run.countP (fun c => !isSpace c)=0 := List.countP_eq_zero.mpr fun x hx =>
        by rw [hall x hx]; decide
      rw [hspace,hnone]
      rfl
    · have hevery : run.countP (fun c => !isSpace c)=run.length := List.countP_eq_length.mpr fun x hx =>
        by rw [hall x hx]; rfl
      rw [hescaped,hevery,Pattern.sign,List.countP_map]
      exact List.countP_eq_length.mpr fun _ _ => rfl

private theorem compileLiteral_exact : text∈Pattern.language p pair (compileLiteral text).asRead ↔
    (∀x∈text,isSpace x=true→isAsciiSpace x=true) ∧ Apart text := by
  refine ⟨fun h => ?_,fun h => ?_⟩
  · let runs := text.splitBy fun a b => isSpace a==isSpace b
    have hhomogeneous : ∀run∈runs,∀x∈run,∀y∈run,isSpace x=isSpace y := fun run hrun x hx y hy =>
      run_isSpace hrun hx hy
    have hcases : ∀r∈runs.map literalRun,r=.rep (.cls .space) .plus ∨ ∃s,r=.cls (.escaped s) := by
      intro r hr
      obtain ⟨run,hrun,rfl⟩ := List.mem_map.mp hr
      exact (literalRun_cases (hhomogeneous run hrun)).imp And.left fun hescaped => ⟨run,hescaped.1⟩
    have hrow : Pattern.row (compileLiteral text)=runs.map literalRun := by
      refine (Pattern.row_all (runs.map literalRun)).trans ?_
      rw [List.flatMap_congr (g:=fun r => [r]),List.flatMap_singleton']
      intro r hr
      rcases hcases r hr with rfl | ⟨s,rfl⟩ <;> rfl
    have hsigns : Pattern.signs (compileLiteral text)=(runs.map literalRun).flatMap Pattern.sign := by
      refine (Pattern.signs_all (runs.map literalRun)).trans (List.flatMap_congr fun r hr => ?_)
      rcases hcases r hr with rfl | ⟨s,rfl⟩ <;> rfl
    have hread : text∈Pattern.language p pair (.all ((runs.map literalRun).map Pattern.resolved)) := by
      rwa [Pattern.asRead,hrow,Pattern.readRow,Pattern.joined_of_isolated literal_isolated] at h
    have hcount := literal_count hhomogeneous
    rw [List.flatten_splitBy] at hcount
    have hlegible : Pattern.Legible (compileLiteral text) := by
      rw [Pattern.Legible,hsigns]
      exact Pattern.clear_of_isolated literal_isolated ((read_count hcases hread).2 hcount.le)
    rw [Pattern.language_asRead hlegible] at h
    exact ⟨space_of_compileLiteral h,legible_literal.mp hlegible⟩
  · rw [Pattern.language_asRead (legible_literal.mpr h.2)]
    exact compileLiteral_mem h.1

/-! ## The pieces so far -/

/-- The pieces match all of a line but its end, which is the pending literal; no NUL stands before an octal digit in
what they write, nor will with the signs `ahead`. -/
structure Compilation.Reads (p : Platform) (pair : UInt16→UInt16→Bool) (s : Compilation) (line : Text)
    (ahead : List (Option UInt16)) : Prop where
  split : ∃u∈Pattern.language p pair s.record.body,line=u++s.literalBuf
  space : ∀x∈s.literalBuf,isSpace x=true→isAsciiSpace x=true
  clear : Pattern.Clear (Pattern.signs s.record.body++s.literalBuf.map some++ahead)

theorem reads_start (h : Pattern.Clear ahead) : Compilation.start.Reads p pair [] ahead where
  split := ⟨[],mem_empty.mpr rfl,rfl⟩
  space := by
    intro x hx
    cases hx
  clear := h

theorem reads_literal {x : UInt16} (h : s.Reads p pair line (some x::ahead))
    (hx : isSpace x=true→isAsciiSpace x=true) :
    Compilation.Reads p pair {s with literalBuf := s.literalBuf++[x]} (line++[x]) ahead where
  split := by
    obtain ⟨u,hu,rfl⟩ := h.split
    exact ⟨u,hu,List.append_assoc ..⟩
  space := by
    intro y hy
    rcases List.mem_append.mp hy with hy | hy
    · exact h.space y hy
    · obtain rfl := List.mem_singleton.mp hy
      exact hx
  clear := by
    have hclear := h.clear
    rw [← List.singleton_append,← List.append_assoc,List.append_assoc (Pattern.signs _)] at hclear
    rw [List.map_append]
    exact hclear

theorem flushLiteral_literalBuf : s.flushLiteral.literalBuf=[] := by
  unfold Compilation.flushLiteral
  split
  · assumption
  · rfl

private theorem flushLiteral_signs : Pattern.signs s.flushLiteral.record.body=
    Pattern.signs s.record.body++Pattern.signs (compileLiteral s.literalBuf) := by
  unfold Compilation.flushLiteral
  split
  · rename_i hnil
    rw [hnil]
    exact (List.append_nil _).symm
  · show Pattern.signs (.all (List.map Piece.regex (s.pieces++[_])))=_
    rw [List.map_append,Pattern.signs_append]
    congr 1
    exact List.append_nil _

theorem reads_flush (h : s.Reads p pair line ahead) : s.flushLiteral.Reads p pair line ahead where
  split := by
    obtain ⟨u,hu,rfl⟩ := h.split
    unfold Compilation.flushLiteral
    split
    · exact ⟨u,hu,rfl⟩
    · refine ⟨u++s.literalBuf,?_,(List.append_nil _).symm⟩
      show _∈Pattern.language p pair (.all (List.map Piece.regex (s.pieces++[_])))
      rw [List.map_append]
      apply append_mem_all hu
      exact mem_all_singleton.mpr (compileLiteral_mem h.space)
  space := by
    intro x hx
    rw [flushLiteral_literalBuf] at hx
    cases hx
  clear := by
    rw [flushLiteral_signs,flushLiteral_literalBuf,List.map_nil,List.append_nil]
    exact clear_literal.mpr h.clear

theorem reads_append {piece : Piece} {v : Text} (h : s.Reads p pair line (none::ahead)) (hlit : s.literalBuf=[])
    (hv : v∈Pattern.language p pair piece.regex) (hsigns : ∃m,Pattern.signs piece.regex=none::m++[none] ∧
      Pattern.Clear m) :
    (s.append piece).Reads p pair (line++v) ahead where
  split := by
    obtain ⟨u,hu,rfl⟩ := h.split
    refine ⟨u++v,?_,?_⟩
    · show _∈Pattern.language p pair (.all (List.map Piece.regex (s.pieces++[_])))
      rw [List.map_append]
      apply append_mem_all hu
      exact mem_all_singleton.mpr hv
    · show u++s.literalBuf++v=u++v++s.literalBuf
      rw [hlit,List.append_nil,List.append_nil]
  space := h.space
  clear := by
    obtain ⟨m,hm,hmclear⟩ := hsigns
    have hclear := h.clear
    rw [hlit,List.map_nil,List.append_nil] at hclear
    show Pattern.Clear (Pattern.signs (.all (List.map Piece.regex (s.pieces++[piece])))++
      s.literalBuf.map some++ahead)
    rw [List.map_append,Pattern.signs_append,hlit,List.map_nil,List.append_nil,List.map_singleton]
    have hpiece : Pattern.signs (.all [piece.regex])=none::m++[none] := (List.append_nil _).trans hm
    rw [hpiece]
    exact hclear.insert hmclear

/-- A field is marked on both sides, padded or not. -/
theorem field_signs {isMessage : Bool} (h : Pattern.Legible base) :
    ∃m,Pattern.signs (makeFieldPiece base role hasMinWidth isMessage).regex=none::m++[none] ∧ Pattern.Clear m := by
  cases hasMinWidth with
  | false => exact ⟨Pattern.signs base,rfl,h⟩
  | true =>
    refine ⟨none::Pattern.signs base++[none],rfl,?_⟩
    have hinsert := Pattern.Clear.insert (a:=[]) (b:=[]) (.singleton none) h
    rwa [List.append_nil] at hinsert

/-- Padding is taken with the field it pads. -/
theorem rendered_mem {isMessage : Bool} (hv : c.value∈Pattern.language p pair base)
    (hpad : hasMinWidth=false→c.pad=0) :
    c.rendered∈Pattern.language p pair (makeFieldPiece base role hasMinWidth isMessage).regex := by
  have hspaces : ∀n,List.replicate n 0x20∈Pattern.language p pair (.rep (.cls .space) .star) := by
    intro n
    apply (mem_rep_units rfl).mpr
    refine ⟨trivial,?_⟩
    intro x hx
    obtain rfl := List.eq_of_mem_replicate hx
    rfl
  have hgroup : c.value∈Pattern.language p pair (.group base) := mem_group.mpr hv
  cases hasMinWidth with
  | false =>
    have hrendered : c.rendered=c.value := by
      unfold Conversion.rendered
      rw [hpad rfl]
      simp
    rw [hrendered]
    exact hgroup
  | true =>
    show c.rendered∈Pattern.language p pair (.seq _ (.seq (.group base) _))
    unfold Conversion.rendered
    split
    · have hafter := append_mem_seq (hspaces 0) (append_mem_seq hgroup (hspaces c.pad))
      rwa [List.replicate_zero,List.nil_append] at hafter
    · have hbefore := append_mem_seq (hspaces c.pad) (append_mem_seq hgroup (hspaces 0))
      rwa [List.replicate_zero,List.append_nil] at hbefore

private theorem reads_field (h : s.Reads p pair line (none::ahead)) (hv : c.value∈Pattern.language p pair base)
    (hbase : Pattern.Legible base) (hpad : hasMinWidth=false→c.pad=0) :
    (s.emitSimpleField base role hasMinWidth name).Reads p pair (line++c.rendered) ahead :=
  reads_append (reads_flush h) flushLiteral_literalBuf
    (@rendered_mem p pair c base role hasMinWidth (role=.message) hv hpad)
      (@field_signs base role hasMinWidth (role=.message) hbase)

/-! ## One conversion -/

theorem takeWhile_run {q : UInt16→Bool} (h : ∀x∈text,q x=true) (hrest : startsWith q rest=false) :
    (text++rest).takeWhile q=text ∧ (text++rest).dropWhile q=rest := by
  constructor
  · rw [List.takeWhile_append_of_pos h,takeWhile_eq_nil.mpr hrest,List.append_nil]
  · rw [List.dropWhile_append_of_pos h,dropWhile_eq_self.mpr hrest]

/-- What may follow a modifier: neither a sign, nor a dot, nor a digit. -/
def IsSpecifier (isDigit : UInt16→Bool) (spec : UInt16) : Prop := spec≠0x2D ∧ spec≠0x2E ∧ isDigit spec=false

theorem scanModifier_modifier {isDigit : UInt16→Bool} (hdash : isDigit 0x2D=false) (hdot : isDigit 0x2E=false)
    (hmin : ∀x∈c.minWidth,isDigit x=true) (hmax : ∀digits∈c.maxWidth,∀x∈digits,isDigit x=true)
    (hspec : IsSpecifier isDigit c.spec) :
    scanModifier isDigit (c.modifier++c.spec::rest)=(!c.minWidth.isEmpty,c.spec::rest) := by
  obtain ⟨hnodash,hnodot,hnodigit⟩ := hspec
  have hafter : ∀tail,startsWith isDigit tail=false→tail.head?≠some 0x2D→
      (∀text,text=(if c.leftAlign then [0x2D] else [])++c.minWidth++tail→
        (if text.head?=some 0x2D then text.tail else text)=c.minWidth++tail) := by
    rintro tail htail hhead text rfl
    cases c.leftAlign with
    | true => rfl
    | false =>
      show (if (c.minWidth++tail).head?=some 0x2D then _ else _)=_
      rw [if_neg]
      · rfl
      · intro h
        cases hwidth : c.minWidth with
        | nil =>
          rw [hwidth] at h
          exact hhead h
        | cons d digits =>
          rw [hwidth] at h
          have hd : d=0x2D := Option.some_inj.mp h
          have hdigit := hmin d (by rw [hwidth]; exact List.mem_cons_self ..)
          rw [hd,hdash] at hdigit
          cases hdigit
  unfold scanModifier Conversion.modifier
  cases hwidth : c.maxWidth with
  | none =>
    have hstart : startsWith isDigit (c.spec::rest)=false := hnodigit
    have hhead : (c.spec::rest).head?≠some 0x2D := by
      intro h
      exact hnodash (Option.some_inj.mp h)
    dsimp only
    rw [List.append_nil,hafter _ hstart hhead _ rfl,(takeWhile_run hmin hstart).1,
      (takeWhile_run hmin hstart).2,if_neg]
    intro h
    exact hnodot (Option.some_inj.mp h)
  | some digits =>
    have hdigits := hmax digits (by rw [hwidth]; rfl)
    have hstart : startsWith isDigit (0x2E::(digits++c.spec::rest))=false := hdot
    have hhead : (0x2E::(digits++c.spec::rest)).head?≠some 0x2D := by
      intro h
      cases Option.some_inj.mp h
    have htail : startsWith isDigit (c.spec::rest)=false := hnodigit
    dsimp only
    rw [List.append_assoc,List.cons_append,hafter _ hstart hhead _ rfl,(takeWhile_run hmin hstart).1,
      (takeWhile_run hmin hstart).2]
    rw [if_pos (by rfl),List.tail_cons,(takeWhile_run hdigits htail).2]

theorem scanBraceArg_argText (harg : ∀arg∈c.arg,∀x∈arg,x≠0x7D) (hnone : c.arg=none → rest.head?≠some 0x7B) :
    scanBraceArg (c.argText++rest)=some (c.arg,rest) := by
  unfold scanBraceArg Conversion.argText
  cases ha : c.arg with
  | none => exact if_neg (hnone ha)
  | some arg =>
    have hall : ∀x∈arg,decide (x≠0x7D)=true := fun x hx => decide_eq_true (harg arg ha x hx)
    have hbrace : startsWith (fun x => decide (x≠0x7D)) (0x7D::rest)=false := rfl
    dsimp only
    rw [if_pos (by rfl),List.cons_append,List.cons_append,List.tail_cons,List.append_assoc,List.singleton_append,
      (takeWhile_run hall hbrace).1,(takeWhile_run hall hbrace).2,if_neg (List.cons_ne_nil _ _),List.tail_cons]

/-- The specifiers that take an argument are those the pattern may give one. -/
theorem fieldOf_takes {spec : UInt16} {takes : Bool} (h : fieldOf spec=some (base,role,takes)) :
    (takes=true ↔ spec∈argumentSpecs) := by
  have htable : ∀x∈fieldTable,(x.2.2.2=true ↔ x.1∈argumentSpecs) := by
    simp only [fieldTable,List.forall_mem_cons]
    refine ⟨?_,?_,?_,?_,?_,?_,?_,?_,?_,?_,?_,?_,?_,?_,?_,?_,?_,by simp⟩ <;> decide
  exact htable _ (fieldOf_mem h)

theorem fieldOf_name {spec : UInt16}
    (h : spec∈[unit 'p',unit 'c',unit 't',unit 'T',unit 'F',unit 'b',unit 'l',unit 'M',unit 'h',unit 'H']) :
    ∃role takes,fieldOf spec=some (.rep (.cls .notSpace) .plus,role,takes) := by
  revert spec
  simp only [List.forall_mem_cons]
  refine ⟨⟨_,_,rfl⟩,⟨_,_,rfl⟩,⟨_,_,rfl⟩,⟨_,_,rfl⟩,⟨_,_,rfl⟩,⟨_,_,rfl⟩,⟨_,_,rfl⟩,⟨_,_,rfl⟩,⟨_,_,rfl⟩,⟨_,_,rfl⟩,?_⟩
  simp

private theorem fieldOf_number {spec : UInt16} (h : spec∈[unit 'L',unit 'i',unit 'r']) :
    ∃role takes,fieldOf spec=some (.rep (.cls .digit) .plus,role,takes) := by
  revert spec
  simp only [List.forall_mem_cons]
  refine ⟨⟨_,_,rfl⟩,⟨_,_,rfl⟩,⟨_,_,rfl⟩,?_⟩
  simp

private theorem fieldOf_context {spec : UInt16} (h : spec∈[unit 'x',unit 'X',unit 'E']) :
    ∃role takes,fieldOf spec=some (kFreeText,role,takes) := by
  revert spec
  simp only [List.forall_mem_cons]
  refine ⟨⟨_,_,rfl⟩,⟨_,_,rfl⟩,⟨_,_,rfl⟩,?_⟩
  simp

private theorem fieldOf_legible {spec : UInt16} {takes : Bool} (h : fieldOf spec=some (base,role,takes)) :
    Pattern.Legible base := by
  have htable : ∀x∈fieldTable,Pattern.signs x.2.1=[none] := by
    simp only [fieldTable,List.forall_mem_cons]
    exact ⟨rfl,rfl,rfl,rfl,rfl,rfl,rfl,rfl,rfl,rfl,rfl,rfl,rfl,rfl,rfl,rfl,rfl,by simp⟩
  rw [Pattern.Legible,htable _ (fieldOf_mem h)]
  exact .singleton none

theorem arg_none (hs : c.Spelled p) (h : ¬c.TakesArgument) : c.arg=none := by
  cases harg : c.arg with
  | none => rfl
  | some arg => exact absurd (hs.arg arg harg).1 h

theorem argText_none (h : c.arg=none) : c.argText=[] := by
  rw [Conversion.argText,h]

theorem convert_field {takes : Bool} (hs : c.Spelled p) (hfield : fieldOf c.spec=some (base,role,takes))
    (hbrace : c.TakesArgument→c.arg=none → rest.head?≠some 0x7B) :
    ∃name,convert p s hasMinWidth c.spec (c.argText++rest) j=.ok
    (s.emitSimpleField base role hasMinWidth name,rest) := by
  have hne : ∀spec,fieldOf spec=none→c.spec≠spec := by
    rintro spec hnone rfl
    rw [hnone] at hfield
    cases hfield
  have htakes : takes=true ↔ c.TakesArgument := fieldOf_takes hfield
  unfold convert
  rw [if_neg (hne _ rfl),if_neg (not_or.mpr ⟨hne _ rfl,hne _ rfl⟩),if_neg (hne _ rfl),hfield]
  cases takes with
  | false =>
    have hnone := arg_none hs (by rw [← htakes]; decide)
    refine ⟨[],?_⟩
    rw [argText_none hnone]
    rfl
  | true =>
    have hscan := scanBraceArg_argText (fun arg harg => (hs.arg arg harg).2) (hbrace (htakes.mp rfl))
    refine ⟨entryName role (c.arg.getD []),?_⟩
    dsimp only
    rw [hscan]

theorem convert_field_reads {takes : Bool} (hs : c.Spelled p) (hfield : fieldOf c.spec=some (base,role,takes))
    (hbrace : c.TakesArgument→c.arg=none → rest.head?≠some 0x7B) (hread : s.Reads p pair line (none::ahead))
    (hv : c.value∈Pattern.language p pair base)
    (h : convert p s (!c.minWidth.isEmpty) c.spec (c.argText++rest) j=.ok (s',left)) :
    left=rest ∧ s'.Reads p pair (line++c.rendered) ahead := by
  obtain ⟨name,hconvert⟩ := convert_field (s:=s) (j:=j) hs hfield hbrace
  rw [hconvert] at h
  cases h
  refine ⟨rfl,reads_field hread hv (fieldOf_legible hfield) ?_⟩
  intro hwidth
  apply hs.pad
  simpa using hwidth

theorem convert_date (hs : c.Spelled p) (hdate : c.IsDate)
    (hbrace : c.TakesArgument→c.arg=none → rest.head?≠some 0x7B)
    (h : convert p s hasMinWidth c.spec (c.argText++rest) j=.ok (s',left)) :
    left=rest ∧ ∃t offset,translateDateFormat p.isLetter (c.arg.getD kDefaultDateFormat) offset=.ok t ∧
      s'.pieces=(s.flushLiteral.append (makeFieldPiece t.regex .date hasMinWidth false)).pieces ∧
      s'.literalBuf=[] := by
  have htakes : c.TakesArgument := by
    rcases hdate with h | h <;> rw [Conversion.TakesArgument,h] <;> decide
  have hscan := scanBraceArg_argText (fun arg harg => (hs.arg arg harg).2) (hbrace htakes)
  have hpercent : c.spec≠unit '%' := by
    rcases hdate with h | h <;> rw [h] <;> decide
  unfold convert at h
  rw [if_neg hpercent,if_pos (show c.spec=unit 'd' ∨ c.spec=unit 'D' from hdate),hscan] at h
  dsimp only at h
  obtain ⟨t,ht,h⟩ := bind_ok h
  cases h
  refine ⟨rfl,t,?_⟩
  cases harg : c.arg with
  | none =>
    rw [harg] at ht
    exact ⟨j,ht,rfl,flushLiteral_literalBuf⟩
  | some arg =>
    rw [harg] at ht
    exact ⟨j+2,ht,rfl,flushLiteral_literalBuf⟩

/-- A conversion takes its own text and adds what matches the value it prints. -/
theorem convert_reads (hs : c.Spelled p) (hprints : c.Prints loc) (hfits : (Element.conversion c).Fits p pair loc)
    (hbrace : c.TakesArgument→c.arg=none → rest.head?≠some 0x7B)
    (hread : s.Reads p pair line ((Element.conversion c).signs++ahead))
    (h : convert p s (!c.minWidth.isEmpty) c.spec (c.argText++rest) j=.ok (s',left)) :
    left=rest ∧ s'.Reads p pair (line++c.rendered) ahead := by
  have hmark : c.spec≠0x25→c.spec≠unit 'n'→s.Reads p pair line (none::ahead) := by
    intro hpercent hnewline
    rwa [Element.signs,if_neg hpercent,if_neg hnewline] at hread
  have hother : ∀{specs : List UInt16} {x : UInt16},c.spec∈specs→x∉specs→c.spec≠x := by
    rintro specs x hmem hx rfl
    exact hx hmem
  rcases hprints with ⟨hspec,hvalue,hpad⟩ | ⟨hdate,-⟩ | ⟨hname,hne,hword⟩ | ⟨hnumber,hne,hdigits⟩ | hcontext |
    ⟨hmessage,hline⟩
  · have hnone := arg_none hs (by rw [Conversion.TakesArgument,hspec]; decide)
    have hrendered : c.rendered=[0x25] := by
      unfold Conversion.rendered
      rw [hvalue,hpad]
      simp
    rw [argText_none hnone,List.nil_append,hspec,convert,if_pos (by rfl)] at h
    cases h
    rw [hrendered]
    rw [Element.signs,if_pos hspec] at hread
    exact ⟨rfl,reads_literal hread (by decide)⟩
  · obtain ⟨hapart,m,hvalue,hm⟩ := hfits.2.2 hdate
    obtain ⟨hleft,t,offset,ht,hpieces,hlit⟩ := convert_date hs hdate hbrace h
    have hmem := translateDateFormat_mem ht hm
    rw [← hvalue] at hmem
    have hread' := hmark (by rcases hdate with h | h <;> rw [h] <;> decide)
      (by rcases hdate with h | h <;> rw [h] <;> decide)
    have happend := reads_append (reads_flush hread') flushLiteral_literalBuf
      (@rendered_mem p pair c t.regex .date (!c.minWidth.isEmpty) false hmem fun hwidth =>
        hs.pad (by simpa using hwidth))
      (field_signs (translateDateFormat_legible ht hapart))
    refine ⟨hleft,?_,?_,?_⟩
    · obtain ⟨u,hu,hsplit⟩ := happend.split
      refine ⟨u,?_,?_⟩
      · rw [Compilation.record,hpieces]
        exact hu
      · rw [hsplit,hlit]
        exact congrArg _ flushLiteral_literalBuf
    · intro x hx
      rw [hlit] at hx
      cases hx
    · have hclear := happend.clear
      rw [show (s.flushLiteral.append _).literalBuf=[] from flushLiteral_literalBuf] at hclear
      rw [hlit,Compilation.record,hpieces]
      exact hclear
  · obtain ⟨role,takes,hfield⟩ := fieldOf_name hname
    refine convert_field_reads hs hfield hbrace (hmark (hother hname (by decide)) (hother hname (by decide))) ?_ h
    refine (mem_plus_characters rfl fun _ => surrogate_notSpace).mpr ⟨hne,hfits.1,fun x hx => ?_⟩
    rw [hword x hx]
    rfl
  · obtain ⟨role,takes,hfield⟩ := fieldOf_number hnumber
    refine convert_field_reads hs hfield hbrace
      (hmark (hother hnumber (by decide)) (hother hnumber (by decide))) ?_ h
    exact (mem_rep_units rfl).mpr ⟨List.length_pos_iff.mpr hne,hdigits⟩
  · obtain ⟨role,takes,hfield⟩ := fieldOf_context hcontext
    refine convert_field_reads hs hfield hbrace
      (hmark (hother hcontext (by decide)) (hother hcontext (by decide))) ?_ h
    exact (mem_star_characters (q:=.lazyStar) rfl (fun _ => surrogate_any) fun _ => trivial).mpr
      ⟨hfits.1,fun x hx => decide_eq_true (hfits.2.1 hcontext x hx)⟩
  · have hfield : fieldOf c.spec=some (.rep (.cls .any) .star,.message,false) := by
      rw [hmessage]
      rfl
    refine convert_field_reads hs hfield hbrace (hmark (by rw [hmessage]; decide) (by rw [hmessage]; decide)) ?_ h
    exact (mem_star_characters (q:=.star) rfl (fun _ => surrogate_any) fun _ => trivial).mpr
      ⟨hfits.1,fun x hx => decide_eq_true (hline x hx)⟩

/-! ## The loop -/

/-- The characters a conversion has taken are passed over. -/
theorem compileLoop_skip (taken : Text) : compileLoop p (taken++rest) taken.length i s=
    compileLoop p rest 0 (i+taken.length) s := by
  induction taken generalizing i with
  | nil =>
    rw [List.nil_append,List.length_nil]
    congr 1
    omega
  | cons x taken ih =>
    rw [List.cons_append,List.length_cons,compileLoop,ih]
    congr 1
    omega

theorem isSpecifier_of_mem (hp : p.Ascii) {spec : UInt16} (h : spec∈latin1 "%dDpctTFblMhHLirxXEmn") :
    IsSpecifier p.isDigit spec := by
  have hall : ∀spec∈latin1 "%dDpctTFblMhHLirxXEmn",spec≠0x2D ∧ spec≠0x2E ∧ spec<0x80 ∧ isAsciiDigit spec=false :=
    forall_mem_of_all (by decide)
  obtain ⟨hdash,hdot,hlt,hdigit⟩ := hall spec h
  exact ⟨hdash,hdot,by rw [hp.digit _ hlt,hdigit]⟩

private theorem spec_of_prints (h : c.Prints loc) : c.spec∈latin1 "%dDpctTFblMhHLirxXEmn" := by
  have hsub : ∀l : List UInt16,(∀x∈l,x∈latin1 "%dDpctTFblMhHLirxXEmn")→c.spec∈l→
    c.spec∈latin1 "%dDpctTFblMhHLirxXEmn" :=
    fun _ hl hc => hl _ hc
  rcases h with ⟨hspec,-⟩ | ⟨hspec,-⟩ | ⟨hspec,-⟩ | ⟨hspec,-⟩ | hspec | ⟨hspec,-⟩
  · rw [hspec]
    decide
  · rcases hspec with hspec | hspec <;> rw [hspec] <;> decide
  · exact hsub _ (forall_mem_of_all (by decide)) hspec
  · exact hsub _ (forall_mem_of_all (by decide)) hspec
  · exact hsub _ (forall_mem_of_all (by decide)) hspec
  · rw [hspec]
    decide

/-- The loop over a conversion's text is the conversion, and then the loop over the rest. -/
theorem compileLoop_conversion (hp : p.Ascii) (hs : c.Spelled p) (hspec : c.spec∈latin1 "%dDpctTFblMhHLirxXEmn")
    (h : compileLoop p (c.text++rest) 0 i s=.ok s') :
    ∃s₁ left j,convert p s (!c.minWidth.isEmpty) c.spec (c.argText++rest) j=.ok (s₁,left) ∧
      (left=rest→∃k,compileLoop p rest 0 k s₁=.ok s') := by
  have htext : c.text++rest=0x25::(c.modifier++c.spec::(c.argText++rest)) := by
    simp [Conversion.text]
  have hdash : p.isDigit 0x2D=false := hp.digit _ (by decide)
  have hdot : p.isDigit 0x2E=false := hp.digit _ (by decide)
  have hscan := @scanModifier_modifier (c.argText++rest) c _ hdash hdot hs.minWidth hs.maxWidth
    (isSpecifier_of_mem hp hspec)
  rw [htext,compileLoop,if_neg (by decide)] at h
  obtain ⟨⟨s₁,left⟩,hconv,hloop⟩ := bind_ok h
  rw [conversion,if_neg (by simp),hscan] at hconv
  refine ⟨s₁,left,_,hconv,?_⟩
  rintro rfl
  have hlen : (c.modifier++c.spec::(c.argText++left)).length-left.length=
    (c.modifier++c.spec::c.argText).length := by
    simp only [List.length_append,List.length_cons]
    omega
  have hsplit : c.modifier++c.spec::(c.argText++left)=c.modifier++c.spec::c.argText++left := by simp
  dsimp only at hloop
  rw [hlen,hsplit,compileLoop_skip] at hloop
  exact ⟨_,hloop⟩

/-- The loop follows a rendering to its end. -/
theorem compileLoop_reads (hp : p.Ascii) (hr : Rendering p loc es) (hfits : ∀e∈es,e.Fits p pair loc)
    (hread : s.Reads p pair line (es.flatMap Element.signs)) (h : compileLoop p (patternOf es) 0 i s=.ok s') :
    s'.Reads p pair (line++lineOf es) [] := by
  induction hr generalizing s line i with
  | @newlines cs hcs =>
    induction cs generalizing s i with
    | nil =>
      cases h
      rwa [show lineOf _=[] from rfl,List.append_nil]
    | cons c cs ih =>
      obtain ⟨hspell,hspec,hvalue,hpad⟩ := hcs c (List.mem_cons_self ..)
      obtain ⟨s₁,left,j,hconv,hrest⟩ := compileLoop_conversion hp hspell (by rw [hspec]; decide) h
      have hnone := arg_none hspell (by rw [Conversion.TakesArgument,hspec]; decide)
      have hrendered : c.rendered=[] := by
        unfold Conversion.rendered
        rw [hvalue,hpad]
        simp
      rw [argText_none hnone,List.nil_append,hspec,convert,if_neg (by decide),if_neg (by decide),
        if_pos rfl] at hconv
      cases hconv
      obtain ⟨k,hloop⟩ := hrest rfl
      rw [List.map_cons,List.flatMap_cons,Element.signs,if_neg (by rw [hspec]; decide),if_pos hspec] at hread
      have hread' := ih (fun c hc => hcs c (List.mem_cons_of_mem _ hc))
        (fun e he => hfits e (List.mem_cons_of_mem _ he)) (reads_flush hread) hloop
      have hline : lineOf ((c::cs).map Element.conversion)=lineOf (cs.map Element.conversion) := by
        show c.rendered++_=_
        rw [hrendered]
        rfl
      rwa [hline]
  | @literal x es hx _ ih =>
    change compileLoop p (x::patternOf es) 0 i s=.ok s' at h
    rw [compileLoop,if_pos hx] at h
    have hread' := ih (fun e he => hfits e (List.mem_cons_of_mem _ he))
      (reads_literal hread (hfits _ (List.mem_cons_self ..))) h
    rwa [List.append_assoc] at hread'
  | @conversion c es hspell hprints hbrace _ ih =>
    obtain ⟨s₁,left,j,hconv,hrest⟩ := compileLoop_conversion hp hspell (spec_of_prints hprints) h
    obtain ⟨hleft,hread'⟩ := convert_reads hspell hprints (hfits _ (List.mem_cons_self ..)) hbrace hread hconv
    obtain ⟨k,hloop⟩ := hrest hleft
    have hlast := ih (fun e he => hfits e (List.mem_cons_of_mem _ he)) hread' hloop
    rwa [List.append_assoc] at hlast

/-- The engine reads what precedes the first message and what comes with it apart. -/
theorem record_asRead {pattern : Text} (hs : compilePieces p pattern=.ok s) : s.record.body.asRead=
    .all (Pattern.readRow (Pattern.row s.recordStart.body)++
      Pattern.readRow (((s.pieces.dropWhile fun piece => !piece.isMessage).map Piece.regex).flatMap
        Pattern.row)) := by
  have hpieces : s.pieces.map Piece.regex=(s.pieces.takeWhile fun piece => !piece.isMessage).map Piece.regex++
      (s.pieces.dropWhile fun piece => !piece.isMessage).map Piece.regex := by
    rw [← List.map_append,List.takeWhile_append_dropWhile]
  show Re.all (Pattern.readRow (Pattern.row (.all (s.pieces.map Piece.regex))))=_
  rw [hpieces,Pattern.row_all,List.flatMap_append,Pattern.readRow_append,← Pattern.row_all]
  · rfl
  · intro r hr
    rcases pieces_from_message s with hdrop | ⟨message,after,hdrop,hmem,hmessage⟩
    · rw [hdrop] at hr
      cases hr
    · obtain ⟨-,-,padded,hregex⟩ := message_pieces hs hmem hmessage
      rw [hdrop,List.map_cons,List.flatMap_cons,hregex] at hr
      cases padded <;>
      · cases hr
        exact nofun

/-- A whole record begins as a record does. -/
theorem recordStart_accepts {pattern : Text} (hs : compilePieces p pattern=.ok s)
    (h : s.record.Accepts p pair line) :
    s.recordStart.Accepts p pair line := by
  have hprefix : ∀u∈Pattern.language p pair s.record.body.asRead,
    ∃a∈Pattern.language p pair s.recordStart.body.asRead,∃b,u=a++b := by
    intro u hu
    rw [record_asRead hs,Pattern.language,language_all_append] at hu
    obtain ⟨a,ha,b,-,rfl⟩ := Language.mem_mul.mp hu
    exact ⟨a,ha,b,rfl⟩
  rcases h with h | ⟨u,hu,rfl⟩
  · exact hprefix line h
  · obtain ⟨a,ha,b,rfl⟩ := hprefix u hu
    exact ⟨a,ha,b++[0x0A],List.append_assoc ..⟩

private theorem record_accepts (hp : p.Ascii) (hr : Rendering p loc es) (hfits : Fitting p pair loc es)
    (h : compilePieces p (patternOf es)=.ok s) : s.record.Accepts p pair (lineOf es) := by
  unfold compilePieces at h
  split at h
  · cases h
  · cases hloop : compileLoop p (patternOf es) 0 0 .start with
    | error e =>
      rw [hloop] at h
      cases h
    | ok s₀ =>
      rw [hloop] at h
      cases h
      have hread := reads_flush (compileLoop_reads hp hr hfits.each (reads_start hfits.clear) hloop)
      have hclear := hread.clear
      rw [flushLiteral_literalBuf,List.map_nil,List.append_nil,List.append_nil] at hclear
      obtain ⟨u,hu,hline⟩ := hread.split
      rw [flushLiteral_literalBuf,List.append_nil,List.nil_append] at hline
      left
      rw [hline,Pattern.language_asRead hclear]
      exact hu

theorem compile_ok {pattern : Text} {f : CompiledFormat} (h : PatternCompiler.compile p pattern=.ok f) :
    ∃s,compilePieces p pattern=.ok s ∧ f.recordRe=p.compile s.record.text .sensitive ∧
      f.recordStartRe=p.compile s.recordStart.text .sensitive := by
  unfold PatternCompiler.compile at h
  obtain ⟨s,hs,h⟩ := bind_ok h
  dsimp only at h
  split at h
  · cases h
  · cases h
    exact ⟨s,hs,rfl,rfl⟩

/-- A rendered line is accepted where the pattern and its values fit. A literal is matched by its own expression
exactly where its white space is ASCII's and none of its NULs stands before an octal digit, and what is accepted
as a record is accepted as its start. -/
theorem rendered_accepted (hp : p.Ascii) {f : CompiledFormat} (hr : Rendering p loc es)
    (hc : PatternCompiler.compile p (patternOf es)=.ok f)
    (hruns : ∀s,compilePieces p (patternOf es)=.ok s→p.Runs pair s.record ∧ p.Runs pair s.recordStart) :
    (Fitting p pair loc es→(f.recordStartRe.exec (lineOf es)).isSome=true ∧
      (f.recordRe.exec (lineOf es)).isSome=true) ∧
    (∀text,text∈Pattern.language p pair (compileLiteral text).asRead ↔
      (∀x∈text,isSpace x=true→isAsciiSpace x=true) ∧ Apart text) ∧
    (∀line,(f.recordRe.exec line).isSome=true→(f.recordStartRe.exec line).isSome=true) := by
  obtain ⟨s,hs,hrecord,hstart⟩ := compile_ok hc
  obtain ⟨hrunsRecord,hrunsStart⟩ := hruns s hs
  have hboth : ∀line,Paired line→s.record.Accepts p pair line→(f.recordStartRe.exec line).isSome=true := by
    intro line hpaired hline
    rw [hstart]
    exact (hrunsStart line).mpr ⟨hpaired,recordStart_accepts hs hline⟩
  refine ⟨?_,fun _ => compileLiteral_exact,?_⟩
  · intro hfits
    have haccepts := record_accepts hp hr hfits hs
    refine ⟨hboth _ hfits.paired haccepts,?_⟩
    rw [hrecord]
    exact (hrunsRecord _).mpr ⟨hfits.paired,haccepts⟩
  · intro line hline
    rw [hrecord] at hline
    obtain ⟨hpaired,haccepts⟩ := (hrunsRecord line).mp hline
    exact hboth line hpaired haccepts

open Classical in
/-- A platform whose engine knows some expressions. -/
noncomputable def Platform.running (p : Platform) (pair : UInt16→UInt16→Bool)
    (known : List Expression) : Platform :=
  {p with compile := fun text _ => ⟨text,true,0,fun line =>
    if ∃e∈known,e.text=text ∧ Paired line ∧ e.Accepts p pair line then some ⟨fun _ => [],0⟩ else none⟩}

open Classical in
theorem running_runs {known : List Expression} {e : Expression} (he : e∈known)
    (hinj : ∀e'∈known,e'.text=e.text→e'=e) : (p.running pair known).Runs pair e := by
  intro line
  show (if _ then _ else none).isSome=true ↔ Paired line ∧ e.Accepts p pair line
  constructor
  · intro h
    split at h
    · rename_i hknown
      obtain ⟨e',he',htext,hpaired,haccepts⟩ := hknown
      obtain rfl := hinj e' he' htext
      exact ⟨hpaired,haccepts⟩
    · cases h
  · intro h
    rw [if_pos ⟨e,he,rfl,h⟩]
    rfl

def Locale.posix : Locale :=
  let months := [latin1 "January",latin1 "February",latin1 "March",latin1 "April",latin1 "May",latin1 "June",
    latin1 "July",latin1 "August",latin1 "September",latin1 "October",latin1 "November",latin1 "December"]
  let days := [latin1 "Sunday",latin1 "Monday",latin1 "Tuesday",latin1 "Wednesday",latin1 "Thursday",
    latin1 "Friday",latin1 "Saturday"]
  {month := fun n => months.getD n []
   shortMonth := fun n => (months.getD n []).take 3
   weekday := fun n => days.getD n []
   shortWeekday := fun n => (days.getD n []).take 3
   meridiem := fun afternoon => if afternoon then latin1 "PM" else latin1 "AM"
   smallMeridiem := fun afternoon => if afternoon then latin1 "pm" else latin1 "am"}

/-- A conversion without a modifier or an argument. -/
def Conversion.simple (spec : UInt16) (value : Text) : Conversion := ⟨false,[],none,spec,none,value,0⟩

theorem simple_spelled {spec : UInt16} {value : Text} : (Conversion.simple spec value).Spelled p where
  minWidth := by
    intro x hx
    cases hx
  maxWidth := by
    intro digits hdigits
    cases hdigits
  pad := fun _ => rfl
  arg := by
    intro arg harg
    cases harg

/-- `%c`, a separator and `%m`. -/
def separated (separator : UInt16) (logger message : Text) : List Element :=
  [.conversion (.simple (unit 'c') logger),.literal separator,.conversion (.simple (unit 'm') message)]

theorem separated_rendering {separator : UInt16} (h : separator≠0x25 ∧ separator≠0x7B) :
    Rendering p loc (separated separator (latin1 "a") (latin1 "b")) := by
  have hend : Rendering p loc (([] : List Conversion).map .conversion) := .newlines fun c hc => by cases hc
  refine .conversion simple_spelled ?_ ?_ (.literal h.1 (.conversion simple_spelled ?_ ?_ hend))
  · right; right; left
    exact ⟨by unfold Conversion.IsName; decide,by decide,forall_mem_of_all (by decide)⟩
  · intro _ _ hbrace
    exact h.2 (Option.some_inj.mp hbrace)
  · right; right; right; right; right
    exact ⟨rfl,forall_mem_of_all (by decide)⟩
  · intro htakes
    exact absurd htakes (by unfold Conversion.TakesArgument; decide)

/-- What `%c`, a separator and `%m` compile to. -/
def separatedPieces (separator : UInt16) : Compilation :=
  ⟨[makeFieldPiece (.rep (.cls .notSpace) .plus) .logger false false,
    ⟨compileLiteral [separator],false,.message,false,[]⟩,
    makeFieldPiece (.rep (.cls .any) .star) .message false true],[],2,
      {LogFormat.empty with loggerGroup := 1,msgGroup := 2}⟩

noncomputable def separatedPlatform (separator : UInt16) : Platform :=
  Platform.ascii.running (fun _ _ => false) [(separatedPieces separator).record,
    (separatedPieces separator).recordStart]

theorem separated_compiles {separator : UInt16}
    (hpieces : compilePieces (separatedPlatform separator)
      (patternOf (separated separator (latin1 "a") (latin1 "b")))=
      .ok (separatedPieces separator))
    (htext : (separatedPieces separator).record.text≠(separatedPieces separator).recordStart.text) :
    (∃f,PatternCompiler.compile (separatedPlatform separator)
      (patternOf (separated separator (latin1 "a") (latin1 "b")))=.ok f) ∧
      (separatedPlatform separator).Runs (fun _ _ => false) (separatedPieces separator).record ∧
      (separatedPlatform separator).Runs (fun _ _ => false) (separatedPieces separator).recordStart := by
  refine ⟨?_,?_,?_⟩
  · unfold PatternCompiler.compile
    rw [hpieces]
    exact ⟨_,rfl⟩
  · apply running_runs (List.mem_cons_self ..)
    simp [htext.symm]
  · apply running_runs (by simp)
    simp [htext]

/-- `%c %m` and the line `a b`. -/
theorem rendered_accepted_separated :
    ∃f,PatternCompiler.compile (separatedPlatform 0x20)
    (patternOf (separated 0x20 (latin1 "a") (latin1 "b")))=.ok f ∧
      (f.recordStartRe.exec (latin1 "a b")).isSome=true ∧ (f.recordRe.exec (latin1 "a b")).isSome=true := by
  have hpieces : compilePieces (separatedPlatform 0x20) (patternOf (separated 0x20 (latin1 "a") (latin1 "b")))=
      .ok (separatedPieces 0x20) := by rfl
  obtain ⟨⟨f,hf⟩,hrecord,hstart⟩ := separated_compiles hpieces (by decide +kernel)
  have hascii : (separatedPlatform 0x20).Ascii :=
    ⟨Platform.ascii_ascii.digit,Platform.ascii_ascii.letter,Platform.ascii_ascii.upper⟩
  have hrendering : Rendering (separatedPlatform 0x20) Locale.posix (separated 0x20 (latin1 "a") (latin1 "b")) :=
    separated_rendering (by decide)
  have haccepted := rendered_accepted hascii hrendering hf
    (by rw [hpieces]; rintro s ⟨⟩; exact ⟨hrecord,hstart⟩)
  refine ⟨f,hf,haccepted.1 ⟨?_,by decide,by decide⟩⟩
  intro e he
  rcases List.mem_cons.mp he with rfl | he
  · exact ⟨by decide,fun h => absurd h (by unfold Conversion.IsContext; decide),
      fun h => absurd h (by unfold Conversion.IsDate; decide)⟩
  rcases List.mem_cons.mp he with rfl | he
  · intro _
    rfl
  · obtain rfl := List.mem_singleton.mp he
    exact ⟨by decide,fun h => absurd h (by unfold Conversion.IsContext; decide),
      fun h => absurd h (by unfold Conversion.IsDate; decide)⟩

/-- With a no-break space between `%c` and `%m` the line they render is no record. -/
theorem rendered_rejected : ∃es f,Rendering (separatedPlatform 0xA0) Locale.posix es ∧
    patternOf es=latin1 "%c"++0xA0::latin1 "%m" ∧ lineOf es=latin1 "a"++0xA0::latin1 "b" ∧
    PatternCompiler.compile (separatedPlatform 0xA0) (patternOf es)=.ok f ∧
    (separatedPlatform 0xA0).Ascii ∧
    (∀s,compilePieces (separatedPlatform 0xA0) (patternOf es)=.ok s→
      (separatedPlatform 0xA0).Runs (fun _ _ => false) s.record ∧ (separatedPlatform 0xA0).Runs
      (fun _ _ => false) s.recordStart) ∧
    (f.recordRe.exec (lineOf es)).isSome=false := by
  have hpieces : compilePieces (separatedPlatform 0xA0) (patternOf (separated 0xA0 (latin1 "a") (latin1 "b")))=
      .ok (separatedPieces 0xA0) := by rfl
  obtain ⟨⟨f,hf⟩,hrecord,hstart⟩ := separated_compiles hpieces (by decide +kernel)
  have hlegible : Pattern.Legible (separatedPieces 0xA0).record.body := by decide
  have hspace : ∀u∈Pattern.language (separatedPlatform 0xA0) (fun _ _ => false)
    (separatedPieces 0xA0).record.body.asRead,∃x∈u,isAsciiSpace x=true := by
    intro u hu
    rw [Pattern.language_asRead hlegible] at hu
    obtain ⟨a,-,rest,hrest,rfl⟩ := mem_seq.mp hu
    obtain ⟨literal,hliteral,b,-,rfl⟩ := mem_seq.mp hrest
    obtain ⟨run,hrun,nothing,-,rfl⟩ := mem_seq.mp hliteral
    obtain ⟨hpos,hall⟩ := (mem_rep_units rfl).mp hrun
    obtain ⟨x,hx⟩ := List.exists_mem_of_length_pos hpos
    exact ⟨x,by simp [hx],hall x hx⟩
  refine ⟨_,f,separated_rendering (by decide),rfl,rfl,hf,
    ⟨Platform.ascii_ascii.digit,Platform.ascii_ascii.letter,Platform.ascii_ascii.upper⟩,?_,?_⟩
  · rw [hpieces]
    rintro s ⟨⟩
    exact ⟨hrecord,hstart⟩
  · rw [Bool.eq_false_iff]
    intro hsome
    obtain ⟨s,hs,hre,-⟩ := compile_ok hf
    rw [hpieces] at hs
    cases hs
    rw [hre] at hsome
    rcases ((hrecord _).mp hsome).2 with hmem | ⟨u,hu,hline⟩
    · obtain ⟨x,hx,hx'⟩ := hspace _ hmem
      have hnone : ∀x∈latin1 "a"++0xA0::latin1 "b",isAsciiSpace x=false := forall_mem_of_all (by decide)
      rw [hnone x hx] at hx'
      cases hx'
    · have hlast := congrArg List.getLast? hline
      rw [List.getLast?_concat] at hlast
      cases hlast

end Loftail
