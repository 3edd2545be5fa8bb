import Mathlib.Data.List.Forall2
import ProcedureIndex.Proofs.Document.LinesBelow

/-!
A comment line put in front of a text. No family of headers knows of comments, so the
line goes unnoticed only if no header starts in it, and if a string that it leaves open
hides no brace on which the nesting of a function below rests. Then everything below
moves down by the line and is otherwise as it was.
-/

namespace ProcedureIndex

open Text

def commentLine (body : Text) : Text :=
  "// ".toList ++ (body ++ ['\n'])

namespace Site

section Comment

variable {body T : Text}

theorem commentLine_append (body T : Text) :
    commentLine body ++ T = ("// ".toList ++ body) ++ '\n' :: T := by
  simp [commentLine]

theorem getLast?_commentLine (body : Text) : (commentLine body).getLast? = some '\n' := by
  rw [commentLine, ← List.append_assoc, List.getLast?_concat]

theorem inWord_commentLine (body : Text) : inWord (commentLine body).getLast? = false := by
  rw [getLast?_commentLine]
  decide

theorem not_mem_comment (hbody : '\n' ∉ body) : '\n' ∉ "// ".toList ++ body := by
  simpa using hbody

theorem above_commentLine (hbody : '\n' ∉ body) (cs : Text) :
    Annotations.above (commentLine body ++ cs) = Annotations.above cs := by
  rw [commentLine_append]
  exact Annotations.above_below (not_mem_comment hbody) (Annotations.ofLine_comment rfl) cs

/-- What starts in the comment has no annotations, unless it starts where the comment starts. -/
theorem above_of_commentLine_eq (hbody : '\n' ∉ body) {a b : Text} {c : Char} (hc : c ≠ '/')
    (hline : commentLine body = a ++ c :: b) : Annotations.above a = ([], none) := by
  cases a with
  | nil =>
      have hhead := congrArg List.head? hline
      exact absurd (Option.some.inj hhead).symm hc
  | cons d a =>
      have hd : '/' = d := Option.some.inj (congrArg List.head? hline)
      have hsub : '\n' ∉ d :: a := by
        rw [commentLine, ← List.append_assoc] at hline
        obtain ⟨init, last, hlast⟩ := (List.eq_nil_or_concat' (c :: b)).resolve_left (by simp)
        rw [hlast, ← List.append_assoc] at hline
        have hinit := (List.append_inj' hline rfl).1
        intro hmem
        exact not_mem_comment hbody (hinit ▸ List.mem_append_left init hmem)
      exact Annotations.above_of_code (by rw [← hd]; decide) hsub

/-- The symbol at a site is the symbol at another with the comment in front, as far as their names,
forms, places and annotations agree. -/
theorem symbol_below (hbody : '\n' ∉ body) (file : FileId) {site site' : Site}
    (hname : site'.name = site.name) (hform : site'.form = site.form)
    (hstart : site'.start = width (commentLine body) + site.start)
    (habove : Annotations.above (takeBytes site'.header (commentLine body ++ T)) =
      Annotations.above (takeBytes site.header T)) :
    site'.symbol file (commentLine body ++ T) = (site.symbol file T).below (commentLine body) := by
  have hwidth : width (commentLine body) = width ("// ".toList ++ body) + 1 := by
    rw [commentLine, ← List.append_assoc, width_append]
    rfl
  have hposition := LineMap.position_below (not_mem_comment hbody) T site.start
  rw [← commentLine_append, ← hwidth] at hposition
  simp only [symbol, Symbol.below, hname, hform, hposition, habove, hstart]

theorem symbol_down (hbody : '\n' ∉ body) (file : FileId) (site : Site) :
    (site.down (width (commentLine body))).symbol file (commentLine body ++ T) =
      (site.symbol file T).below (commentLine body) := by
  refine symbol_below hbody file ?_ ?_ ?_ ?_
  · rfl
  · rfl
  · rfl
  · rw [down, takeBytes_add, above_commentLine hbody]

/-- What a function header found behind a line has in common with one found in the text alone: all
that is recorded of it, and whether it counts as lying in a class. -/
structure FnBelow (line T : Text) (h' h : Hit FnHeader) : Prop where
  place : h'.start + width h'.value.lead = width line + (h.start + width h.value.lead)
  name : h'.value.name = h.value.name
  params : h'.value.params = h.value.params
  annotations : Annotations.above (takeBytes h'.start (line ++ T)) =
    Annotations.above (takeBytes h.start T)
  nesting : inClass ((classes (line ++ T)).map Hit.start) (closers (line ++ T)) h'.start =
    inClass ((classes T).map Hit.start) (closersFrom (Quoting.code.after line) 0 T) h.start

theorem starts_below {line : Text} (hclass : Quiet ClassHeader.pattern line T)
    (hline : inWord line.getLast? = false) :
    (classes (line ++ T)).map Hit.start = ((classes T).map Hit.start).map (width line + ·) := by
  rw [classes_below hclass hline, List.map_map, List.map_map]
  rfl

theorem fnBelow_down (hbody : '\n' ∉ body) (hclass : Quiet ClassHeader.pattern (commentLine body) T)
    (h : Hit FnHeader) : FnBelow (commentLine body) T (h.down (width (commentLine body))) h where
  place := Nat.add_assoc _ _ _
  name := rfl
  params := rfl
  annotations := by rw [Hit.down, takeBytes_add, above_commentLine hbody]
  nesting := by
    have hearly : ∀ b ∈ closersFrom .code 0 (commentLine body), b < width (commentLine body) := by
      intro b hb
      have hbounds := bounds_of_mem_closersFrom hb
      omega
    rw [starts_below hclass (inWord_commentLine body), closers_below]
    exact inClass_map_add hearly _ _ _

/-- A `static` at the end of the comment becomes part of the first header below; nothing of it is
recorded there. -/
theorem fnBelow_static (hbody : '\n' ∉ body)
    (hclass : Quiet ClassHeader.pattern (commentLine body) T) {a gap gap' cs rest : Text}
    {h : FnHeader} (hline : commentLine body = a ++ (FnHeader.staticKeyword ++ gap))
    (hT : T = gap' ++ cs) (hblank : ∀ c ∈ gap', isBlank c = true) :
    FnBelow (commentLine body) T
      ⟨width a, { h with
        isStatic := true, lead := FnHeader.staticKeyword ++ (gap ++ gap') ++ h.lead }, rest⟩
      ⟨width gap', h, rest⟩ where
  place := by
    rw [hline]
    simp only [width_append]
    omega
  name := rfl
  params := rfl
  annotations := by
    have hbefore := above_of_commentLine_eq hbody (by decide) hline
    change Annotations.above (takeBytes (width a) (commentLine body ++ T)) =
      Annotations.above (takeBytes (width gap') T)
    rw [hline, List.append_assoc, takeBytes_width_append, hbefore, hT, takeBytes_width_append,
      Annotations.above_of_blank hblank]
  nesting := by
    have hfirst : ∀ c ∈ (classes T).map Hit.start, width gap' ≤ c := by
      intro c hc
      obtain ⟨k, hk, rfl⟩ := List.mem_map.1 hc
      rw [classes, hits, hT,
        ClassHeader.keyed.hitsFrom_marks fun c hc => isWordChar_of_isBlank (hblank c hc)] at hk
      have hle := le_start_of_mem_hitsFrom hk
      omega
    rw [starts_below hclass (inWord_commentLine body), inClass_eq_false hfirst]
    apply inClass_eq_false
    intro c hc
    obtain ⟨n, -, rfl⟩ := List.mem_map.1 hc
    have hle : width a ≤ width (commentLine body) := by
      rw [hline, width_append]
      omega
    change width a ≤ width (commentLine body) + n
    omega

theorem forall₂_fnBelow (hbody : '\n' ∉ body)
    (hclass : Quiet ClassHeader.pattern (commentLine body) T)
    (hfn : Quiet FnHeader.unmarked (commentLine body) T) :
    List.Forall₂ (FnBelow (commentLine body) T)
      (hits FnHeader.pattern (commentLine body ++ T)) (hits FnHeader.pattern T) := by
  have hdown : ∀ hs : List (Hit FnHeader), List.Forall₂ (FnBelow (commentLine body) T)
      (hs.map (Hit.down (width (commentLine body)))) hs := by
    intro hs
    rw [List.forall₂_map_left_iff, List.forall₂_same]
    exact fun h _ => fnBelow_down hbody hclass h
  rcases FnHeader.hits_below hfn (getLast?_commentLine body) with heq |
    ⟨a, gap, gap', cs, h, rest, later, hline, hT, hblank, hbelow, habove⟩
  · rw [heq]
    exact hdown _
  · rw [hbelow, habove]
    exact .cons (fnBelow_static hbody hclass hline hT hblank) (hdown later)

theorem filter_map_of_forall₂ {α β γ : Type} {R : α → β → Prop} {xs : List α} {ys : List β}
    (h : List.Forall₂ R xs ys) {p : α → Bool} {q : β → Bool} {f : α → γ} {g : β → γ}
    (hR : ∀ x y, R x y → y ∈ ys → p x = q y ∧ f x = g y) :
    (xs.filter p).map f = (ys.filter q).map g := by
  induction h with
  | nil => rfl
  | @cons x y xs ys hxy _ ih =>
      obtain ⟨hp, hf⟩ := hR x y hxy List.mem_cons_self
      have hrest := ih fun x y hxy hy => hR x y hxy (List.mem_cons_of_mem _ hy)
      rw [List.filter_cons, List.filter_cons, hp]
      split
      · rw [List.map_cons, List.map_cons, hf, hrest]
      · exact hrest

theorem exists_of_forall₂ {α β : Type} {R : α → β → Prop} {xs : List α} {ys : List β}
    (h : List.Forall₂ R xs ys) {y : β} (hy : y ∈ ys) : ∃ x ∈ xs, R x y := by
  induction h with
  | nil => cases hy
  | @cons x z xs ys hxz _ ih =>
      rcases List.mem_cons.1 hy with rfl | hy
      · exact ⟨x, List.mem_cons_self, hxz⟩
      · obtain ⟨x', hx', hR⟩ := ih hy
        exact ⟨x', List.mem_cons_of_mem x hx', hR⟩

/-- Nothing in a line is taken for the start of a header, and a string that the line leaves open
hides no brace on which the nesting of a function below rests. -/
structure Unnoticed (line T : Text) : Prop where
  classes : Quiet ClassHeader.pattern line T
  pipelines : Quiet PipelineHeader.pattern line T
  functions : Quiet FnHeader.unmarked line T
  nesting : ∀ h ∈ hits FnHeader.pattern T,
    inClass ((Site.classes T).map Hit.start) (closersFrom (Quoting.code.after line) 0 T) h.start =
      inClass ((Site.classes T).map Hit.start) (closers T) h.start

theorem functions_below (hbody : '\n' ∉ body) (h : Unnoticed (commentLine body) T)
    (file : FileId) :
    (functions (commentLine body ++ T)).map (symbol file (commentLine body ++ T)) =
      ((functions T).map (symbol file T)).map (Symbol.below (commentLine body)) := by
  rw [functions_eq, functions_eq, List.map_map, List.map_map, List.map_map]
  apply filter_map_of_forall₂ (forall₂_fnBelow hbody h.classes h.functions)
  intro h' hit hbelow hmem
  refine ⟨by rw [hbelow.nesting, h.nesting hit hmem], ?_⟩
  refine symbol_below hbody file hbelow.name ?_ hbelow.place hbelow.annotations
  simp only [ofFn, hbelow.params]

theorem map_symbol_below (hbody : '\n' ∉ body) (file : FileId) (T : Text)
    {sites sites' : List Site} (h : sites' = sites.map (down (width (commentLine body)))) :
    sites'.map (symbol file (commentLine body ++ T)) =
      (sites.map (symbol file T)).map (Symbol.below (commentLine body)) := by
  rw [h, List.map_map, List.map_map]
  apply List.map_congr_left
  intro site _
  exact symbol_down hbody file site

theorem width_commentLine (body : Text) :
    width (commentLine body) = width (("// ".toList ++ body) ++ ['\n']) := by
  rw [commentLine, List.append_assoc]

theorem onLines_comment (hbody : '\n' ∉ body) (recognise : Text → Option LineHeader)
    (hnone : recognise ("// ".toList ++ body) = none) (form : String → SymbolForm) (T : Text) :
    onLines recognise form (commentLine body ++ T) =
      (onLines recognise form T).map (down (width (commentLine body))) := by
  rw [commentLine_append, width_commentLine]
  exact onLines_below (not_mem_comment hbody) hnone form T

theorem all_below (hbody : '\n' ∉ body) (h : Unnoticed (commentLine body) T) (file : FileId) :
    (all (commentLine body ++ T)).map (symbol file (commentLine body ++ T)) =
      ((all T).map (symbol file T)).map (Symbol.below (commentLine body)) := by
  have hword := inWord_commentLine body
  have hpipelines := map_symbol_below hbody file T (pipelines_below h.pipelines hword)
  have htypes := map_symbol_below hbody file T (types_below h.classes hword)
  have haliases := map_symbol_below hbody file T
    (onLines_comment hbody (LineHeader.assigned? "alias".toList) rfl .typeAlias T)
  have hmacros := map_symbol_below hbody file T
    (onLines_comment hbody (LineHeader.spaced? "macro".toList) rfl .macroText T)
  have hconstants := map_symbol_below hbody file T
    (onLines_comment hbody (LineHeader.assigned? "const".toList) rfl .constant T)
  simp only [all, List.map_append, aliases, macros, constants, functions_below hbody h file,
    hpipelines, htypes, haliases, hmacros, hconstants]

theorem parse_below (hbody : '\n' ∉ body) (h : Unnoticed (commentLine body) T) (file : FileId) :
    (parse file (commentLine body ++ T)).all =
      (parse file T).all.map (Symbol.below (commentLine body)) := by
  have hname : ∀ s : Symbol, (s.below (commentLine body)).name = s.name := fun _ => rfl
  rw [parse, parse, Declarations.all, Declarations.all, Declarations.symbols_ofSymbols,
    Declarations.symbols_ofSymbols, all_below hbody h, Grouping.values_collect_map hname]

/-- So no declaration has its name where nothing but blanks stands before it. -/
theorem start_ne_width_of_blank {gap cs : Text} (hblank : ∀ c ∈ gap, isBlank c = true)
    {site : Site} (h : site ∈ all (gap ++ cs)) : site.start ≠ width gap := by
  intro hstart
  obtain ⟨keyword, hkey, hled⟩ := exists_led h
  rw [Led, hstart, takeBytes_width_append] at hled
  obtain ⟨front, rest, rfl, -⟩ := hled
  cases keyword with
  | nil => exact hkey.ne_nil rfl
  | cons c keyword =>
      have hc := hkey.isBlank_head []
      have hb := hblank c (by simp)
      simp [hb] at hc

/-- The text with the comment declares what the text declares, further down. -/
def SameBelow (file : FileId) (body T : Text) : Prop :=
  (parse file (commentLine body ++ T)).all =
    (parse file T).all.map (Symbol.below (commentLine body))

theorem SameBelow.exists_above {file : FileId} (hsame : SameBelow file body T) {site' : Site}
    (h : site' ∈ all (commentLine body ++ T)) :
    ∃ site ∈ all T, site'.start = width (commentLine body) + site.start ∧
      site'.form = site.form := by
  have hmem := symbol_mem_parse h file
  rw [hsame, List.mem_map] at hmem
  obtain ⟨s, hs, heq⟩ := hmem
  obtain ⟨site, hsite, rfl⟩ := exists_site_of_mem_parse hs
  exact ⟨site, hsite, (congrArg Symbol.start heq).symm, (congrArg Symbol.form heq).symm⟩

theorem SameBelow.exists_below {file : FileId} (hsame : SameBelow file body T) {site : Site}
    (h : site ∈ all T) :
    ∃ site' ∈ all (commentLine body ++ T), site'.start = width (commentLine body) + site.start ∧
      site'.form = site.form := by
  have hmem := List.mem_map_of_mem (f := Symbol.below (commentLine body)) (symbol_mem_parse h file)
  rw [← hsame] at hmem
  obtain ⟨site', hsite', heq⟩ := exists_site_of_mem_parse hmem
  exact ⟨site', hsite', (congrArg Symbol.start heq).symm, (congrArg Symbol.form heq).symm⟩

/-- No keyword in the comment leads up to a name that is declared: the name would stand in the
comment, or at the very start of the text behind it. -/
theorem SameBelow.not_led {file : FileId} (hsame : SameBelow file body T) {a b key gap more : Text}
    (hab : commentLine body = a ++ b) (hb : b ≠ []) (hkey : '\n' ∉ key)
    (hblank : ∀ c ∈ gap, isBlank c = true) (hsplit : b ++ T = key ++ (gap ++ more)) {site' : Site}
    (hsite' : site' ∈ all (commentLine body ++ T)) :
    site'.start ≠ width a + width (key ++ gap) := by
  intro hstart
  obtain ⟨site, hsite, hplace, -⟩ := hsame.exists_above hsite'
  have hnewline : '\n' ∈ b := by
    have hlast := getLast?_commentLine body
    rw [hab, List.getLast?_append_of_ne_nil a hb] at hlast
    exact List.mem_of_getLast? hlast
  rw [hstart, hab] at hplace
  simp only [width_append] at hplace
  rcases List.append_eq_append_iff.1 hsplit with ⟨x, rfl, -⟩ | ⟨x, rfl, hx⟩
  · exact hkey (List.mem_append_left x hnewline)
  · rw [width_append] at hplace
    rcases List.append_eq_append_iff.1 hx with ⟨y, rfl, -⟩ | ⟨y, rfl, rfl⟩
    · rw [width_append] at hplace
      have hstart : site.start = 0 := by omega
      exact start_ne_width_of_blank (List.forall_mem_nil _) hsite hstart
    · rw [width_append] at hplace
      exact start_ne_width_of_blank (fun c hc => hblank c (List.mem_append_right x hc)) hsite
        (by omega)

/-- A pattern all of whose hits are declared has no hit in the comment. -/
theorem SameBelow.quiet {file : FileId} (hsame : SameBelow file body T) {α : Type} {p : Pattern α}
    {key : Text} {lead : α → Text} (hkey : '\n' ∉ key)
    (hlead : ∀ {prev cs h rest}, p prev cs = some (h, rest) →
      ∃ gap more, lead h = key ++ gap ∧ (∀ c ∈ gap, isBlank c = true) ∧ cs = key ++ (gap ++ more))
    (hsites : ∀ hit ∈ hits p (commentLine body ++ T),
      ∃ site ∈ all (commentLine body ++ T), site.start = hit.start + width (lead hit.value)) :
    Quiet p (commentLine body) T := by
  by_contra hnot
  obtain ⟨a, b, ⟨h, rest⟩, hab, hb, ha, hp⟩ := exists_first_of_not_quiet hnot
  have hhit := ha.mem_hits hp
  rw [← List.append_assoc, ← hab] at hhit
  obtain ⟨site, hsite, hstart⟩ := hsites _ hhit
  obtain ⟨gap, more, heq, hblank, hsplit⟩ := hlead hp
  exact hsame.not_led hab hb hkey hblank hsplit hsite (by rw [hstart, heq])

theorem SameBelow.quiet_classes {file : FileId} (hsame : SameBelow file body T) :
    Quiet ClassHeader.pattern (commentLine body) T := by
  refine hsame.quiet (show '\n' ∉ ClassHeader.keyword by decide) ClassHeader.exists_lead ?_
  intro hit hhit
  have htypes : ofClass hit ∈ types (commentLine body ++ T) := by
    rw [types_eq]
    exact List.mem_flatMap.2 ⟨hit, hhit, List.mem_cons_self⟩
  exact ⟨ofClass hit, by simp only [all, List.mem_append, htypes, or_true, true_or], rfl⟩

theorem SameBelow.quiet_pipelines {file : FileId} (hsame : SameBelow file body T) :
    Quiet PipelineHeader.pattern (commentLine body) T := by
  refine hsame.quiet (show '\n' ∉ PipelineHeader.keyword by decide) PipelineHeader.exists_lead ?_
  intro hit hhit
  have hpipelines : _ ∈ pipelines (commentLine body ++ T) := List.mem_map_of_mem hhit
  refine ⟨⟨hit.start, hit.start + width hit.value.lead, hit.value.name, .pipeline⟩, ?_, rfl⟩
  simp only [all, List.mem_append, hpipelines, or_true, true_or]

theorem FnHeader.mem_of_unmarked {prev : Option Char} {b T : Text} {r : FnHeader × Text}
    (hb : b ≠ []) (h : FnHeader.unmarked prev (b ++ T) = some r) : 'f' ∈ b := by
  rw [FnHeader.unmarked] at h
  split at h
  · cases h
  · obtain ⟨gap, more, -, -, hcs⟩ := FnHeader.exists_lead_of_plain? h
    cases b with
    | nil => exact absurd rfl hb
    | cons c b =>
        have hc : c = 'f' := Option.some.inj (congrArg List.head? hcs)
        rw [hc]
        exact List.mem_cons_self

/-- Where a line holds an `fn` that heads a header, a header that is read from a `static` before it
is read on from an `fn` of the line. -/
theorem exists_fn_split {line a b a' b' gap cs : Text} {r : FnHeader × Text} (hab : line = a ++ b)
    (ha : Quiet FnHeader.pattern a (b ++ T))
    (hsplit : b ++ T = FnHeader.staticKeyword ++ (gap ++ cs))
    (hblank : ∀ c ∈ gap, isBlank c = true) (hab' : line = a' ++ b') (hb' : b' ≠ [])
    (hfn : FnHeader.unmarked a'.getLast? (b' ++ T) = some r) :
    ∃ y, y ≠ [] ∧ b = FnHeader.staticKeyword ++ gap ++ y ∧ cs = y ++ T := by
  have hf : 'f' ∈ b := by
    have hhead := FnHeader.mem_of_unmarked hb' hfn
    rcases List.append_eq_append_iff.1 (hab.symm.trans hab') with ⟨z, rfl, rfl⟩ | ⟨z, rfl, rfl⟩
    · exact List.mem_append_right z hhead
    · cases z with
      | nil => simpa using hhead
      | cons c z =>
          have hnone := ha a' (c :: z) rfl (by simp)
          rw [← List.append_assoc, FnHeader.pattern_of_unmarked hfn] at hnone
          cases hnone
  have hfree : 'f' ∉ FnHeader.staticKeyword ++ gap := by
    intro hmem
    rcases List.mem_append.1 hmem with hmem | hmem
    · exact absurd hmem (by decide)
    · exact absurd (hblank 'f' hmem) (by decide)
  rw [← List.append_assoc] at hsplit
  rcases List.append_eq_append_iff.1 hsplit with ⟨x, hx, -⟩ | ⟨y, rfl, rfl⟩
  · exact absurd (hx ▸ List.mem_append_left x hf) hfree
  · refine ⟨y, ?_, rfl, rfl⟩
    rintro rfl
    exact hfree (by simpa using hf)

theorem SameBelow.quiet_functions {file : FileId} (hsame : SameBelow file body T) :
    Quiet FnHeader.unmarked (commentLine body) T := by
  intro a' b' hab' hb'
  rw [Option.eq_none_iff_forall_ne_some]
  intro r hfn
  have hnot : ¬ Quiet FnHeader.pattern (commentLine body) T := by
    intro hall
    have hnone := hall a' b' hab' hb'
    rw [FnHeader.pattern_of_unmarked hfn] at hnone
    cases hnone
  obtain ⟨a, b, ⟨h, rest⟩, hab, hb, ha, hp⟩ := exists_first_of_not_quiet hnot
  have hhit := ha.mem_hits hp
  rw [← List.append_assoc, ← hab] at hhit
  have hsite : ofFn ⟨width a, h, rest⟩ ∈ all (commentLine body ++ T) := by
    apply mem_all_of_mem_functions
    apply mem_functions hhit
    rw [starts_below hsame.quiet_classes (inWord_commentLine body)]
    apply inClass_eq_false
    intro c hc
    obtain ⟨n, -, rfl⟩ := List.mem_map.1 hc
    have hle : width a ≤ width (commentLine body) := by
      rw [hab, width_append]
      omega
    change width a ≤ width (commentLine body) + n
    omega
  rcases FnHeader.pattern_cases hp with hplain | ⟨gap, cs, h', hsplit, -, hblank, hplain, rfl⟩
  · rw [FnHeader.unmarked] at hplain
    split at hplain
    · cases hplain
    · obtain ⟨gap, more, hlead, hblank, hsplit⟩ := FnHeader.exists_lead_of_plain? hplain
      exact hsame.not_led hab hb (show '\n' ∉ FnHeader.keyword by decide) hblank hsplit hsite
        (by rw [← hlead]; rfl)
  · obtain ⟨y, hy, rfl, rfl⟩ := exists_fn_split hab ha hsplit hblank hab' hb' hfn
    obtain ⟨gap', more, hlead, hblank', hsplit'⟩ := FnHeader.exists_lead_of_plain? hplain
    rw [← List.append_assoc] at hab
    refine hsame.not_led hab hy (show '\n' ∉ FnHeader.keyword by decide) hblank' hsplit' hsite ?_
    simp only [ofFn, hlead, width_append]
    omega

theorem SameBelow.nesting {file : FileId} (hbody : '\n' ∉ body) (hsame : SameBelow file body T)
    {hit : Hit FnHeader} (hhit : hit ∈ hits FnHeader.pattern T) :
    inClass ((classes T).map Hit.start) (closersFrom (Quoting.code.after (commentLine body)) 0 T)
        hit.start =
      inClass ((classes T).map Hit.start) (closers T) hit.start := by
  obtain ⟨hit', hhit', hbelow⟩ := exists_of_forall₂
    (forall₂_fnBelow hbody hsame.quiet_classes hsame.quiet_functions) hhit
  have hiff : (∃ site ∈ functions (commentLine body ++ T),
      site.start = hit'.start + width hit'.value.lead) ↔
      ∃ site ∈ functions T, site.start = hit.start + width hit.value.lead := by
    rw [hbelow.place]
    constructor
    · rintro ⟨site', hsite', hstart'⟩
      obtain ⟨site, hsite, hstart, hform⟩ :=
        hsame.exists_above (mem_all_of_mem_functions hsite')
      obtain ⟨h, -, rfl⟩ := List.mem_map.1 hsite'
      exact ⟨site, mem_functions_of_form hsite hform.symm, by omega⟩
    · rintro ⟨site, hsite, hstart⟩
      obtain ⟨site', hsite', hstart', hform⟩ :=
        hsame.exists_below (mem_all_of_mem_functions hsite)
      obtain ⟨h, -, rfl⟩ := List.mem_map.1 hsite
      exact ⟨site', mem_functions_of_form hsite' hform, by omega⟩
  rw [exists_function_iff hhit', exists_function_iff hhit, hbelow.nesting] at hiff
  rw [Bool.eq_iff_iff, ← Bool.not_eq_false, ← Bool.not_eq_false, hiff]

/-- A comment line in front of a text leaves everything that the text declares as it was, a line
further down, if and only if no class, pipeline or function header starts in the comment and a
string that the comment leaves open changes the nesting of no function. -/
theorem comment_unnoticed_iff (file : FileId) (hbody : '\n' ∉ body) (T : Text) :
    (parse file (commentLine body ++ T)).all =
        (parse file T).all.map (Symbol.below (commentLine body)) ↔
      Unnoticed (commentLine body) T := by
  constructor
  · intro hsame
    have hsame : SameBelow file body T := hsame
    exact ⟨hsame.quiet_classes, hsame.quiet_pipelines, hsame.quiet_functions,
      fun _ => hsame.nesting hbody⟩
  · intro h
    exact parse_below hbody h file

theorem class_notes_noticed :
    (parse ⟨0⟩ (commentLine "class notes".toList ++ "fn f() \x7b\x7d\n".toList)).all ≠
        (parse ⟨0⟩ "fn f() \x7b\x7d\n".toList).all.map
          (Symbol.below (commentLine "class notes".toList)) ∧
      Unnoticed (commentLine "notes".toList) "fn f() \x7b\x7d\n".toList := by
  constructor
  · intro hsame
    have h := (comment_unnoticed_iff ⟨0⟩ (by decide +kernel) _).1 hsame
    have hnone := h.classes "// ".toList "class notes\n".toList rfl (by decide)
    revert hnone
    decide +kernel
  · refine (comment_unnoticed_iff ⟨0⟩ (by decide +kernel) _).1 ?_
    decide +kernel

end Comment

end Site
end ProcedureIndex
