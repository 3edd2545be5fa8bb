import ProcedureIndex.Proofs.Document.ReturnedScans

/-!
What is declared in a text with a carriage return in front of every newline. Values are
trimmed, and so are the lines above a declaration, so that the carriage return at the end
of a line is not seen; but the name of a macro without a value has to end its line, and
the carriage return keeps it from doing so.
-/

namespace ProcedureIndex

open Text

namespace Text

theorem trim_append_return (cs : Text) : trim (cs ++ ['\r']) = trim cs := by
  have hreturn : ∀ c ∈ ['\r'], isBlank c = true := by
    intro c hc
    rw [List.mem_singleton.1 hc]
    rfl
  rw [trim, trim, trimStart, trimStart, List.dropWhile_append]
  split
  · next hblank =>
      rw [List.isEmpty_iff.1 hblank]
      rfl
  · exact trimEnd_append_blanks hreturn _

end Text

namespace LineHeader

theorem literal_append_return (value : Text) : literal (value ++ ['\r']) = literal value := by
  rw [literal, trim_append_return, literal]

def returned (h : LineHeader) : LineHeader :=
  { h with value := h.value ++ ['\r'] }

theorem named?_append_return {k : Text} (hk : '\r' ∉ k) (line : Text) :
    named? k (line ++ ['\r']) = (named? k line).map fun r => (r.1, r.2 ++ ['\r']) := by
  have hstop : ∀ c ∈ ['\r'].head?, c ∉ k := by
    intro c hc
    cases hc
    exact hk
  simp only [named?, bind, Option.bind, dropWhile_append_of_stop (p := isSpacing) (b := ['\r']) rfl,
    takeWhile_append_of_stop (p := isSpacing) (b := ['\r']) rfl, after?_append_of_stop hstop]
  cases after? k (line.dropWhile isSpacing) with
  | none => rfl
  | some r =>
      simp only [Option.map_some, some?_append_of_stop (p := isSpacing) (b := ['\r']) rfl]
      cases some? isSpacing r with
      | none => rfl
      | some g =>
          simp only [Option.map_some, name?_append_of_stop (b := ['\r']) (by decide)]
          cases name? g.2 <;> rfl

theorem assigned?_append_return {keyword : Text} (hk : '\r' ∉ keyword) (line : Text) :
    assigned? keyword (line ++ ['\r']) = (assigned? keyword line).map returned := by
  have hstop : ∀ c ∈ ['\r'].head?, c ∉ ['='] := by simp
  simp only [assigned?, bind, Option.bind, named?_append_return hk]
  cases named? keyword line with
  | none => rfl
  | some r =>
      simp only [Option.map_some, dropWhile_append_of_stop (p := isSpacing) (b := ['\r']) rfl,
        after?_append_of_stop hstop]
      cases after? ['='] (r.2.dropWhile isSpacing) <;> rfl

end LineHeader

def BareMacro (line : Text) : Prop :=
  ∃ indent gap name, line = indent ++ ("macro".toList ++ (gap ++ name)) ∧
    (∀ c ∈ indent, isSpacing c = true) ∧ (∀ c ∈ gap, isSpacing c = true) ∧ gap ≠ [] ∧ IsName name

namespace LineHeader

theorem bareMacro_iff {line : Text} :
    BareMacro line ↔ ∃ r, named? "macro".toList line = some (r, []) := by
  constructor
  · intro h
    obtain ⟨indent, gap, name, hline, hindent, hgap, hne, hname⟩ := h
    have hkeyword : line.dropWhile isSpacing = "macro".toList ++ (gap ++ name) := by
      rw [hline, List.dropWhile_append_of_pos hindent]
      rfl
    have hhead : name.head?.any isSpacing = false := by
      have hblank := hname.isBlank_head []
      rw [List.append_nil] at hblank
      cases hfirst : name.head? with
      | none => rfl
      | some c =>
          rw [hfirst] at hblank
          exact Bool.eq_false_iff.2 fun hc =>
            Bool.false_ne_true (hblank.symm.trans (isBlank_of_isSpacing hc))
    have hwhole : name? name = some (name, []) := by
      have hn := name?_append hname (show ([] : Text).head?.any isNameContinue = false from rfl)
      rwa [List.append_nil] at hn
    refine ⟨(line.takeWhile isSpacing ++ "macro".toList ++ gap, name), ?_⟩
    simp only [named?, bind, Option.bind, hkeyword, after?_append,
      some?_append_of_pos hgap hne hhead, hwhole]
    rfl
  · intro h
    obtain ⟨r, hr⟩ := h
    simp only [named?, bind, Option.bind_eq_some_iff] at hr
    obtain ⟨behind, hk, ⟨gap, rest⟩, hgap, ⟨name, last⟩, hn, he⟩ := hr
    cases he
    obtain ⟨hrest, hlast⟩ := some?_eq_some hgap
    obtain ⟨hname, hwhole, -⟩ := name?_eq_some hn
    refine ⟨line.takeWhile isSpacing, gap, name, ?_, fun c hc => List.mem_takeWhile_imp hc,
      all_of_some? hgap, ?_, hwhole⟩
    · rw [List.append_nil] at hname
      rw [← hname, ← hrest, ← after?_eq_some_iff.1 hk, List.takeWhile_append_dropWhile]
    · intro hnil
      rw [hnil] at hlast
      cases hlast

theorem spaced?_append_return {line : Text} (hbare : ¬ BareMacro line) :
    spaced? "macro".toList (line ++ ['\r']) = (spaced? "macro".toList line).map returned := by
  have hreturn := named?_append_return (k := "macro".toList) (by decide) line
  simp only [spaced?, bind, Option.bind, hreturn]
  cases hn : named? "macro".toList line with
  | none => rfl
  | some r =>
      obtain ⟨r, rest⟩ := r
      cases rest with
      | nil => exact absurd (bareMacro_iff.2 ⟨r, hn⟩) hbare
      | cons c cs =>
          simp only [Option.map_some, List.cons_append]
          split <;> rfl

/-- A carriage return behind its name is no value of a macro. -/
theorem spaced?_of_bareMacro {line : Text} (hbare : BareMacro line) :
    (spaced? "macro".toList line).isSome = true ∧ spaced? "macro".toList (line ++ ['\r']) = none := by
  obtain ⟨r, hn⟩ := bareMacro_iff.1 hbare
  have hreturn := named?_append_return (k := "macro".toList) (by decide) line
  simp only [spaced?, bind, Option.bind, hreturn, hn]
  exact ⟨rfl, rfl⟩

end LineHeader

namespace Site

def onLine (recognise : Text → Option LineHeader) (form : String → SymbolForm)
    (l : Nat × Text) : Option Site :=
  (recognise l.2).map fun h =>
    ⟨l.1, l.1 + width h.lead, h.name, form (String.ofList (LineHeader.literal h.value))⟩

section OnLines

variable {recognise : Text → Option LineHeader} {form : String → SymbolForm}

theorem onLines_eq (cs : Text) :
    onLines recognise form cs =
      (LineHeader.linesFrom 0 (lines cs)).filterMap (onLine recognise form) := by
  rw [onLines, LineHeader.all, List.map_filterMap]
  congr 1
  funext l
  rw [onLine, Option.map_map]
  rfl

theorem onLine_append_return {line : Text}
    (h : recognise (line ++ ['\r']) = (recognise line).map LineHeader.returned) (offset : Nat) :
    onLine recognise form (offset, line ++ ['\r']) = onLine recognise form (offset, line) := by
  simp only [onLine, h, Option.map_map]
  congr 1
  funext header
  simp only [Function.comp, LineHeader.returned, LineHeader.literal_append_return]

variable (hform : ∀ value, (form value).returned = form value)
  (hrec : ∀ {line h}, recognise line = some h → ∃ behind, NameAt line h.lead h.name behind)
include hform hrec

theorem onLine_moved {line : Text} (hline : '\n' ∉ line) (a b : Text) :
    onLine recognise form (width (withReturns a), line) =
      (onLine recognise form (width a, line)).map (returned (a ++ (line ++ b))) := by
  simp only [onLine, Option.map_map]
  cases hsome : recognise line with
  | none => rfl
  | some h =>
      obtain ⟨behind, hname⟩ := hrec hsome
      have hplain : withReturns h.lead = h.lead :=
        withReturns_of_not_mem fun hmem => hline (hname.split ▸ List.mem_append_left _ hmem)
      have hmoved := moved_add a h.lead (h.name ++ behind ++ b)
      rw [hplain, ← List.append_assoc h.lead, ← hname.split] at hmoved
      simp only [Option.map_some, Function.comp, returned, moved_width, hmoved, hform]

theorem onLines_withReturns {cs : Text}
    (h : ∀ line ∈ (lines cs).dropLast,
      recognise (line ++ ['\r']) = (recognise line).map LineHeader.returned) :
    onLines recognise form (withReturns cs) = (onLines recognise form cs).map (returned cs) := by
  -- The lines of `cs` stand behind a text `a`.
  have hbehind : ∀ a, (LineHeader.linesFrom (width (withReturns a))
        (lines (withReturns cs))).filterMap (onLine recognise form) =
      ((LineHeader.linesFrom (width a) (lines cs)).filterMap (onLine recognise form)).map
        (returned (a ++ cs)) := by
    induction cs using byLines with
    | last l hl =>
        intro a
        have hline := onLine_moved hform hrec hl a []
        rw [List.append_nil] at hline
        rw [withReturns_of_not_mem hl, lines_of_not_mem hl]
        simp only [LineHeader.linesFrom, List.filterMap_cons, List.filterMap_nil, hline]
        cases onLine recognise form (width a, l) <;> rfl
    | line l below hl ih =>
        intro a
        have hlines : (lines (l ++ '\n' :: below)).dropLast = l :: (lines below).dropLast := by
          rw [lines_append_newline hl, List.dropLast_cons_of_ne_nil (lines_ne_nil below)]
        rw [hlines] at h
        have hline : onLine recognise form (width (withReturns a), l ++ ['\r']) =
            (onLine recognise form (width a, l)).map (returned (a ++ (l ++ '\n' :: below))) := by
          rw [onLine_append_return (h l List.mem_cons_self)]
          exact onLine_moved hform hrec hl a ('\n' :: below)
        have hbelow := ih (fun line hm => h line (List.mem_cons_of_mem l hm)) (a ++ (l ++ ['\n']))
        have hwidth : width (withReturns (a ++ (l ++ ['\n']))) =
            width (withReturns a) + width (l ++ ['\r']) + 1 := by
          rw [withReturns_append, withReturns_append_newline hl]
          simp only [withReturns_nil, width_append, width_cons, width_nil]
          rfl
        have hwidth' : width (a ++ (l ++ ['\n'])) = width a + width l + 1 := by
          simp only [width_append, width_cons, width_nil]
          rfl
        rw [hwidth, hwidth', List.append_assoc, List.append_assoc, List.singleton_append] at hbelow
        rw [lines_withReturns_append_newline hl, lines_append_newline hl]
        simp only [LineHeader.linesFrom, List.filterMap_cons, hline, hbelow]
        cases onLine recognise form (width a, l) <;> rfl
  rw [onLines_eq, onLines_eq]
  exact hbehind []

end OnLines

theorem aliases_withReturns (cs : Text) :
    aliases (withReturns cs) = (aliases cs).map (returned cs) :=
  onLines_withReturns (fun _ => rfl) LineHeader.assigned?_eq_some
    fun line _ => LineHeader.assigned?_append_return (by decide) line

theorem constants_withReturns (cs : Text) :
    constants (withReturns cs) = (constants cs).map (returned cs) :=
  onLines_withReturns (fun _ => rfl) LineHeader.assigned?_eq_some
    fun line _ => LineHeader.assigned?_append_return (by decide) line

theorem macros_withReturns {cs : Text} (h : ∀ line ∈ (lines cs).dropLast, ¬ BareMacro line) :
    macros (withReturns cs) = (macros cs).map (returned cs) :=
  onLines_withReturns (fun _ => rfl) LineHeader.spaced?_eq_some
    fun line hline => LineHeader.spaced?_append_return (h line hline)

theorem all_withReturns {cs : Text} (hcs : '\\' ∉ cs)
    (h : ∀ line ∈ (lines cs).dropLast, ¬ BareMacro line) :
    all (withReturns cs) = (all cs).map (returned cs) := by
  simp only [all, functions_withReturns hcs, pipelines_withReturns, types_withReturns hcs,
    aliases_withReturns, constants_withReturns, macros_withReturns h, List.map_append]

theorem length_onLines (recognise : Text → Option LineHeader) (form : String → SymbolForm)
    (cs : Text) : (onLines recognise form cs).length = ((lines cs).filterMap recognise).length := by
  have hlines : ∀ offset ls,
      ((LineHeader.linesFrom offset ls).filterMap (onLine recognise form)).length =
        (ls.filterMap recognise).length := by
    intro offset ls
    induction ls generalizing offset with
    | nil => rfl
    | cons l ls ih =>
        rw [LineHeader.linesFrom, List.filterMap_cons, List.filterMap_cons, onLine]
        cases recognise l with
        | none => exact ih _
        | some h => exact congrArg (· + 1) (ih _)
  rw [onLines_eq, hlines]

theorem length_spaced?_return_le (ls : List Text) :
    ((ls.map (· ++ ['\r'])).filterMap (LineHeader.spaced? "macro".toList)).length ≤
      (ls.filterMap (LineHeader.spaced? "macro".toList)).length := by
  induction ls with
  | nil => exact Nat.le_refl _
  | cons l ls ih =>
      rw [List.map_cons, List.filterMap_cons, List.filterMap_cons]
      by_cases hbare : BareMacro l
      · obtain ⟨hsome, hnone⟩ := LineHeader.spaced?_of_bareMacro hbare
        obtain ⟨h, hh⟩ := Option.isSome_iff_exists.1 hsome
        rw [hnone, hh]
        exact Nat.le_succ_of_le ih
      · rw [LineHeader.spaced?_append_return hbare]
        cases LineHeader.spaced? "macro".toList l with
        | none => exact ih
        | some h => exact Nat.succ_le_succ ih

/-- A macro that ends its line with its name is lost. -/
theorem length_macros_withReturns_lt {cs line : Text} (hline : line ∈ (lines cs).dropLast)
    (hbare : BareMacro line) : (macros (withReturns cs)).length < (macros cs).length := by
  obtain ⟨init, last, hlines, hreturns⟩ := exists_lines_withReturns cs
  rw [hlines, List.dropLast_concat] at hline
  obtain ⟨a, b, rfl⟩ := List.append_of_mem hline
  obtain ⟨hsome, hnone⟩ := LineHeader.spaced?_of_bareMacro hbare
  obtain ⟨h, hh⟩ := Option.isSome_iff_exists.1 hsome
  have ha := length_spaced?_return_le a
  have hb := length_spaced?_return_le b
  rw [macros, length_onLines, length_onLines, hlines, hreturns]
  simp only [List.map_append, List.map_cons, List.filterMap_append, List.length_append,
    List.filterMap_cons, hnone, hh, List.length_cons]
  omega

theorem length_all_withReturns_lt {cs line : Text} (hcs : '\\' ∉ cs)
    (hline : line ∈ (lines cs).dropLast) (hbare : BareMacro line) :
    (all (withReturns cs)).length < (all cs).length := by
  have hmacros := length_macros_withReturns_lt hline hbare
  simp only [all, functions_withReturns hcs, pipelines_withReturns, types_withReturns hcs,
    aliases_withReturns, constants_withReturns, List.length_append, List.length_map]
  omega

end Site

namespace Annotations

theorem ofLine_append_return (line : Text) :
    LineNote.ofLine (line ++ ['\r']) = LineNote.ofLine line := by
  simp only [LineNote.ofLine, trim_append_return]

theorem read_map_return (ls : List Text) : read (ls.map (· ++ ['\r'])) = read ls := by
  induction ls with
  | nil => rfl
  | cons l ls ih => simp only [List.map_cons, read, ofLine_append_return, ih]

theorem above_withReturns (before : Text) : above (withReturns before) = above before := by
  obtain ⟨init, last, hlines, hreturns⟩ := exists_lines_withReturns before
  simp only [above, hlines, hreturns, List.reverse_append, List.reverse_singleton,
    List.singleton_append, ← List.map_reverse, read_map_return]

end Annotations

namespace Symbol

/-- The symbol without its place in bytes. -/
def unplaced (s : Symbol) : Symbol :=
  { s with start := 0 }

theorem returnedVersion_eq_self_iff {v : String} : returnedVersion v = v ↔ '\n' ∉ v.toList := by
  rw [← withReturns_eq_self_iff, ← String.toList_inj, returnedVersion, String.toList_ofList]

def returned (s : Symbol) : Symbol :=
  { s with form := s.form.returned }

theorem returned_eq_self_iff {s : Symbol} :
    s.returned = s ↔ ∀ v ∈ s.version, '\n' ∉ v.toList := by
  have hversion : ∀ version : Option String,
      version.map returnedVersion = version ↔ ∀ v ∈ version, '\n' ∉ v.toList := by
    intro version
    cases version with
    | none => simp
    | some v => simp [returnedVersion_eq_self_iff]
  obtain ⟨name, form, file, start, position, labels, doc⟩ := s
  cases form with
  | function version => simpa [returned, SymbolForm.returned, Symbol.version] using hversion version
  | method owner version isStatic =>
      simpa [returned, SymbolForm.returned, Symbol.version] using hversion version
  | pipeline | classType _ | typeAlias _ | macroText _ | constant _ =>
      simp [returned, SymbolForm.returned, Symbol.version]

end Symbol

def Declarations.unplaced (d : Declarations) : Declarations :=
  d.map Symbol.unplaced

namespace Site

theorem symbol_withReturns (file : FileId) {cs : Text} {site : Site} (hsite : site ∈ all cs) :
    ((site.returned cs).symbol file (withReturns cs)).unplaced =
      (site.symbol file cs).unplaced.returned := by
  obtain ⟨lead, behind, hname, hstart⟩ := named_of_mem_all hsite
  have hposition : (LineMap.ofText (withReturns cs)).position (moved cs site.start) =
      (LineMap.ofText cs).position site.start := by
    rw [← hstart, hname.split, moved_width]
    exact LineMap.position_withReturns lead (site.name ++ behind)
  have habove : Annotations.above (takeBytes (moved cs site.header) (withReturns cs)) =
      Annotations.above (takeBytes site.header cs) := by
    rw [takeBytes_moved, Annotations.above_withReturns]
  simp only [symbol, returned, hposition, habove]
  rfl

end Site

theorem unplaced_parse (file : FileId) (cs : Text) :
    (parse file cs).unplaced =
      Declarations.ofSymbols ((Site.all cs).map fun site => (site.symbol file cs).unplaced) := by
  have hmap := Declarations.ofSymbols_map (f := Symbol.unplaced) (fun _ => rfl) (fun _ => rfl)
    ((Site.all cs).map (Site.symbol file cs))
  rw [List.map_map] at hmap
  exact hmap.symm

theorem unplaced_parse_withReturns (file : FileId) {cs : Text} (hcs : '\\' ∉ cs)
    (h : ∀ line ∈ (lines cs).dropLast, ¬ BareMacro line) :
    (parse file (withReturns cs)).unplaced = (parse file cs).unplaced.map Symbol.returned := by
  rw [unplaced_parse, unplaced_parse, Site.all_withReturns hcs h,
    ← Declarations.ofSymbols_map (f := Symbol.returned) (fun _ => rfl) (fun _ => rfl),
    List.map_map, List.map_map]
  congr 1
  apply List.map_congr_left
  intro site hsite
  exact Site.symbol_withReturns file hsite

theorem length_all_unplaced_parse (file : FileId) (cs : Text) :
    (parse file cs).unplaced.all.length = (Site.all cs).length := by
  rw [unplaced_parse, Declarations.length_all_ofSymbols, List.length_map]

/-- Carriage returns change nothing of what is declared but places in bytes exactly when no macro
ends its line with its name, the last line apart, and no version runs over a line. -/
theorem unplaced_parse_withReturns_iff (file : FileId) (cs : Text) (hcs : '\\' ∉ cs) :
    (parse file (withReturns cs)).unplaced = (parse file cs).unplaced ↔
      (∀ line ∈ (lines cs).dropLast, ¬ BareMacro line) ∧
        ∀ s ∈ (parse file cs).all, ∀ v ∈ s.version, '\n' ∉ v.toList := by
  constructor
  · intro h
    have hbare : ∀ line ∈ (lines cs).dropLast, ¬ BareMacro line := by
      intro line hline hbare
      have hlt := Site.length_all_withReturns_lt hcs hline hbare
      have hlength := congrArg (fun d => d.all.length) h
      simp only [length_all_unplaced_parse] at hlength
      omega
    refine ⟨hbare, ?_⟩
    rw [unplaced_parse_withReturns file hcs hbare, Declarations.map_eq_self_iff] at h
    intro s hs
    have hfixed := h s.unplaced (Declarations.mem_all_map.2 ⟨s, hs, rfl⟩)
    have hversion := Symbol.returned_eq_self_iff.1 hfixed
    exact hversion
  · intro h
    rw [unplaced_parse_withReturns file hcs h.1, Declarations.map_eq_self_iff]
    intro s hs
    obtain ⟨t, ht, rfl⟩ := Declarations.mem_all_map.1 hs
    exact Symbol.returned_eq_self_iff.2 (h.2 t ht)

def flagLine : Text := "macro FLAG\n".toList

theorem unplaced_parse_differs_flagLine :
    '\\' ∉ flagLine ∧ BareMacro "macro FLAG".toList ∧
      (parse ⟨0⟩ (withReturns flagLine)).unplaced ≠ (parse ⟨0⟩ flagLine).unplaced := by
  have hlaw := unplaced_parse_withReturns_iff ⟨0⟩ flagLine (by decide)
  have hbare : BareMacro "macro FLAG".toList :=
    ⟨[], [' '], "FLAG".toList, rfl, by simp, List.forall_mem_singleton.2 rfl, by simp, by decide⟩
  exact ⟨by decide, hbare, fun h => (hlaw.1 h).1 _ (by decide) hbare⟩

end ProcedureIndex
