import Mathlib.Data.List.DropRight
import ProcedureIndex.Document.Annotations
import ProcedureIndex.Proofs.Text.Positions

/-!
What the lines above a declaration say. Each line is code, padding, a label or documentation,
told by how it reads without the blanks around it. Reading stops at the lowest line of code,
padding makes no difference anywhere, and of the lines below the code the labels count in their
order and the lowest documentation.
-/

namespace ProcedureIndex
namespace Annotations

open Text

/-- The line reads `@label("value")`, perhaps with blanks around the quoted value. -/
def Labels (value line : Text) : Prop :=
  ∃ gap gap', (∀ c ∈ gap, isBlank c = true) ∧ (∀ c ∈ gap', isBlank c = true) ∧ '"' ∉ value ∧
    line = "@label(".toList ++ (gap ++ '"' :: (value ++ '"' :: (gap' ++ [')'])))

/-- Code: not blank, no comment of either kind and no label. -/
def IsCode (line : Text) : Prop :=
  trim line ≠ [] ∧ ¬ "//".toList <+: trim line ∧ ∀ value, ¬ Labels value (trim line)

def IsPadding (line : Text) : Prop :=
  trim line = [] ∨ "//".toList <+: trim line ∧ ¬ "///".toList <+: trim line

instance (line : Text) : Decidable (IsPadding line) :=
  inferInstanceAs (Decidable (_ ∨ _))

def labelOn (line : Text) : Option Text :=
  label? (trim line)

def docOn (line : Text) : Option Text :=
  (after? "///".toList (trim line)).map trim

theorem dropWhile_blanks {gap : Text} (hgap : ∀ c ∈ gap, isBlank c = true) {c : Char}
    (hc : isBlank c = false) (cs : Text) : (gap ++ c :: cs).dropWhile isBlank = c :: cs := by
  rw [List.dropWhile_append_of_pos hgap, List.dropWhile_cons_of_neg (by simp [hc])]

theorem eq_takeWhile_append {p : Char → Bool} {cs rest : Text} (h : cs.dropWhile p = rest) :
    cs = cs.takeWhile p ++ rest := by
  rw [← h, List.takeWhile_append_dropWhile]

theorem label?_eq_some_iff {line value : Text} :
    label? line = some value ↔ Labels value line := by
  constructor
  · intro h
    simp only [label?, bind, Option.bind_eq_some_iff, after?_eq_some_iff] at h
    obtain ⟨opened, rfl, quoted, hquoted, behind, hbehind, rest, hrest, h⟩ := h
    split at h
    · next hend =>
        cases h
        refine ⟨opened.takeWhile isBlank, behind.takeWhile isBlank,
          fun c hc => List.mem_takeWhile_imp hc, fun c hc => List.mem_takeWhile_imp hc, ?_, ?_⟩
        · intro hc
          simpa using List.mem_takeWhile_imp hc
        · rw [List.isEmpty_iff.1 hend] at hrest
          have hlast : behind = behind.takeWhile isBlank ++ [')'] := eq_takeWhile_append hrest
          have hvalue : quoted = quoted.takeWhile (· != '"') ++ '"' :: behind :=
            eq_takeWhile_append hbehind
          have hopened : opened = opened.takeWhile isBlank ++ '"' :: quoted :=
            eq_takeWhile_append hquoted
          rw [← hlast, ← hvalue, ← hopened]
    · cases h
  · intro h
    obtain ⟨gap, gap', hgap, hgap', hvalue, rfl⟩ := h
    have hall : ∀ c ∈ value, (c != '"') = true := by
      intro c hc
      rw [bne_iff_ne]
      intro he
      exact hvalue (he ▸ hc)
    have hafter : after? "@label(".toList
        ("@label(".toList ++ (gap ++ '"' :: (value ++ '"' :: (gap' ++ [')'])))) =
        some (gap ++ '"' :: (value ++ '"' :: (gap' ++ [')']))) := after?_eq_some_iff.2 rfl
    simp only [label?, hafter, bind, Option.bind_some, dropWhile_blanks hgap (c := '"') (by decide)]
    simp [after?, List.takeWhile_append_of_pos hall, List.dropWhile_append_of_pos hall,
      dropWhile_blanks hgap' (c := ')') (by decide)]

theorem prefix_of_after? {k cs rest : Text} (h : after? k cs = some rest) : k <+: cs :=
  ⟨rest, (after?_eq_some_iff.1 h).symm⟩

theorem not_prefix_of_after? {k cs : Text} (h : after? k cs = none) : ¬ k <+: cs := by
  intro hk
  obtain ⟨rest, hrest⟩ := hk
  rw [after?_eq_some_iff.2 hrest.symm] at h
  cases h

theorem Labels.not_comment {value line : Text} (h : Labels value line) :
    ¬ "//".toList <+: line := by
  obtain ⟨gap, gap', -, -, -, rfl⟩ := h
  intro hslash
  have hhead := hslash.head (by decide)
  simp at hhead

/-- What the reader takes a line for is what the line is. -/
theorem ofLine_spec (line : Text) :
    match LineNote.ofLine line with
    | .blank | .comment =>
        IsPadding line ∧ ¬ IsCode line ∧ labelOn line = none ∧ docOn line = none
    | .label value =>
        ¬ IsPadding line ∧ ¬ IsCode line ∧ labelOn line = some value ∧ docOn line = none
    | .doc text =>
        ¬ IsPadding line ∧ ¬ IsCode line ∧ labelOn line = none ∧ docOn line = some text
    | .other => ¬ IsPadding line ∧ IsCode line := by
  by_cases hempty : trim line = []
  · simp [LineNote.ofLine, hempty, IsPadding, IsCode, labelOn, docOn, label?, after?]
  · have hshort : "///".toList <+: trim line → "//".toList <+: trim line :=
      List.IsPrefix.trans (by decide)
    simp only [LineNote.ofLine, labelOn, docOn, List.isEmpty_iff, if_neg hempty]
    cases hlabel : label? (trim line) with
    | some value =>
        have hlabels := label?_eq_some_iff.1 hlabel
        have hdoc : after? "///".toList (trim line) = none := by
          cases hdoc : after? "///".toList (trim line) with
          | none => rfl
          | some rest => exact absurd (hshort (prefix_of_after? hdoc)) hlabels.not_comment
        rw [hdoc]
        exact ⟨fun h => h.elim hempty fun h => hlabels.not_comment h.1,
          fun hcode => hcode.2.2 value hlabels, rfl, rfl⟩
    | none =>
        have hnone : ∀ value, ¬ Labels value (trim line) := by
          intro value hvalue
          rw [label?_eq_some_iff.2 hvalue] at hlabel
          cases hlabel
        cases hdoc : after? "///".toList (trim line) with
        | some rest =>
            have hlong := prefix_of_after? hdoc
            exact ⟨fun h => h.elim hempty fun h => h.2 hlong,
              fun hcode => hcode.2.1 (hshort hlong), rfl, rfl⟩
        | none =>
            have hlong := not_prefix_of_after? hdoc
            cases hcomment : after? "//".toList (trim line) with
            | some rest =>
                have hslash := prefix_of_after? hcomment
                exact ⟨.inr ⟨hslash, hlong⟩, fun hcode => hcode.2.1 hslash, rfl, rfl⟩
            | none =>
                have hslash := not_prefix_of_after? hcomment
                exact ⟨fun h => h.elim hempty fun h => hslash h.1, hempty, hslash, hnone⟩

theorem ofLine_eq_other_iff {line : Text} : LineNote.ofLine line = .other ↔ IsCode line := by
  have hspec := ofLine_spec line
  cases hnote : LineNote.ofLine line <;> simp_all

instance (line : Text) : Decidable (IsCode line) :=
  decidable_of_iff _ ofLine_eq_other_iff

/-- Of some lines, nearest first, those nearer than any code are read. -/
theorem read_eq (ls : List Text) :
    read ls = ((ls.takeWhile (¬ IsCode ·)).filterMap labelOn,
      ((ls.takeWhile (¬ IsCode ·)).filterMap docOn).head?) := by
  induction ls with
  | nil => rfl
  | cons line above ih =>
      have hspec := ofLine_spec line
      rw [read]
      cases hnote : LineNote.ofLine line with
      | blank | comment | label | doc =>
          rw [hnote] at hspec
          obtain ⟨-, hcode, hlabel, hdoc⟩ := hspec
          simp [ih, hcode, hlabel, hdoc]
      | other =>
          rw [hnote] at hspec
          simp [hspec.2]

theorem read_filter_isPadding (ls : List Text) :
    read (ls.filter (¬ IsPadding ·)) = read ls := by
  induction ls with
  | nil => rfl
  | cons line above ih =>
      by_cases hpad : IsPadding line
      · have hspec := ofLine_spec line
        rw [List.filter_cons_of_neg (by simpa using hpad), ih, read]
        split at hspec <;> simp_all
      · rw [List.filter_cons_of_pos (by simpa using hpad), read, ih, read]

/-- Nothing above a line of code is read. -/
theorem read_append_code {c : Text} (hc : IsCode c) (below above : List Text) :
    read (below ++ c :: above) = read below := by
  have hstop : (below ++ c :: above).takeWhile (¬ IsCode ·) = below.takeWhile (¬ IsCode ·) := by
    rw [List.takeWhile_append]
    split
    · next hall =>
        rw [List.takeWhile_cons_of_neg (by simpa using hc), List.append_nil,
          (List.takeWhile_prefix _).eq_of_length hall]
    · rfl
  rw [read_eq, read_eq, hstop]

/-- The lines above the last one, padding left out. -/
def notes (before : Text) : List Text :=
  (lines before).dropLast.filter (¬ IsPadding ·)

/-- Of the lines above the last one, those below the lowest line of code. -/
def belowCode (before : Text) : List Text :=
  (lines before).dropLast.rtakeWhile (¬ IsCode ·)

theorem above_eq_read (before : Text) :
    above before =
      if trim (lastLine before) = [] then
        (((read (lines before).dropLast.reverse).1.reverse.map String.ofList).eraseDups,
          (read (lines before).dropLast.reverse).2.map String.ofList)
      else ([], none) := by
  obtain ⟨init, last, hlines, -⟩ := exists_lines_append before
  simp [above, lastLine, hlines]

theorem above_eq_belowCode (before : Text) :
    above before =
      if trim (lastLine before) = [] then
        ((((belowCode before).filterMap labelOn).map String.ofList).eraseDups,
          ((belowCode before).filterMap docOn).getLast?.map String.ofList)
      else ([], none) := by
  simp only [above_eq_read, read_eq, belowCode, List.rtakeWhile, List.filterMap_reverse,
    List.getLast?_reverse]

theorem above_eq_of_notes {y y' : Text} (hlast : lastLine y' = lastLine y)
    (hnotes : notes y' = notes y) : above y' = above y := by
  have hread : read (lines y').dropLast.reverse = read (lines y).dropLast.reverse := by
    rw [← read_filter_isPadding, ← read_filter_isPadding (lines y).dropLast.reverse,
      List.filter_reverse, List.filter_reverse]
    exact congrArg (fun ls => read ls.reverse) hnotes
  rw [above_eq_read, above_eq_read, hlast, hread]

theorem above_append_code {c : Text} (hline : '\n' ∉ c) (hc : IsCode c) (x y : Text) :
    above (x ++ '\n' :: (c ++ '\n' :: y)) = above y := by
  obtain ⟨init, last, hlines, -⟩ := exists_lines_append y
  have hall : lines (x ++ '\n' :: (c ++ '\n' :: y)) = (lines x ++ c :: init) ++ [last] := by
    rw [lines_append_cons_newline, lines_append_newline hline, hlines, List.append_assoc,
      List.cons_append]
  have hread : read (lines x ++ c :: init).reverse = read init.reverse := by
    rw [List.reverse_append, List.reverse_cons, List.append_assoc, List.singleton_append,
      read_append_code hc]
  simp only [above_eq_read, lastLine, hall, hlines, List.dropLast_concat, List.getLast?_concat,
    hread]

/-- The annotations of a declaration end at code. Whatever stands above a line of code is not read;
blank lines and plain comments may come and go; and the lines below the lowest code give their
labels, in order and each once, and the documentation nearest the declaration. Only blanks may
stand before the declaration on its own line. -/
theorem annotations_end_at_code {c : Text} (hline : '\n' ∉ c) (hc : IsCode c) (x y : Text) :
    above (x ++ '\n' :: (c ++ '\n' :: y)) = above y ∧
    (∀ y', lastLine y' = lastLine y → notes y' = notes y → above y' = above y) ∧
    (above y =
      if trim (lastLine y) = [] then
        ((((belowCode y).filterMap labelOn).map String.ofList).eraseDups,
          ((belowCode y).filterMap docOn).getLast?.map String.ofList)
      else ([], none)) ∧
    ∀ line value, labelOn line = some value ↔ Labels value (trim line) :=
  ⟨above_append_code hline hc x y, fun _ => above_eq_of_notes, above_eq_belowCode y,
    fun _ _ => label?_eq_some_iff⟩

def annotated : Text :=
  "@label(\"b\")\n/// far\n@label( \"a\" )\n/// near\n@label(\"b\")\n  ".toList

def annotatedApart : Text :=
  ("// one\n@label(\"b\")\n/// far\n\n@label( \"a\" )\n/// near\n  // two\n" ++
    "@label(\"b\")\n  ").toList

theorem annotations_end_at_code_annotated :
    IsCode "@label(\"x\") fn f()".toList ∧
      above ("@label(\"lost\")".toList ++ '\n' ::
        ("@label(\"x\") fn f()".toList ++ '\n' :: annotated)) = (["b", "a"], some "near") ∧
      above annotatedApart = (["b", "a"], some "near") := by
  have hcode : IsCode "@label(\"x\") fn f()".toList := by decide +kernel
  obtain ⟨hstops, hsame, hread, -⟩ := annotations_end_at_code (by decide) hcode
    "@label(\"lost\")".toList annotated
  have habove : above annotated = (["b", "a"], some "near") := by
    rw [hread]
    decide +kernel
  exact ⟨hcode, hstops.trans habove,
    (hsame annotatedApart (by decide +kernel) (by decide +kernel)).trans habove⟩

end Annotations
end ProcedureIndex
