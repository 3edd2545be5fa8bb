import ProcedureIndex.Proofs.Text.Positions

/-!
Runs of identifier characters. Around every column between two characters of a line lies
one run that cannot be made longer; it may be empty. Reading back and reading on from the
column finds this run, from whichever of its columns one starts, and the run is an
identifier if it starts like one.
-/

namespace ProcedureIndex
namespace Text

theorem exists_split_trailingRun (cs : Text) :
    ∃ left, cs = left ++ trailingRun cs ∧ left.getLast?.any isIdentContinue = false := by
  refine ⟨(cs.reverse.dropWhile isIdentContinue).reverse, ?_, ?_⟩
  · rw [trailingRun, ← List.reverse_append, List.takeWhile_append_dropWhile, List.reverse_reverse]
  · rw [List.getLast?_reverse]
    exact head?_dropWhile_any _

theorem identAt_min (line : Text) (col : Nat) :
    identAt line (min col (width line)) = identAt line col := by
  simp only [identAt, Nat.min_assoc, Nat.min_self]

/-- A column of a line lies in a run of identifier characters or at one of its ends, and neither
neighbour would make the run longer. Columns past the end of the line stand for the end. -/
structure RunAround (line : Text) (col : Nat) (left run right : Text) : Prop where
  split : line = left ++ (run ++ right)
  all : ∀ c ∈ run, isIdentContinue c = true
  leftEdge : left.getLast?.any isIdentContinue = false
  rightEdge : right.head?.any isIdentContinue = false
  begun : width left ≤ min col (width line)
  notPassed : min col (width line) ≤ width (left ++ run)

namespace RunAround

variable {line left run right : Text} {col : Nat}

theorem exists_cut (h : RunAround line col left run right)
    (hcol : isBoundary (min col (width line)) line = true) :
    ∃ a b, run = a ++ b ∧ min col (width line) = width left + width a := by
  obtain ⟨p, q, hline, hwidth⟩ := exists_split_of_isBoundary hcol
  have hsplit : left ++ (run ++ right) = p ++ q := h.split.symm.trans hline
  have hbegun := h.begun
  have hpassed := h.notPassed
  rw [← hwidth, width_append] at hpassed
  rw [← hwidth] at hbegun ⊢
  obtain ⟨a, rfl, hrest⟩ := exists_between_cuts hsplit hbegun
  rw [width_append] at hpassed
  obtain ⟨b, hrun, -⟩ := exists_between_cuts hrest.symm (by omega)
  exact ⟨a, b, hrun, width_append left a⟩

/-- From every column between two characters the run around it is found, if it starts like an
identifier. -/
theorem identAt_eq (h : RunAround line col left run right)
    (hcol : isBoundary (min col (width line)) line = true) :
    identAt line col = if run.head?.any isIdentStart then some (width left, run) else none := by
  obtain ⟨a, b, rfl, hwidth⟩ := h.exists_cut hcol
  rw [← identAt_min, hwidth, h.split, List.append_assoc]
  exact identAt_run h.leftEdge h.all h.rightEdge

/-- A run lies around each of its columns. -/
theorem of_column (h : RunAround line col left run right) {c : Nat} (hbegun : width left ≤ c)
    (hpassed : c ≤ width left + width run) : RunAround line c left run right := by
  have hline : width line = width left + (width run + width right) := by
    rw [h.split, width_append, width_append]
  refine ⟨h.split, h.all, h.leftEdge, h.rightEdge, ?_, ?_⟩
  · omega
  · rw [width_append]
    omega

end RunAround

/-- Around every column between two characters there is a run. -/
theorem exists_runAround_of_isBoundary {line : Text} {col : Nat}
    (hcol : isBoundary (min col (width line)) line = true) :
    ∃ left run right, RunAround line col left run right := by
  obtain ⟨a, b, hline, hwidth⟩ := exists_split_of_isBoundary hcol
  obtain ⟨left, hleft, hedge⟩ := exists_split_trailingRun a
  have hsplit : width a = width left + width (trailingRun a) := by
    rw [← width_append, ← hleft]
  refine ⟨left, trailingRun a ++ b.takeWhile isIdentContinue, b.dropWhile isIdentContinue,
    ?_, ?_, hedge, head?_dropWhile_any b, ?_, ?_⟩
  · rw [List.append_assoc, List.takeWhile_append_dropWhile, ← List.append_assoc, ← hleft, hline]
  · intro c hc
    cases List.mem_append.1 hc with
    | inl hc => exact List.mem_takeWhile_imp (List.mem_reverse.1 hc)
    | inr hc => exact List.mem_takeWhile_imp hc
  · omega
  · rw [width_append, width_append]
    omega

/-- What is found at a column is the run around it. -/
theorem exists_runAround {line word : Text} {col start : Nat}
    (h : identAt line col = some (start, word)) :
    ∃ left right, RunAround line col left word right ∧ width left = start ∧
      word.head?.any isIdentStart = true := by
  have hcol : isBoundary (min col (width line)) line = true := by
    simp only [identAt] at h
    split at h
    · assumption
    · cases h
  obtain ⟨left, run, right, hrun⟩ := exists_runAround_of_isBoundary hcol
  rw [hrun.identAt_eq hcol] at h
  split at h
  · next hstart =>
      cases h
      exact ⟨left, right, hrun, rfl, hstart⟩
  · cases h

theorem identAt_eq_none_iff {line : Text} {col : Nat} :
    identAt line col = none ↔ isBoundary (min col (width line)) line = false ∨
      ∃ left run right, RunAround line col left run right ∧
        run.head?.any isIdentStart = false := by
  cases hcol : isBoundary (min col (width line)) line with
  | false => simp [identAt, hcol]
  | true =>
      constructor
      · intro h
        obtain ⟨left, run, right, hrun⟩ := exists_runAround_of_isBoundary hcol
        rw [hrun.identAt_eq hcol] at h
        exact .inr ⟨left, run, right, hrun, by simpa using h⟩
      · intro h
        cases h with
        | inl hinside => cases hinside
        | inr haround =>
            obtain ⟨left, run, right, hrun, hstart⟩ := haround
            rw [hrun.identAt_eq hcol, hstart]
            rfl

/-- The identifier at a column is the run around it, cut out of the line, and starts like an
identifier. It is found from every column between two characters from its start to its end, and it
is what the line ends with when it is cut behind it. Nothing is found inside a character and where
the run around the column is empty or does not start like an identifier, and nowhere else. -/
theorem identAt_same_in_run (line : Text) (col : Nat) :
    (∀ start word, identAt line col = some (start, word) →
      (∃ left right, RunAround line col left word right ∧ width left = start) ∧
      word.head?.any isIdentStart = true ∧
      takeBytes (width word) (dropBytes start line) = word ∧
      (∀ c, isBoundary c line = true → start ≤ c → c ≤ start + width word →
        identAt line c = some (start, word)) ∧
      trailingIdent (takeBytes (start + width word) line) = word) ∧
    (identAt line col = none ↔
      isBoundary (min col (width line)) line = false ∨
      ∃ left run right, RunAround line col left run right ∧
        run.head?.any isIdentStart = false) := by
  refine ⟨?_, identAt_eq_none_iff⟩
  intro start word h
  obtain ⟨left, right, hrun, rfl, hstart⟩ := exists_runAround h
  refine ⟨⟨left, right, hrun, rfl⟩, hstart, ?_, ?_, ?_⟩
  · rw [hrun.split, dropBytes_width_append, takeBytes_width_append]
  · intro c hc hbegun hpassed
    have hinside : min c (width line) = c := by
      rw [hrun.split, width_append, width_append]
      omega
    have hfound := (hrun.of_column hbegun hpassed).identAt_eq (by rwa [hinside])
    rwa [if_pos hstart] at hfound
  · have hfront : takeBytes (width left + width word) line = left ++ word := by
      rw [hrun.split, ← List.append_assoc, ← width_append, takeBytes_width_append]
    rw [hfront, trailingIdent, trailingRun_append hrun.leftEdge hrun.all, if_pos hstart]

theorem identAt_same_in_run_wideLetters :
    let line := "x = größe2 - 3d".toList
    let word := "größe2".toList
    identAt line 8 = some (4, word) ∧
      (∃ left right, RunAround line 8 left word right ∧ width left = 4) ∧
      identAt line 4 = some (4, word) ∧ identAt line 12 = some (4, word) ∧
      trailingIdent (takeBytes 12 line) = word ∧
      identAt line 7 = none ∧ identAt line 99 = none ∧
      ∃ left run right, RunAround line 99 left run right ∧
        run.head?.any isIdentStart = false := by
  intro line word
  have hword : identAt line 8 = some (4, word) := by decide +kernel
  obtain ⟨haround, -, -, hsame, hbehind⟩ := (identAt_same_in_run line 8).1 4 word hword
  have hinside : identAt line 7 = none :=
    (identAt_same_in_run line 7).2.2 (.inl (by decide +kernel))
  have hend : identAt line 99 = none := by decide +kernel
  have hdigit := ((identAt_same_in_run line 99).2.1 hend).resolve_left (by decide +kernel)
  exact ⟨hword, haround, hsame 4 (by decide +kernel) (by decide) (by decide +kernel),
    hsame 12 (by decide +kernel) (by decide) (by decide +kernel), hbehind, hinside, hend, hdigit⟩

end Text
end ProcedureIndex
