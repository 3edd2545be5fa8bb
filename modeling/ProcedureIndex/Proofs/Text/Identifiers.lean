import ProcedureIndex.Proofs.Text.Hits
import ProcedureIndex.Proofs.Text.IdentifierRuns

/-!
Whole identifiers and whole words. An occurrence of a word in a line is the identifier
at its place exactly when neither neighbour would make it longer. Word boundaries judge
by word characters instead; in ASCII the two classes are the same. What is found at a
column is the identifier around it, as long as it can be made. A pattern that reads one
word from its start misses no occurrence of the word.
-/

namespace ProcedureIndex
namespace Text

theorem trailingRun_eq_nil_iff {cs : Text} :
    trailingRun cs = [] ↔ cs.getLast?.any isIdentContinue = false := by
  rw [trailingRun, List.reverse_eq_nil_iff, List.getLast?_eq_head?_reverse]
  cases cs.reverse with
  | nil => simp
  | cons c cs => simp

theorem takeWhile_append_eq_left_iff {p : Char → Bool} {a b : Text} :
    (a ++ b).takeWhile p = a ↔ (∀ c ∈ a, p c = true) ∧ b.head?.any p = false := by
  constructor
  · intro h
    have ha : ∀ c ∈ a, p c = true := by
      intro c hc
      rw [← h] at hc
      exact List.mem_takeWhile_imp hc
    refine ⟨ha, ?_⟩
    rw [List.takeWhile_append_of_pos ha, List.append_right_eq_self] at h
    cases b with
    | nil => rfl
    | cons d ds =>
        cases hd : p d with
        | true => simp [hd] at h
        | false => simpa using hd
  · rintro ⟨ha, hb⟩
    exact takeWhile_append_of_head? ha hb

/-- A word is the identifier at its place if it is an identifier and cannot be made longer. -/
theorem identAt_eq_self_iff {left word right : Text} :
    identAt (left ++ (word ++ right)) (width left) = some (width left, word) ↔
      IsIdent word ∧ left.getLast?.any isIdentContinue = false ∧
        right.head?.any isIdentContinue = false := by
  constructor
  · intro h
    rw [identAt_cut] at h
    split at h
    · next hstart =>
        obtain ⟨hcol, hword⟩ := Prod.mk.inj (Option.some.inj h)
        have hrun : trailingRun left = [] := by
          obtain ⟨front, hfront⟩ := trailingRun_suffix left
          have hwidth := congrArg width hfront
          rw [width_append] at hwidth
          exact width_eq_zero (by omega)
        rw [hrun, List.nil_append] at hword
        obtain ⟨hall, hright⟩ := takeWhile_append_eq_left_iff.1 hword
        rw [hrun, List.nil_append, hword] at hstart
        exact ⟨⟨hstart, hall⟩, trailingRun_eq_nil_iff.1 hrun, hright⟩
    · cases h
  · rintro ⟨hword, hleft, hright⟩
    exact IsIdent.identAt_within (a := []) hleft hword hright

/-- A text ends in an identifier if the identifier cannot be made longer to the left. -/
theorem trailingIdent_eq_iff {cs word : Text} (hne : word ≠ []) :
    trailingIdent cs = word ↔ IsIdent word ∧
      ∃ front, cs = front ++ word ∧ front.getLast?.any isIdentContinue = false := by
  rw [trailingIdent]
  constructor
  · intro h
    split at h
    · next hstart =>
        subst h
        refine ⟨⟨hstart, ?_⟩, exists_split_trailingRun cs⟩
        intro c hc
        exact List.mem_takeWhile_imp (List.mem_reverse.1 hc)
    · exact absurd h.symm hne
  · rintro ⟨hword, front, rfl, hfront⟩
    rw [trailingRun_append hfront hword.all, if_pos hword.start]

/-- A column of a line lies in an identifier or at one of its ends, and the identifier cannot be
made longer. Columns past the end of the line stand for the end. -/
structure IdentAround (line : Text) (col : Nat) (left word right : Text) : Prop where
  split : line = left ++ (word ++ right)
  ident : IsIdent word
  leftEdge : left.getLast?.any isIdentContinue = false
  rightEdge : right.head?.any isIdentContinue = false
  begun : width left ≤ min col (width line)
  notPassed : min col (width line) ≤ width (left ++ word)

/-- What is found at a column is the identifier around it. -/
theorem exists_identAround {line word : Text} {col start : Nat}
    (h : identAt line col = some (start, word)) :
    ∃ left right, IdentAround line col left word right ∧ width left = start := by
  obtain ⟨left, right, hrun, hstart, hword⟩ := exists_runAround h
  exact ⟨left, right, ⟨hrun.split, ⟨hword, hrun.all⟩, hrun.leftEdge, hrun.rightEdge, hrun.begun,
    hrun.notPassed⟩, hstart⟩

theorem isBoundary_of_ascii {cs : Text} (hcs : ∀ c ∈ cs, c.toNat < 0x80) {n : Nat}
    (hn : n ≤ width cs) : isBoundary n cs = true := by
  rw [isBoundary, beq_iff_eq]
  induction cs generalizing n with
  | nil => exact (Nat.le_zero.1 hn).symm
  | cons c cs ih =>
      have hsize : c.utf8Size = 1 := by
        have h := of_ascii (P := fun c => c.utf8Size == 1) (by decide +kernel) (hcs c (by simp))
        exact eq_of_beq h
      rw [width_cons, hsize] at hn
      rw [takeBytes, hsize]
      split
      · rw [width_cons, hsize, ih (fun d hd => hcs d (by simp [hd])) (by omega)]
        omega
      · rw [width_nil]
        omega

/-- In ASCII the identifier around a column is what is found there. -/
theorem IdentAround.identAt_eq {line left word right : Text} {col : Nat}
    (h : IdentAround line col left word right) (hword : ∀ c ∈ word, c.toNat < 0x80) :
    identAt line col = some (width left, word) := by
  obtain ⟨hsplit, hident, hleft, hright, hbegun, hpassed⟩ := h
  rw [width_append] at hpassed
  have hinside : min col (width line) - width left ≤ width word := by omega
  obtain ⟨a, b, rfl, hcut⟩ := exists_split_of_isBoundary (isBoundary_of_ascii hword hinside)
  have hcol : min col (width line) = width left + width a := by omega
  rw [← identAt_min, hcol, hsplit, List.append_assoc]
  exact hident.identAt_within hleft hright

theorem any_head?_of_forall {p : Char → Bool} {cs : Text} (hne : cs ≠ [])
    (h : ∀ c ∈ cs, p c = true) : cs.head?.any p = true := by
  rw [List.head?_eq_some_head hne]
  exact h _ (List.head_mem hne)

theorem any_getLast?_of_forall {p : Char → Bool} {cs : Text} (hne : cs ≠ [])
    (h : ∀ c ∈ cs, p c = true) : cs.getLast?.any p = true := by
  rw [List.getLast?_eq_some_getLast hne]
  exact h _ (List.getLast_mem hne)

/-- Beyond ASCII neither class holds the other. -/
theorem isWordChar_eq_isIdentContinue {c : Char} (hc : c.toNat < 0x80) :
    isWordChar c = isIdentContinue c := by
  have h := of_ascii (P := fun c => isWordChar c == isIdentContinue c) (by decide +kernel) hc
  exact eq_of_beq h

theorem isNameContinue_eq_isIdentContinue {c : Char} (hc : c.toNat < 0x80) :
    isNameContinue c = isIdentContinue c := by
  have h := of_ascii (P := fun c => isNameContinue c == isIdentContinue c) (by decide +kernel) hc
  exact eq_of_beq h

theorem any_isWordChar_eq {o : Option Char} (ho : ∀ c ∈ o, c.toNat < 0x80) :
    o.any isWordChar = o.any isIdentContinue := by
  cases o with
  | none => rfl
  | some c => exact isWordChar_eq_isIdentContinue (ho c rfl)

theorem any_isNameContinue_eq {o : Option Char} (ho : ∀ c ∈ o, c.toNat < 0x80) :
    o.any isNameContinue = o.any isIdentContinue := by
  cases o with
  | none => rfl
  | some c => exact isNameContinue_eq_isIdentContinue (ho c rfl)

theorem subset_of_lineText {cs line : Text} {n : Nat}
    (h : (LineMap.ofText cs).lineText n = some line) : line ⊆ cs := by
  obtain ⟨whole, hwhole, rfl⟩ := Option.map_eq_some_iff.1 h
  exact List.Subset.trans (trimEndOf_isPrefix _ _).subset
    (subset_of_mem_lines (List.mem_of_getElem? hwhole))

/-- The line of a name in an ASCII text: at every column in the name and at its ends, the name is
what is found there. -/
theorem NameAt.exists_line_of_ascii {cs lead name behind : Text} (h : NameAt cs lead name behind)
    (hcs : ∀ c ∈ cs, c.toNat < 0x80) :
    ∃ init last right, lines lead = init ++ [last] ∧
      (LineMap.ofText cs).position (width lead) = ⟨init.length, width last⟩ ∧
      (LineMap.ofText cs).lineText init.length = some (last ++ (name ++ right)) ∧
      ∀ col, width last ≤ col → col ≤ width last + width name →
        identAt (last ++ (name ++ right)) col = some (width last, name) := by
  have hedge : behind.head?.any isIdentContinue = false := by
    rw [← any_isNameContinue_eq]
    · exact h.edge
    · intro c hc
      exact hcs c (by rw [h.split]; simp [List.mem_of_head? hc])
  obtain ⟨init, last, right, hlines, hpos, hline, hleft, hright⟩ := h.exists_lineText hedge
  refine ⟨init, last, right, hlines, hpos, hline, ?_⟩
  intro col hbegun hpassed
  have hcol : min col (width (last ++ (name ++ right))) = col := by
    simp only [width_append]
    omega
  have haround : IdentAround (last ++ (name ++ right)) col last name right :=
    ⟨rfl, h.whole.isIdent, hleft, hright, by rwa [hcol], by rwa [hcol, width_append]⟩
  exact haround.identAt_eq fun c hc => hcs c (by rw [h.split]; simp [hc])

/-- The pattern answers outside of words only, reads the word, and takes no other word. -/
structure ReadsWord {α : Type} (word : Text) (p : Pattern α) : Prop where
  ne_nil : word ≠ []
  all : ∀ c ∈ word, isWordChar c = true
  reads : ∀ {prev cs r}, p prev cs = some r → inWord prev = false ∧
    ∃ marks, cs = word ++ (marks ++ r.2) ∧ ∀ c ∈ marks, isWordChar c = false

theorem ReadsWord.separate {α : Type} {word : Text} {p : Pattern α} (h : ReadsWord word p) :
    Separate p := by
  intro prev pre suf r r' hpre hr hr'
  obtain ⟨-, marks, hcs, hmarks⟩ := h.reads hr
  obtain ⟨houtside, marks', hsuf, -⟩ := h.reads hr'
  rcases List.append_eq_append_iff.1 hcs with ⟨more, hword, -⟩ | ⟨more, hfront, hback⟩
  · -- The second answer would start inside the word of the first.
    have hmem : pre.getLast hpre ∈ word := by
      rw [hword]
      exact List.mem_append_left _ (List.getLast_mem hpre)
    rw [List.getLast?_eq_some_getLast hpre] at houtside
    exact absurd (h.all _ hmem) (by simpa [inWord] using houtside)
  · rcases List.append_eq_append_iff.1 hback with ⟨extra, -, hrest⟩ | ⟨extra, hmark, hrest⟩
    · rw [hrest, List.length_append]
      omega
    · -- The second answer would start at one of the marks, and they are no word.
      cases extra with
      | nil => rw [hrest, List.nil_append]
      | cons c extra =>
          obtain ⟨d, ds, rfl⟩ := List.exists_cons_of_ne_nil h.ne_nil
          obtain ⟨rfl, -⟩ := List.cons.inj (hrest.symm.trans hsuf)
          have hword := h.all c (by simp)
          rw [hmarks c (by simp [hmark])] at hword
          cases hword

end Text
end ProcedureIndex
