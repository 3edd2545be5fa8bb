import ProcedureIndex.Completion.Generator
import ProcedureIndex.Proofs.Document.Recognition
import ProcedureIndex.Proofs.Text.Stops

/-!
The variables that a text declares. A declaration is the word `let` or `const`, blanks and
a whole name; a text is read from left to right, and behind a declaration reading goes on
behind its name, so that `let let x` declares `let` and not `x`.
-/

namespace ProcedureIndex

open Text

/-- A text that starts, behind the character `prev`, with the declaration of a name. -/
structure DeclaresAt (prev : Option Char) (cs name rest : Text) : Prop where
  start : inWord prev = false
  form : ∃ keyword gap, keyword ∈ ["let".toList, "const".toList] ∧ gap ≠ [] ∧
    (∀ c ∈ gap, isBlank c = true) ∧ cs = keyword ++ (gap ++ (name ++ rest))
  whole : IsName name
  edge : rest.head?.any isNameContinue = false

/-- The names that a text declares, read from left to right behind the character `prev`. -/
inductive Declares : Option Char → Text → List Text → Prop
  | nothing {prev : Option Char} : Declares prev [] []
  | pass {prev : Option Char} {c : Char} {cs : Text} {names : List Text}
      (hnone : ∀ name rest, ¬ DeclaresAt prev (c :: cs) name rest)
      (hrest : Declares (some c) cs names) : Declares prev (c :: cs) names
  | declare {prev : Option Char} {cs name rest : Text} {names : List Text}
      (hname : DeclaresAt prev cs name rest)
      (hrest : Declares name.getLast? rest names) : Declares prev cs (name :: names)

namespace Text

theorem named?_eq_some_iff {keyword cs name rest : Text} :
    (∃ lead, named? keyword cs = some ((lead, name), rest)) ↔
      IsName name ∧ rest.head?.any isNameContinue = false ∧
        ∃ gap, gap ≠ [] ∧ (∀ c ∈ gap, isBlank c = true) ∧
          cs = keyword ++ (gap ++ (name ++ rest)) := by
  constructor
  · rintro ⟨lead, h⟩
    simp only [named?, bind, Option.bind_eq_some_iff] at h
    obtain ⟨r, hk, ⟨gap, r'⟩, hb, ⟨n, r''⟩, hn, he⟩ := h
    cases he
    obtain ⟨rfl, hgap⟩ := some?_eq_some hb
    obtain ⟨rfl, hname, hedge⟩ := name?_eq_some hn
    refine ⟨hname, hedge, gap, ?_, all_of_some? hb, after?_eq_some_iff.1 hk⟩
    rintro rfl
    cases hgap
  · rintro ⟨hname, hedge, gap, hne, hgap, rfl⟩
    have hblanks : blanks? (gap ++ (name ++ rest)) = some (gap, name ++ rest) :=
      some?_append_of_pos hgap hne (hname.isBlank_head rest)
    exact ⟨keyword ++ gap, by simp [named?, after?_append, hblanks, name?_append hname hedge]⟩

end Text

namespace Generator

theorem variablePattern_eq_some_iff {prev : Option Char} {cs name rest : Text} :
    variablePattern prev cs = some (name, rest) ↔ DeclaresAt prev cs name rest := by
  have hpattern : variablePattern prev cs = some (name, rest) ↔ inWord prev = false ∧
      ∃ lead, (named? "let".toList cs).or (named? "const".toList cs) =
        some ((lead, name), rest) := by
    rw [variablePattern]
    split
    · next hprev => simp [hprev]
    · next hprev => simp [hprev]
  -- A text cannot go on with both words, so the order in which they are tried does not matter.
  have hconst : ∀ cs, named? "let".toList ("const".toList ++ cs) = none := fun _ => rfl
  rw [hpattern]
  constructor
  · rintro ⟨hprev, lead, h⟩
    rcases Option.or_eq_some_iff.1 h with hlet | ⟨-, hconst⟩
    · obtain ⟨hname, hedge, gap, hgap⟩ := named?_eq_some_iff.1 ⟨lead, hlet⟩
      exact ⟨hprev, ⟨_, gap, by simp, hgap⟩, hname, hedge⟩
    · obtain ⟨hname, hedge, gap, hgap⟩ := named?_eq_some_iff.1 ⟨lead, hconst⟩
      exact ⟨hprev, ⟨_, gap, by simp, hgap⟩, hname, hedge⟩
  · rintro ⟨hprev, ⟨keyword, gap, hkeyword, hgap⟩, hname, hedge⟩
    obtain ⟨lead, hlead⟩ := named?_eq_some_iff.2 ⟨hname, hedge, gap, hgap⟩
    refine ⟨hprev, lead, ?_⟩
    rcases List.mem_pair.1 hkeyword with rfl | rfl
    · rw [hlead, Option.some_or]
    · rw [hlead, hgap.2.2, hconst, Option.none_or]

end Generator

namespace DeclaresAt

variable {prev : Option Char} {cs name rest : Text}

/-- What a declaration takes of the text ends with the name. -/
theorem exists_taken (h : DeclaresAt prev cs name rest) :
    ∃ c taken, cs = c :: (taken ++ rest) ∧ taken.getLast?.or (some c) = name.getLast? := by
  obtain ⟨keyword, gap, -, -, -, hsplit⟩ := h.form
  obtain ⟨b, hb⟩ := Option.ne_none_iff_exists'.1 (List.getLast?_eq_none_iff.not.2 h.whole.ne_nil)
  cases hlead : keyword ++ (gap ++ name) with
  | nil =>
      rw [(List.append_eq_nil_iff.1 (List.append_eq_nil_iff.1 hlead).2).2] at hb
      cases hb
  | cons c taken =>
      refine ⟨c, taken, ?_, ?_⟩
      · rw [hsplit, ← List.cons_append, ← hlead]
        simp only [List.append_assoc]
      · have hlast : (c :: taken).getLast? = name.getLast? := by
          rw [← hlead, List.getLast?_append, List.getLast?_append, hb]
          rfl
        rw [← hlast, List.getLast?_cons]
        cases taken.getLast? <;> rfl

end DeclaresAt

namespace Declares

/-- A text can be read in one way at most: as the search reads it. -/
theorem eq_hits {prev : Option Char} {cs : Text} {names : List Text} (h : Declares prev cs names)
    (offset : Nat) : names = (hitsFrom Generator.variablePattern prev offset 0 cs).map Hit.value := by
  have hnothing : ∀ {prev : Option Char} {cs : Text},
      (∀ name rest, ¬ DeclaresAt prev cs name rest) →
        Generator.variablePattern prev cs = none := by
    intro prev cs hnone
    rw [Option.eq_none_iff_forall_ne_some]
    intro r hr
    exact hnone r.1 r.2 (Generator.variablePattern_eq_some_iff.1 hr)
  induction h generalizing offset with
  | nothing =>
      rw [hitsFrom_nil_of_none, List.map_nil]
      apply hnothing
      intro name rest hname
      obtain ⟨c, taken, hcs, -⟩ := hname.exists_taken
      cases hcs
  | pass hnone _ ih =>
      rw [hitsFrom_cons_of_none (hnothing hnone)]
      exact ih _
  | declare hname _ ih =>
      have hp := Generator.variablePattern_eq_some_iff.2 hname
      obtain ⟨c, taken, rfl, hlast⟩ := hname.exists_taken
      rw [hitsFrom_cons_of_some hp, List.length_append, Nat.add_sub_cancel, hitsFrom_covered, hlast,
        List.map_cons]
      exact congrArg _ (ih _)

theorem exists_names (prev : Option Char) (cs : Text) : ∃ names, Declares prev cs names := by
  induction hn : cs.length using Nat.strongRecOn generalizing prev cs with
  | ind n ih =>
      cases cs with
      | nil => exact ⟨[], .nothing⟩
      | cons c cs =>
          by_cases hdeclares : ∃ name rest, DeclaresAt prev (c :: cs) name rest
          · obtain ⟨name, rest, hname⟩ := hdeclares
            obtain ⟨d, taken, hcs, -⟩ := hname.exists_taken
            have hshorter : rest.length < n := by
              rw [← hn, hcs, List.length_cons, List.length_append]
              omega
            obtain ⟨names, hnames⟩ := ih _ hshorter name.getLast? rest rfl
            exact ⟨name :: names, .declare hname hnames⟩
          · obtain ⟨names, hnames⟩ := ih cs.length (by rw [← hn]; exact Nat.lt_succ_self _)
              (some c) cs rfl
            exact ⟨names, .pass (fun name rest hname => hdeclares ⟨name, rest, hname⟩) hnames⟩

end Declares

/-- The names that the generator finds in a text are those that the text declares. -/
theorem Generator.exists_variablesIn (cs : Text) :
    ∃ names, Declares none cs names ∧
      ∀ v, v ∈ variablesIn cs ↔ v ∈ names.map String.ofList := by
  obtain ⟨names, hnames⟩ := Declares.exists_names none cs
  refine ⟨names, hnames, ?_⟩
  intro v
  rw [hnames.eq_hits 0, variablesIn, List.mem_eraseDups, List.mem_reverse, List.map_map]
  rfl

example : Generator.variablesIn "let let x\nconst y = outlet z".toList = ["y", "let"] := by
  decide +kernel

end ProcedureIndex
