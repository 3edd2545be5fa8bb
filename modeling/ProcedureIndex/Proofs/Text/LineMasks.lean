import Mathlib.Data.Nat.Find
import Mathlib.Order.Bounds.Basic
import ProcedureIndex.Proofs.Text.Blanking

/-!
The mask of a line against the scan for strings. Up to the first comment the mask reads a
line as the scan does: its stage is the state of the scan together with the start of the
string that is open, and that start lies behind no place still to be judged. From the comment
on nothing is code.
-/

namespace ProcedureIndex

open Text

namespace Text

/-- A comment starts: two slashes in a row, the first of them code. -/
structure CommentAt (line : Text) (n : Nat) : Prop where
  slashes : ∃ front back, line = front ++ '/' :: '/' :: back ∧ width front = n
  code : n ∈ (codeChars line).map Prod.fst

/-- In front of `rest`, where a scan starts in state `q`, no comment starts. -/
def CommentFree (q : Quoting) (front rest : Text) : Prop :=
  ∀ a b, front = a ++ '/' :: b → (b ++ rest).head? = some '/' → q.after a ≠ .code

theorem CommentFree.of_cons {q : Quoting} {c : Char} {front rest : Text}
    (h : CommentFree q (c :: front) rest) :
    ¬ (q = .code ∧ c = '/' ∧ (front ++ rest).head? = some '/') ∧
      CommentFree (q.next c) front rest := by
  constructor
  · rintro ⟨rfl, rfl, hhead⟩
    exact h [] front rfl hhead rfl
  · intro a b hfront hhead
    exact h (c :: a) b (by rw [hfront]; rfl) hhead

/-- A character is yielded where the scan stands in code in front of it. -/
theorem width_mem_codeChars_iff (front : Text) (c : Char) (back : Text) :
    width front ∈ (codeChars (front ++ c :: back)).map Prod.fst ↔
      (Quoting.code.after front).isCode c = true := by
  have hfront : width front ∉ (codeCharsFrom .code 0 front).map Prod.fst := by
    intro hmem
    obtain ⟨⟨n, d⟩, hd, rfl⟩ := List.mem_map.1 hmem
    have hbounds := bounds_of_mem_codeCharsFrom hd
    omega
  have hback : width front ∉ (codeCharsFrom ((Quoting.code.after front).next c)
      (width front + c.utf8Size) back).map Prod.fst := by
    intro hmem
    obtain ⟨⟨n, d⟩, hd, hn⟩ := List.mem_map.1 hmem
    have hbounds := bounds_of_mem_codeCharsFrom hd
    have hpos := c.utf8Size_pos
    change n = width front at hn
    omega
  rw [codeChars, codeCharsFrom_append, Nat.zero_add, List.map_append, List.mem_append,
    or_iff_right hfront, codeCharsFrom]
  split
  · next hcode => simp [hcode]
  · next hcode => simp [hcode, hback]

theorem commentAt_iff {line : Text} {n : Nat} :
    CommentAt line n ↔
      ∃ front back, line = front ++ '/' :: '/' :: back ∧ width front = n ∧
        Quoting.code.after front = .code := by
  have hslash : ∀ q : Quoting, q.isCode '/' = true ↔ q = .code := by
    intro q
    cases q with
    | code => exact iff_of_true (by decide) rfl
    | within q | hidden q => exact iff_of_false Bool.false_ne_true nofun
  constructor
  · rintro ⟨⟨front, back, rfl, rfl⟩, hcode⟩
    rw [width_mem_codeChars_iff, hslash] at hcode
    exact ⟨front, back, rfl, rfl, hcode⟩
  · rintro ⟨front, back, rfl, rfl, hcode⟩
    refine ⟨⟨front, back, rfl, rfl⟩, ?_⟩
    rw [width_mem_codeChars_iff, hslash]
    exact hcode

theorem CommentAt.mem_codeChars {line : Text} {n : Nat} (h : CommentAt line n) :
    (n, '/') ∈ codeChars line := by
  obtain ⟨front, back, rfl, rfl, hcode⟩ := commentAt_iff.1 h
  rw [codeChars, codeCharsFrom_append, hcode, Nat.zero_add]
  exact List.mem_append_right _ List.mem_cons_self

end Text

namespace CodeMask

/-- Without a comment in it, the front of a line only moves the scan on: behind it the mask is that
of the rest, scanned from a stage that stands where the scan for strings stands. -/
theorem exists_stage_scan_append {front rest : Text} (hfront : '\n' ∉ front) (stage : Stage)
    {offset : Nat} (hopened : ∀ start ∈ stage.opened, start ≤ offset)
    (hfree : CommentFree stage.quoting front rest) :
    ∃ stage' : Stage, stage'.quoting = stage.quoting.after front ∧
      (∀ start ∈ stage'.opened, start ≤ offset + width front) ∧
      ∀ n, offset + width front ≤ n →
        (scan stage offset (front ++ rest)).isCode n =
          (scan stage' (offset + width front) rest).isCode n := by
  induction front generalizing stage offset with
  | nil => exact ⟨stage, rfl, hopened, fun _ _ => rfl⟩
  | cons c front ih =>
      rw [List.mem_cons, not_or] at hfront
      obtain ⟨hplain, hfree⟩ := hfree.of_cons
      have hquoting := Stage.quoting_next (Ne.symm hfront.1) offset stage
      have hlate : ∀ start ∈ (stage.next offset c).opened, start ≤ offset + c.utf8Size :=
        fun start hs => Nat.le_add_right_of_le (Stage.opened_next hopened hs)
      obtain ⟨stage', hstage, hstarts, hsame⟩ :=
        ih hfront.2 (stage.next offset c) hlate (by rwa [hquoting])
      rw [hquoting] at hstage
      rw [Nat.add_assoc, ← width_cons] at hstarts hsame
      refine ⟨stage', hstage, hstarts, ?_⟩
      intro n hn
      rw [← hsame n hn]
      rw [width_cons] at hn
      exact isCode_scan_later hplain (by omega)

/-- Behind a front without a comment, a character that starts none either is code for the mask
exactly if the scan for strings yields it. -/
theorem isCode_ofLine_iff {front back : Text} {c : Char} (hfront : '\n' ∉ front)
    (hfree : CommentFree .code front (c :: back))
    (hplain : ¬ CommentAt (front ++ c :: back) (width front)) :
    (ofLine (front ++ c :: back)).isCode (width front) = true ↔
      width front ∈ (codeChars (front ++ c :: back)).map Prod.fst := by
  obtain ⟨stage, hstage, hstarts, hsame⟩ := exists_stage_scan_append hfront .code nofun hfree
  rw [Nat.zero_add] at hstarts hsame
  have hslashes : ¬ (stage.quoting = .code ∧ c = '/' ∧ back.head? = some '/') := by
    rintro ⟨hcode, rfl, hhead⟩
    obtain ⟨rest, rfl⟩ := List.head?_eq_some_iff.1 hhead
    exact hplain (commentAt_iff.2 ⟨front, rest, rfl, rfl, hstage ▸ hcode⟩)
  rw [width_mem_codeChars_iff, ofLine, hsame _ (Nat.le_refl _), isCode_scan_self hstarts hslashes,
    hstage]
  rfl

/-- From the start of a comment on nothing is code for the mask. -/
theorem isCode_ofLine_of_le {front back : Text} {n : Nat} (hfront : '\n' ∉ front)
    (hcode : Quoting.code.after front = .code)
    (hfree : CommentFree .code front ('/' :: '/' :: back)) (hn : width front ≤ n) :
    (ofLine (front ++ '/' :: '/' :: back)).isCode n = false := by
  obtain ⟨stage, hstage, -, hsame⟩ := exists_stage_scan_append hfront .code nofun hfree
  rw [Nat.zero_add] at hsame
  rw [ofLine, hsame n hn]
  cases stage with
  | code => exact isCode_scan_comment hn ⟨rfl, rfl⟩
  | within q start | hidden q start =>
      rw [Stage.quoting, Stage.quoting, hcode] at hstage
      cases hstage

/-- Where the comment of a line starts, or the end of a line without one. -/
def CommentStart (line : Text) (n : Nat) : Prop :=
  IsLeast {m | CommentAt line m} n ∨ (∀ m, ¬ CommentAt line m) ∧ n = width line

theorem exists_commentStart (line : Text) : ∃ n, CommentStart line n := by
  by_cases h : ∃ m, CommentAt line m
  · classical
    exact ⟨Nat.find h, .inl ⟨Nat.find_spec h, fun m hm => Nat.find_min' h hm⟩⟩
  · exact ⟨width line, .inr ⟨not_exists.1 h, rfl⟩⟩

theorem CommentStart.le {line : Text} {n m : Nat} (h : CommentStart line n)
    (hm : CommentAt line m) : n ≤ m := by
  cases h with
  | inl hleast => exact hleast.2 hm
  | inr hnone => exact absurd hm (hnone.1 m)

theorem CommentStart.free {front rest : Text} {n : Nat} (h : CommentStart (front ++ rest) n)
    (hn : width front ≤ n) : CommentFree .code front rest := by
  intro a b hfront hhead hcode
  obtain ⟨back, hback⟩ := List.head?_eq_some_iff.1 hhead
  have hcomment : CommentAt (front ++ rest) (width a) := by
    refine commentAt_iff.2 ⟨a, back, ?_, rfl, hcode⟩
    rw [hfront, List.append_assoc, List.cons_append, hback]
  have hle := h.le hcomment
  have hpos := Char.utf8Size_pos '/'
  rw [hfront, width_append, width_cons] at hn
  omega

/-- On a line without a newline the mask and the scan for strings agree up to the comment: a
character in front of it is code for the mask exactly if the scan yields its offset, and where
there is a comment, nothing from its start on is code for the mask. -/
theorem mask_agrees_with_scan {line : Text} (hline : '\n' ∉ line) :
    (∃ n, CommentStart line n) ∧
      ∀ n, CommentStart line n →
        (∀ front c back, line = front ++ c :: back → width front < n →
          ((ofLine line).isCode (width front) = true ↔
            width front ∈ (codeChars line).map Prod.fst)) ∧
        ((∃ m, CommentAt line m) → ∀ i, n ≤ i → (ofLine line).isCode i = false) := by
  refine ⟨exists_commentStart line, ?_⟩
  intro n hstart
  constructor
  · rintro front c back rfl hn
    refine isCode_ofLine_iff (fun h => hline (List.mem_append_left _ h))
      (hstart.free (Nat.le_of_lt hn)) ?_
    intro hcomment
    exact absurd (hstart.le hcomment) (Nat.not_le.2 hn)
  · rintro ⟨m, hm⟩ i hi
    cases hstart with
    | inr hnone => exact absurd hm (hnone.1 m)
    | inl hleast =>
        obtain ⟨front, back, rfl, rfl, hcode⟩ := commentAt_iff.1 hleast.1
        exact isCode_ofLine_of_le (fun h => hline (List.mem_append_left _ h)) hcode
          (CommentStart.free (.inl hleast) (Nat.le_refl _)) hi

def slashesInString : Text := "é = '//\"\\'' // it's".toList

theorem mask_agrees_with_scan_slashesInString :
    '\n' ∉ slashesInString ∧ CommentStart slashesInString 13 ∧
      (CodeMask.ofLine slashesInString).isCode 2 = true ∧
      (CodeMask.ofLine slashesInString).isCode 10 = false ∧
      (CodeMask.ofLine slashesInString).isCode 17 = false := by
  have hline : '\n' ∉ slashesInString := by decide
  have hcomment : CommentAt slashesInString 13 :=
    ⟨⟨"é = '//\"\\'' ".toList, " it's".toList, by decide, by decide⟩, by decide⟩
  have hstart : CommentStart slashesInString 13 := by
    refine .inl ⟨hcomment, ?_⟩
    intro m hm
    have hslashes : ∀ p ∈ codeChars slashesInString, p.2 = '/' → 13 ≤ p.1 := by decide
    exact hslashes _ hm.mem_codeChars rfl
  obtain ⟨hcode, hafter⟩ := (mask_agrees_with_scan hline).2 13 hstart
  refine ⟨hline, hstart, ?_, ?_, hafter ⟨13, hcomment⟩ 17 (by decide)⟩
  · exact (hcode ['é'] ' ' "= '//\"\\'' // it's".toList rfl (by decide)).2 (by decide)
  · rw [← Bool.not_eq_true]
    intro h
    have hyielded := (hcode "é = '//\"\\".toList '\'' "' // it's".toList rfl (by decide)).1 h
    exact absurd hyielded (by decide)

end CodeMask
end ProcedureIndex
