import Mathlib.Data.List.Nodup
import ProcedureIndex.Proofs.Diagnostic.BlankedText

/-!
Bracket checking as a repair. In a text without quotes the check reads the brackets in front
of the comment of each line. What it reports, taken out of them, leaves a balanced word, and
it reports nothing exactly when the word is balanced already. The invariant of the check says
what has been read: the brackets that are still open, with balanced words between them.
-/

namespace ProcedureIndex
namespace Brackets

open Text

def pairs : List (Char × Char) :=
  [('{', '}'), ('(', ')'), ('[', ']')]

/-- The words generated by the empty word, by a pair of brackets around a word and by one word
behind another. -/
inductive Balanced : List Char → Prop
  | nil : Balanced []
  | wrap {o c : Char} {a : List Char} (hpair : (o, c) ∈ pairs) (ha : Balanced a) :
      Balanced (o :: (a ++ [c]))
  | append {a b : List Char} (ha : Balanced a) (hb : Balanced b) : Balanced (a ++ b)

theorem opening?_eq_some_iff {o c : Char} : opening? c = some o ↔ (o, c) ∈ pairs := by
  simp only [opening?, pairs, List.mem_cons, Prod.mk.injEq, List.not_mem_nil, or_false]
  grind

theorem isOpening_iff {c : Char} : isOpening c = true ↔ c ∈ pairs.map Prod.fst := by
  simp [isOpening, pairs, or_assoc]

theorem isSome_opening?_iff {c : Char} : (opening? c).isSome = true ↔ c ∈ pairs.map Prod.snd := by
  simp only [Option.isSome_iff_exists, opening?_eq_some_iff, List.mem_map, Prod.exists]
  grind

theorem isOpening_eq_false_of_pair {o c : Char} (h : (o, c) ∈ pairs) : isOpening c = false := by
  have hall : ∀ p ∈ pairs, isOpening p.2 = false := by decide
  exact hall _ h

theorem isBracket_iff {p : Nat × Char} :
    isBracket p = true ↔ p.2 ∈ pairs.map Prod.fst ++ pairs.map Prod.snd := by
  rw [isBracket, Bool.or_eq_true, isOpening_iff, isSome_opening?_iff, List.mem_append]

section Steps

variable {stack code : List (Nat × Char)} {p q : Nat × Char}

theorem pairUp_opening (h : isOpening p.2 = true) :
    pairUp stack (p :: code) = pairUp (p :: stack) code := by
  obtain ⟨i, c⟩ := p
  rw [pairUp, if_pos h]

theorem pairUp_fitting (h : (q.2, p.2) ∈ pairs) :
    pairUp (q :: stack) (p :: code) = pairUp stack code := by
  obtain ⟨i, c⟩ := p
  have hclosing := isOpening_eq_false_of_pair h
  rw [pairUp, if_neg (by simp [hclosing]), opening?_eq_some_iff.2 h]
  simp

/-- Whatever is open, a balanced word leaves it open and nothing else. -/
theorem pairUp_balanced {cs : List Char} (h : Balanced cs) {w : List (Nat × Char)}
    (hw : w.map Prod.snd = cs) (stack code : List (Nat × Char)) :
    pairUp stack (w ++ code) = pairUp stack code := by
  induction h generalizing w stack code with
  | nil => rw [List.map_eq_nil_iff.1 hw, List.nil_append]
  | @wrap o c a hpair ha ih =>
      obtain ⟨q, rest, rfl, rfl, hrest⟩ := List.map_eq_cons_iff.1 hw
      obtain ⟨inner, last, rfl, hinner, hlast⟩ := List.map_eq_append_iff.1 hrest
      obtain ⟨p, rfl, rfl⟩ := List.map_eq_singleton_iff.1 hlast
      have hopening : isOpening q.2 = true := isOpening_iff.2 (List.mem_map.2 ⟨_, hpair, rfl⟩)
      rw [List.cons_append, pairUp_opening hopening, List.append_assoc, ih hinner,
        List.singleton_append, pairUp_fitting hpair]
  | append ha hb iha ihb =>
      obtain ⟨a, b, rfl, ha, hb⟩ := List.map_eq_append_iff.1 hw
      rw [List.append_assoc, iha ha, ihb hb]

theorem closers_sublist (stack code : List (Nat × Char)) :
    (pairUp stack code).closers.Sublist code := by
  fun_induction pairUp stack code with
  | case1 stack => exact List.Sublist.refl _
  | case2 stack i c code hopen ih => exact ih.cons _
  | case3 stack i c code hopen hnone ih => exact ih.cons _
  | case4 stack i c code hopen o hsome hfits ih => exact ih.cons _
  | case5 stack i c code hopen o hsome hfits faults ih => exact ih.cons_cons _

theorem openers_sublist (stack code : List (Nat × Char)) :
    (pairUp stack code).openers.Sublist (stack.reverse ++ code) := by
  fun_induction pairUp stack code with
  | case1 stack => rw [List.append_nil]
  | case2 stack i c code hopen ih =>
      rwa [List.reverse_cons, List.append_assoc] at ih
  | case3 stack i c code hopen hnone ih =>
      exact ih.trans ((List.sublist_cons_self _ _).append_left _)
  | case4 stack i c code hopen o hsome hfits ih =>
      exact ih.trans ((List.tail_sublist stack).reverse.append (List.sublist_cons_self _ _))
  | case5 stack i c code hopen o hsome hfits faults ih =>
      exact ih.trans ((List.sublist_cons_self _ _).append_left _)

theorem closing_of_mem_closers (h : p ∈ (pairUp stack code).closers) :
    p.2 ∈ pairs.map Prod.snd := by
  fun_induction pairUp stack code with
  | case1 stack => cases h
  | case2 stack i c code hopen ih | case3 stack i c code hopen hnone ih
  | case4 stack i c code hopen o hsome hfits ih => exact ih h
  | case5 stack i c code hopen o hsome hfits faults ih =>
      cases List.mem_cons.1 h with
      | inl h =>
          subst h
          exact isSome_opening?_iff.1 (Option.isSome_of_eq_some hsome)
      | inr h => exact ih h

theorem opening_of_mem_openers (hstack : ∀ q ∈ stack, isOpening q.2 = true)
    (h : p ∈ (pairUp stack code).openers) : p.2 ∈ pairs.map Prod.fst := by
  fun_induction pairUp stack code with
  | case1 stack => exact isOpening_iff.1 (hstack p (List.mem_reverse.1 h))
  | case2 stack i c code hopen ih => exact ih (List.forall_mem_cons.2 ⟨hopen, hstack⟩) h
  | case3 stack i c code hopen hnone ih => exact ih hstack h
  | case4 stack i c code hopen o hsome hfits ih =>
      exact ih (fun q hq => hstack q (List.mem_of_mem_tail hq)) h
  | case5 stack i c code hopen o hsome hfits faults ih => exact ih hstack h

end Steps

/-- What has been read with some brackets still open, innermost first: the open brackets, a balanced
word in front of the outermost, and one behind each. -/
inductive OpenIn : List (Nat × Char) → List (Nat × Char) → Prop
  | nil {w : List (Nat × Char)} (hw : Balanced (w.map Prod.snd)) : OpenIn [] w
  | cons {stack w b : List (Nat × Char)} {p : Nat × Char} (h : OpenIn stack w)
      (hb : Balanced (b.map Prod.snd)) : OpenIn (p :: stack) (w ++ p :: b)

namespace OpenIn

variable {stack w : List (Nat × Char)}

theorem append (h : OpenIn stack w) {b : List (Nat × Char)} (hb : Balanced (b.map Prod.snd)) :
    OpenIn stack (w ++ b) := by
  cases h with
  | nil hw =>
      refine .nil ?_
      rw [List.map_append]
      exact .append hw hb
  | cons h ha =>
      rw [List.append_assoc, List.cons_append]
      refine .cons h ?_
      rw [List.map_append]
      exact .append ha hb

theorem push (h : OpenIn stack w) (p : Nat × Char) : OpenIn (p :: stack) (w ++ [p]) :=
  .cons h .nil

theorem pop {p q : Nat × Char} (h : OpenIn (q :: stack) w) (hpair : (q.2, p.2) ∈ pairs) :
    OpenIn stack (w ++ [p]) := by
  cases h with
  | @cons _ w b _ h hb =>
      have hwrap : Balanced ((q :: (b ++ [p])).map Prod.snd) := by
        rw [List.map_cons, List.map_append]
        exact .wrap hpair hb
      rw [List.append_assoc, List.cons_append]
      exact h.append hwrap

theorem subset (h : OpenIn stack w) : stack ⊆ w := by
  induction h with
  | nil => exact List.nil_subset _
  | cons h hb ih =>
      refine List.cons_subset.2 ⟨by simp, ?_⟩
      exact fun q hq => List.mem_append_left _ (ih hq)

/-- Without the open brackets, what has been read is balanced. -/
theorem balanced_without (h : OpenIn stack w) (hw : w.Nodup) :
    Balanced ((w.filter fun p => p ∉ stack).map Prod.snd) := by
  induction h with
  | nil hbalanced => simpa using hbalanced
  | @cons stack w b p h hb ih =>
      obtain ⟨hfront, hback, hapart⟩ := List.nodup_append.1 hw
      have hp : p ∉ b := (List.nodup_cons.1 hback).1
      have hkept : w.filter (fun x => x ∉ p :: stack) = w.filter fun x => x ∉ stack := by
        apply List.filter_congr
        intro x hx
        have hne : x ≠ p := hapart x hx p List.mem_cons_self
        simp [hne]
      have hall : b.filter (fun x => x ∉ p :: stack) = b := by
        apply List.filter_eq_self.2
        intro x hx
        have hne : x ≠ p := fun he => hp (he ▸ hx)
        have hstack : x ∉ stack :=
          fun hs => hapart x (h.subset hs) x (List.mem_cons_of_mem p hx) rfl
        simp [hne, hstack]
      rw [List.filter_append, hkept, List.filter_cons_of_neg (by simp), hall, List.map_append]
      exact .append (ih hfront) hb

end OpenIn

def kept (faults : Faults) (code : List (Nat × Char)) : List (Nat × Char) :=
  code.filter fun p => p ∉ faults.closers ++ faults.openers

/-- A closer that is reported is the only difference to what is kept without it. -/
theorem kept_reported {faults : Faults} {p : Nat × Char} {w code : List (Nat × Char)}
    (hp : p ∉ w ++ code) :
    kept ⟨p :: faults.closers, faults.openers⟩ (w ++ p :: code) = kept faults (w ++ code) := by
  have hothers : kept ⟨p :: faults.closers, faults.openers⟩ (w ++ code) =
      kept faults (w ++ code) := by
    apply List.filter_congr
    intro x hx
    have hne : x ≠ p := fun he => hp (he ▸ hx)
    simp [hne]
  rw [← hothers, kept, List.filter_append, List.filter_cons_of_neg (by simp), kept,
    List.filter_append]

/-- The run of the check: with some brackets open and the rest to come, all that was read and is to
come is balanced once the faults are taken out. -/
theorem balanced_kept {stack code w : List (Nat × Char)} (hopen : OpenIn stack w)
    (hnodup : (w ++ code).Nodup) (hcode : ∀ p ∈ code, isBracket p = true) :
    Balanced ((kept (pairUp stack code) (w ++ code)).map Prod.snd) := by
  fun_induction pairUp stack code generalizing w with
  | case1 stack =>
      rw [List.append_nil] at hnodup ⊢
      simpa [kept] using hopen.balanced_without hnodup
  | case2 stack i c code hopening ih =>
      rw [List.append_cons] at hnodup ⊢
      exact ih (hopen.push _) hnodup (fun p hp => hcode p (List.mem_cons_of_mem _ hp))
  | case3 stack i c code hopening hnone ih =>
      have hbracket := hcode (i, c) List.mem_cons_self
      simp [isBracket, hopening, hnone] at hbracket
  | case4 stack i c code hopening o hsome hfits ih =>
      obtain ⟨q, hq, rfl⟩ := Option.map_eq_some_iff.1 hfits
      obtain ⟨stack, rfl⟩ := List.head?_eq_some_iff.1 hq
      rw [List.append_cons] at hnodup ⊢
      exact ih (hopen.pop (opening?_eq_some_iff.1 hsome)) hnodup
        (fun p hp => hcode p (List.mem_cons_of_mem _ hp))
  | case5 stack i c code hopening o hsome hfits faults =>
      rename_i ih
      have hrest : (i, c) ∉ w ++ code ∧ (w ++ code).Nodup :=
        List.nodup_cons.1 (List.perm_middle.nodup_iff.1 hnodup)
      rw [kept_reported hrest.1]
      exact ih hopen hrest.2 (fun p hp => hcode p (List.mem_cons_of_mem _ hp))

/-- The brackets on a line from a column on, up to its comment. -/
def lineMarks : Nat → Text → List (Nat × Char)
  | _, [] => []
  | col, c :: cs =>
      if ['/', '/'] <+: c :: cs then []
      else if c ∈ pairs.map Prod.fst ++ pairs.map Prod.snd then
        (col, c) :: lineMarks (col + c.utf8Size) cs
      else lineMarks (col + c.utf8Size) cs

/-- The brackets of a text that stand in no comment, line by line, with their positions. -/
def marks (cs : Text) : List (Position × Char) :=
  (lines cs).zipIdx.flatMap fun l => (lineMarks 0 l.1).map fun p => (⟨l.2, p.1⟩, p.2)

theorem bounds_of_mem_lineMarks {col : Nat} {l : Text} {p : Nat × Char} (h : p ∈ lineMarks col l) :
    col ≤ p.1 ∧ p.1 ≤ col + width l := by
  induction l generalizing col with
  | nil => cases h
  | cons c l ih =>
      have hlater : p ∈ lineMarks (col + c.utf8Size) l →
          col ≤ p.1 ∧ p.1 ≤ col + width (c :: l) := by
        intro h
        have hbounds := ih h
        rw [width_cons]
        omega
      rw [lineMarks] at h
      split at h
      · cases h
      · split at h
        · cases List.mem_cons.1 h with
          | inl h =>
              subst h
              exact ⟨Nat.le_refl _, Nat.le_add_right _ _⟩
          | inr h => exact hlater h
        · exact hlater h

theorem lineMarks_pairwise (col : Nat) (l : Text) :
    (lineMarks col l).Pairwise fun p q => p.1 < q.1 := by
  induction l generalizing col with
  | nil => exact .nil
  | cons c l ih =>
      rw [lineMarks]
      split
      · exact .nil
      · split
        · refine List.pairwise_cons.2 ⟨?_, ih _⟩
          intro q hq
          have hpos := c.utf8Size_pos
          have hbounds := bounds_of_mem_lineMarks hq
          change col < q.1
          omega
        · exact ih _

theorem lineMarks_add (offset col : Nat) (l : Text) :
    lineMarks (offset + col) l = (lineMarks col l).map fun p => (offset + p.1, p.2) := by
  induction l generalizing col with
  | nil => rfl
  | cons c l ih =>
      rw [lineMarks, lineMarks]
      split
      · rfl
      · rw [Nat.add_assoc, ih]
        split <;> rfl

/-- The brackets come in the order of the text. -/
theorem marks_pairwise (cs : Text) : (marks cs).Pairwise fun a b => a.1.before b.1 = true := by
  rw [marks, List.pairwise_flatMap]
  constructor
  · intro l _
    rw [List.pairwise_map]
    refine (lineMarks_pairwise 0 l.1).imp ?_
    intro p q hlt
    exact Position.before_iff.2 (.inr ⟨rfl, hlt⟩)
  · have hlines : (lines cs).zipIdx.Pairwise fun l l' => l.2 < l'.2 := by
      rw [← List.pairwise_map (f := Prod.snd) (R := (· < ·)), List.zipIdx_map_snd]
      exact List.pairwise_lt_range'
    refine hlines.imp ?_
    intro l l' hlt a ha b hb
    obtain ⟨p, -, rfl⟩ := List.mem_map.1 ha
    obtain ⟨q, -, rfl⟩ := List.mem_map.1 hb
    exact Position.before_iff.2 (.inl hlt)

section Lines

variable {l cs : Text} {more : List (Nat × Char)}

/-- A comment lasts to the end of its line. -/
theorem outsideComments_true_line (hl : '\n' ∉ l) (hq : ∀ c ∈ l, Quoting.isQuote c = false)
    (hmore : ∀ p ∈ more.head?, p.2 = '\n') (offset : Nat) :
    (outsideComments true (codeCharsFrom .code offset l ++ more)).filter isBracket =
      (outsideComments false more).filter isBracket := by
  induction l generalizing offset with
  | nil =>
      cases more with
      | nil => rfl
      | cons p more =>
          obtain ⟨n, c⟩ := p
          cases (hmore _ rfl : c = '\n')
          rfl
  | cons c l ih =>
      have hc : c ≠ '\n' := fun h => hl (h ▸ List.mem_cons_self)
      have hnext : (c != '\n') = true := bne_iff_ne.2 hc
      rw [codeCharsFrom_cons_of_no_quote (hq c List.mem_cons_self), List.cons_append,
        outsideComments, hnext]
      exact ih (fun h => hl (List.mem_cons_of_mem c h))
        (fun d hd => hq d (List.mem_cons_of_mem c hd)) _

/-- Two slashes are seen where they stand, since no slash follows the line. -/
theorem slashes_iff (hq : ∀ c ∈ l, Quoting.isQuote c = false)
    (hmore : ∀ p ∈ more.head?, p.2 = '\n') (c : Char) (offset : Nat) :
    (c = '/' ∧ (codeCharsFrom .code offset l ++ more).head?.map Prod.snd = some '/') ↔
      ['/', '/'] <+: c :: l := by
  rw [List.cons_prefix_cons, eq_comm]
  refine and_congr_right fun _ => ?_
  cases l with
  | nil =>
      cases more with
      | nil => simp [codeCharsFrom]
      | cons p more =>
          have hp : p.2 = '\n' := hmore p rfl
          simp [codeCharsFrom, hp]
  | cons d l =>
      rw [codeCharsFrom_cons_of_no_quote (hq d List.mem_cons_self)]
      simp [List.cons_prefix_cons, eq_comm]

/-- The check reads the brackets of a line and goes on behind it. -/
theorem outsideComments_line (hl : '\n' ∉ l) (hq : ∀ c ∈ l, Quoting.isQuote c = false)
    (hmore : ∀ p ∈ more.head?, p.2 = '\n') (offset : Nat) :
    (outsideComments false (codeCharsFrom .code offset l ++ more)).filter isBracket =
      lineMarks offset l ++ (outsideComments false more).filter isBracket := by
  induction l generalizing offset with
  | nil => rfl
  | cons c l ih =>
      have hl' : '\n' ∉ l := fun h => hl (List.mem_cons_of_mem c h)
      have hq' : ∀ d ∈ l, Quoting.isQuote d = false := fun d hd => hq d (List.mem_cons_of_mem c hd)
      have hslashes := slashes_iff hq' hmore c (offset + c.utf8Size)
      rw [codeCharsFrom_cons_of_no_quote (hq c List.mem_cons_self), List.cons_append,
        outsideComments, lineMarks]
      simp only [hslashes]
      split
      · exact outsideComments_true_line hl' hq' hmore _
      · rw [List.filter_cons, ih hl' hq']
        simp only [isBracket_iff]
        split <;> rfl

end Lines

/-- The brackets that the check reads are those of the lines, each line at its own offset. -/
theorem filter_outsideComments_lines {cs : Text} (hq : ∀ c ∈ cs, Quoting.isQuote c = false)
    (offset : Nat) :
    (outsideComments false (codeCharsFrom .code offset cs)).filter isBracket =
      (LineHeader.linesFrom offset (lines cs)).flatMap fun l => lineMarks l.1 l.2 := by
  induction cs using byLines generalizing offset with
  | last l hl =>
      have hnone : ∀ p ∈ ([] : List (Nat × Char)).head?, p.2 = '\n' := nofun
      have hline := outsideComments_line hl hq hnone offset
      rw [List.append_nil] at hline
      rw [hline, lines_of_not_mem hl]
      rfl
  | line l below hl ih =>
      have hql : ∀ c ∈ l, Quoting.isQuote c = false := fun c hc => hq c (List.mem_append_left _ hc)
      have hqb : ∀ c ∈ below, Quoting.isQuote c = false := fun c hc => hq c (by simp [hc])
      rw [codeCharsFrom_append, after_of_no_quote hql, codeCharsFrom_cons_of_no_quote rfl,
        outsideComments_line hl hql (by simp), lines_append_newline hl, LineHeader.linesFrom,
        List.flatMap_cons, ← ih hqb]
      rfl

def located (m : LineMap) (p : Nat × Char) : Position × Char :=
  (m.position p.1, p.2)

theorem map_snd_located (m : LineMap) (code : List (Nat × Char)) :
    (code.map (located m)).map Prod.snd = code.map Prod.snd :=
  List.map_map ..

/-- Different brackets have different positions, so brackets are taken out by their positions. -/
theorem filter_located {m : LineMap} {code faulty : List (Nat × Char)}
    (hnodup : (code.map (located m)).Nodup) (hfaulty : faulty ⊆ code) :
    ((code.map (located m)).filter fun x => x ∉ faulty.map (located m)) =
      (code.filter fun p => p ∉ faulty).map (located m) := by
  rw [List.filter_map]
  congr 1
  apply List.filter_congr
  intro p hp
  have hmem : located m p ∈ faulty.map (located m) ↔ p ∈ faulty := by
    constructor
    · intro h
      obtain ⟨q, hq, heq⟩ := List.mem_map.1 h
      rwa [← List.inj_on_of_nodup_map hnodup (hfaulty hq) hp heq]
    · exact List.mem_map_of_mem
  simp only [Function.comp_apply, hmem]

theorem spanOf_concat (init : List Text) (l : Text) :
    LineMap.spanOf (init ++ [l]) = LineMap.spanOf init + width l + 1 := by
  rw [LineMap.spanOf_append, LineMap.spanOf, LineMap.spanOf, Nat.add_zero, Nat.add_assoc]

theorem map_located_lines (init rest : List Text) :
    ((LineHeader.linesFrom (LineMap.spanOf init) rest).flatMap fun l => lineMarks l.1 l.2).map
        (located ⟨init ++ rest⟩) =
      (rest.zipIdx init.length).flatMap fun l =>
        (lineMarks 0 l.1).map fun p => (⟨l.2, p.1⟩, p.2) := by
  induction rest generalizing init with
  | nil => rfl
  | cons l rest ih =>
      have hrest := ih (init ++ [l])
      rw [spanOf_concat, List.length_append, List.append_assoc] at hrest
      have hline : (lineMarks (LineMap.spanOf init) l).map (located ⟨init ++ l :: rest⟩) =
          (lineMarks 0 l).map fun p => (⟨init.length, p.1⟩, p.2) := by
        rw [← Nat.add_zero (LineMap.spanOf init), lineMarks_add, List.map_map]
        apply List.map_congr_left
        intro p hp
        have hcol : p.1 ≤ width l := by
          have hbounds := bounds_of_mem_lineMarks hp
          omega
        simp only [Function.comp_apply, located, LineMap.position,
          LineMap.locate_spanOf_add init l rest hcol]
      rw [LineHeader.linesFrom, List.flatMap_cons, List.map_append, List.zipIdx_cons,
        List.flatMap_cons, hline]
      exact congrArg _ hrest

theorem marks_eq {cs : Text} (hq : ∀ c ∈ cs, Quoting.isQuote c = false) :
    marks cs = ((outsideComments false (codeChars cs)).filter isBracket).map
      (located (LineMap.ofText cs)) := by
  rw [codeChars, filter_outsideComments_lines hq]
  exact (map_located_lines [] (lines cs)).symm

def errorAt (file : FileId) (code : String) (message : Char → String) (m : Position × Char) :
    Diagnostic :=
  { file := file
    start := m.1
    stop := ⟨m.1.line, m.1.col + 1⟩
    severity := .error
    code := some code
    message := message m.2
    related := [] }

def unexpectedAt (file : FileId) : Position × Char → Diagnostic :=
  errorAt file Diagnostic.unexpectedCloserCode
    fun c => "unexpected closing '" ++ String.singleton c ++ "'"

def unclosedAt (file : FileId) : Position × Char → Diagnostic :=
  errorAt file Diagnostic.unclosedBracketCode fun c => "unclosed '" ++ String.singleton c ++ "'"

theorem check_eq_located (file : FileId) (cs : Text) :
    check file cs =
      ((faults cs).closers.map (located (LineMap.ofText cs))).map (unexpectedAt file) ++
        ((faults cs).openers.map (located (LineMap.ofText cs))).map (unclosedAt file) := by
  rw [check_eq, List.map_map, List.map_map]
  rfl

/-- No bracket is reported twice. -/
theorem nodup_faults {code : List (Nat × Char)} (h : code.Nodup) :
    ((pairUp [] code).closers ++ (pairUp [] code).openers).Nodup := by
  have hopeners := openers_sublist [] code
  refine List.nodup_append.2 ⟨(closers_sublist [] code).nodup h, hopeners.nodup h, ?_⟩
  intro p hp q hq heq
  have hclosing := closing_of_mem_closers hp
  have hopening := opening_of_mem_openers (List.forall_mem_nil _) hq
  obtain ⟨pair, hpair, hsnd⟩ := List.mem_map.1 hclosing
  rw [← heq, ← hsnd, ← isOpening_iff, isOpening_eq_false_of_pair hpair] at hopening
  cases hopening

theorem balanced_all {code : List (Nat × Char)} (hnodup : code.Nodup)
    (hcode : ∀ p ∈ code, isBracket p = true) :
    Balanced ((kept (pairUp [] code) code).map Prod.snd) :=
  balanced_kept (OpenIn.nil .nil : OpenIn [] []) hnodup hcode

/-- Nothing is reported exactly about a balanced word. -/
theorem faults_eq_nil_iff {code : List (Nat × Char)} (hnodup : code.Nodup)
    (hcode : ∀ p ∈ code, isBracket p = true) :
    (pairUp [] code).closers ++ (pairUp [] code).openers = [] ↔ Balanced (code.map Prod.snd) := by
  constructor
  · intro hnone
    have hbalanced := balanced_all hnodup hcode
    simpa only [kept, hnone, List.not_mem_nil, not_false_eq_true, decide_true,
      List.filter_true] using hbalanced
  · intro h
    have hnone := pairUp_balanced h rfl [] []
    rw [List.append_nil] at hnone
    rw [hnone]
    rfl

/-- Of a text without quotes, the check reports some of the brackets outside comments, at their
positions: closing brackets as unexpected and behind them opening brackets as unclosed, both in the
order of the text and none twice. Taking these out leaves a balanced word, and nothing is
reported exactly when the word is balanced as it stands. -/
theorem check_balances (file : FileId) {cs : Text} (hcs : ∀ c ∈ cs, Quoting.isQuote c = false) :
    (marks cs).Pairwise (fun a b => a.1.before b.1 = true) ∧
    (check file cs = [] ↔ Balanced ((marks cs).map Prod.snd)) ∧
    ∃ closers openers : List (Position × Char),
      check file cs = closers.map (unexpectedAt file) ++ openers.map (unclosedAt file) ∧
      closers.Sublist (marks cs) ∧ openers.Sublist (marks cs) ∧ (closers ++ openers).Nodup ∧
      (∀ m ∈ closers, m.2 ∈ pairs.map Prod.snd) ∧ (∀ m ∈ openers, m.2 ∈ pairs.map Prod.fst) ∧
      Balanced (((marks cs).filter fun m => m ∉ closers ++ openers).map Prod.snd) := by
  have hpairwise := marks_pairwise cs
  refine ⟨hpairwise, ?_⟩
  have hfaults : faults cs = pairUp [] ((outsideComments false (codeChars cs)).filter isBracket) :=
    (pairUp_filter [] _).symm
  have hcode : ∀ p ∈ (outsideComments false (codeChars cs)).filter isBracket,
      isBracket p = true := fun p hp => (List.mem_filter.1 hp).2
  have hnodup : (marks cs).Nodup := hpairwise.imp fun hlt heq => by
    rw [heq, Position.before_iff] at hlt
    omega
  rw [check_eq_located, hfaults]
  rw [marks_eq hcs] at hnodup ⊢
  generalize (outsideComments false (codeChars cs)).filter isBracket = code at hcode hnodup ⊢
  have hnone := faults_eq_nil_iff hnodup.of_map hcode
  have hinj := List.inj_on_of_nodup_map hnodup
  have hsubset : (pairUp [] code).closers ++ (pairUp [] code).openers ⊆ code :=
    List.append_subset.2 ⟨(closers_sublist [] code).subset, (openers_sublist [] code).subset⟩
  constructor
  · rw [map_snd_located, ← hnone]
    simp
  · refine ⟨(pairUp [] code).closers.map (located (LineMap.ofText cs)),
      (pairUp [] code).openers.map (located (LineMap.ofText cs)), rfl,
      (closers_sublist [] code).map _, (openers_sublist [] code).map _, ?_, ?_, ?_, ?_⟩
    · rw [← List.map_append]
      exact (nodup_faults hnodup.of_map).map_on fun p hp q hq =>
        hinj (hsubset hp) (hsubset hq)
    · intro m hm
      obtain ⟨p, hp, rfl⟩ := List.mem_map.1 hm
      exact closing_of_mem_closers hp
    · intro m hm
      obtain ⟨p, hp, rfl⟩ := List.mem_map.1 hm
      exact opening_of_mem_openers (List.forall_mem_nil _) hp
    · rw [← List.map_append, filter_located hnodup hsubset, map_snd_located]
      exact balanced_all hnodup.of_map hcode

def strayClosers : Text := "fn a() \x7b\n  b(] // \x7d\n".toList

theorem check_balances_strayClosers :
    (∀ c ∈ strayClosers, Quoting.isQuote c = false) ∧
    ¬ Balanced ((marks strayClosers).map Prod.snd) ∧
    ∃ closers openers : List (Position × Char),
      check ⟨0⟩ strayClosers = closers.map (unexpectedAt ⟨0⟩) ++ openers.map (unclosedAt ⟨0⟩) ∧
      Balanced (((marks strayClosers).filter fun m => m ∉ closers ++ openers).map Prod.snd) := by
  have hquotes : ∀ c ∈ strayClosers, Quoting.isQuote c = false :=
    List.forall_iff_forall_mem.1 (by decide)
  obtain ⟨-, hiff, closers, openers, hcheck, -, -, -, -, -, hbalanced⟩ :=
    check_balances ⟨0⟩ hquotes
  have hfaulty : check ⟨0⟩ strayClosers ≠ [] := by decide +kernel
  exact ⟨hquotes, fun h => hfaulty (hiff.2 h), closers, openers, hcheck, hbalanced⟩

end Brackets
end ProcedureIndex
