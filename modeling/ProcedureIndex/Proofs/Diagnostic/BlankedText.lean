import Mathlib.Data.List.Infix
import ProcedureIndex.Diagnostic.Brackets
import ProcedureIndex.Proofs.Text.Blanking

/-!
Bracket checking on a text and on the same text with strings and comments written over.
The check finds comments among the code characters and not on a line, so it also passes
over brackets that no line's mask takes for a comment: those behind two slashes with only
a string between them, and those below a comment whose newline is swallowed by a string
that the comment opened. Nothing else tells the two texts apart.
-/

namespace ProcedureIndex
namespace Brackets

open Text

def isBracket (p : Nat × Char) : Bool :=
  isOpening p.2 || (opening? p.2).isSome

theorem pairUp_filter (stack code : List (Nat × Char)) :
    pairUp stack (code.filter isBracket) = pairUp stack code := by
  induction code generalizing stack with
  | nil => rfl
  | cons p code ih =>
      obtain ⟨i, c⟩ := p
      by_cases hc : isBracket (i, c) = true
      · rw [List.filter_cons_of_pos hc, pairUp, pairUp]
        simp only [ih]
      · have hopening : isOpening c = false ∧ opening? c = none := by
          simpa [isBracket] using hc
        rw [List.filter_cons_of_neg hc, ih]
        conv_rhs => rw [pairUp]
        simp [hopening.1, hopening.2]

/-- Faulty brackets are among those that were paired up. -/
theorem mem_of_mem_pairUp {stack code : List (Nat × Char)} {p : Nat × Char}
    (h : p ∈ (pairUp stack code).closers ∨ p ∈ (pairUp stack code).openers) :
    p ∈ stack ∨ p ∈ code := by
  fun_induction pairUp stack code with
  | case1 stack => simpa using h
  | case2 stack i c code hopen ih =>
      rcases ih h with h | h
      · exact (List.mem_cons.1 h).elim (fun he => .inr (he ▸ List.mem_cons_self)) .inl
      · exact .inr (List.mem_cons_of_mem _ h)
  | case3 stack i c code hopen hnone ih => exact (ih h).imp_right (List.mem_cons_of_mem _)
  | case4 stack i c code hopen o hsome hfits ih =>
      exact (ih h).imp List.mem_of_mem_tail (List.mem_cons_of_mem _)
  | case5 stack i c code hopen o hsome hfits faults ih =>
      rcases h with h | h
      · rcases List.mem_cons.1 h with rfl | h
        · exact .inr List.mem_cons_self
        · exact (ih (.inl h)).imp_right (List.mem_cons_of_mem _)
      · exact (ih (.inr h)).imp_right (List.mem_cons_of_mem _)

/-- Two slashes with no code between them stand in front of the place or at it, and no newline
stands between them and the place. -/
def Commented (code : List (Nat × Char)) (n : Nat) : Prop :=
  ∃ t ∈ code.tails, ['/', '/'] <+: t.map Prod.snd ∧
    n ∈ (t.takeWhile (·.2 != '\n')).map Prod.fst

instance (code : List (Nat × Char)) (n : Nat) : Decidable (Commented code n) :=
  inferInstanceAs (Decidable (∃ t ∈ code.tails, ['/', '/'] <+: t.map Prod.snd ∧
    n ∈ (t.takeWhile (·.2 != '\n')).map Prod.fst))

theorem commented_cons {i n : Nat} {c : Char} {code : List (Nat × Char)} :
    Commented ((i, c) :: code) n ↔
      (c = '/' ∧ code.head?.map Prod.snd = some '/') ∧
          n ∈ i :: (code.takeWhile (·.2 != '\n')).map Prod.fst ∨
        Commented code n := by
  have hslashes : ['/', '/'] <+: ((i, c) :: code).map Prod.snd ↔
      c = '/' ∧ code.head?.map Prod.snd = some '/' := by
    cases code <;> simp [List.cons_prefix_cons, eq_comm]
  have hfirst : c = '/' → (((i, c) :: code).takeWhile (·.2 != '\n')).map Prod.fst =
      i :: (code.takeWhile (·.2 != '\n')).map Prod.fst := by
    rintro rfl
    rw [List.takeWhile_cons_of_pos (by simp), List.map_cons]
  simp only [Commented, List.tails_cons, List.mem_cons, exists_eq_or_imp, hslashes]
  constructor
  · rintro (⟨hc, hn⟩ | h)
    · rw [hfirst hc.1] at hn
      exact .inl ⟨hc, List.mem_cons.1 hn⟩
    · exact .inr h
  · rintro (⟨hc, hn⟩ | h)
    · exact .inl ⟨hc, by rw [hfirst hc.1]; exact List.mem_cons.2 hn⟩
    · exact .inr h

theorem Commented.append {code : List (Nat × Char)} {n : Nat} (h : Commented code n)
    (front back : List (Nat × Char)) : Commented (front ++ (code ++ back)) n := by
  obtain ⟨t, ht, hslashes, hn⟩ := h
  obtain ⟨before, rfl⟩ := (List.mem_tails _ _).1 ht
  refine ⟨t ++ back, (List.mem_tails _ _).2 ⟨front ++ before, by simp⟩, ?_, ?_⟩
  · rw [List.map_append]
    exact hslashes.trans (List.prefix_append _ _)
  · rw [List.takeWhile_append]
    split
    · next hall =>
        have hwhole : t.takeWhile (·.2 != '\n') = t :=
          List.IsPrefix.eq_of_length (List.takeWhile_prefix _) hall
        rw [hwhole] at hn
        rw [List.map_append]
        exact List.mem_append_left _ hn
    · exact hn

theorem Commented.mem {code : List (Nat × Char)} {n : Nat} (h : Commented code n) :
    n ∈ code.map Prod.fst := by
  obtain ⟨t, ht, -, hn⟩ := h
  have hsublist : List.Sublist (t.takeWhile (·.2 != '\n')) code :=
    (List.takeWhile_sublist _).trans ((List.mem_tails _ _).1 ht).sublist
  exact (hsublist.map Prod.fst).subset hn

/-- The place is in a comment, or in the one that is open where the code starts. -/
def Passed (inComment : Bool) (code : List (Nat × Char)) (n : Nat) : Prop :=
  Commented code n ∨ inComment = true ∧ n ∈ (code.takeWhile (·.2 != '\n')).map Prod.fst

instance (inComment : Bool) (code : List (Nat × Char)) (n : Nat) :
    Decidable (Passed inComment code n) :=
  inferInstanceAs (Decidable (_ ∨ _))

section Step

variable {i n : Nat} {c : Char} {code : List (Nat × Char)}

theorem passed_true_cons (hn : n ≠ i) :
    Passed true ((i, c) :: code) n ↔ Passed (c != '\n') code n := by
  by_cases hc : c = '\n'
  · simp [Passed, commented_cons, hc]
  · simp only [Passed, commented_cons, List.mem_cons, hn, false_or, true_and, bne_iff_ne, ne_eq, hc,
      not_false_eq_true, List.takeWhile_cons_of_pos, List.map_cons]
    constructor
    · rintro ((⟨-, h⟩ | h) | h)
      exacts [.inr h, .inl h, .inr h]
    · rintro (h | h)
      exacts [.inl (.inr h), .inr h]

theorem passed_false_cons (hn : n ≠ i) :
    Passed false ((i, c) :: code) n ↔
      Passed (decide (c = '/' ∧ code.head?.map Prod.snd = some '/')) code n := by
  simp only [Passed, commented_cons, List.mem_cons, hn, false_or, Bool.false_eq_true, false_and,
    or_false, decide_eq_true_eq]
  exact or_comm

end Step

/-- Of the brackets, the search for comments leaves those that no comment covers. -/
theorem filter_outsideComments (inComment : Bool) {code : List (Nat × Char)}
    (h : (code.map Prod.fst).Nodup) :
    (outsideComments inComment code).filter isBracket =
      (code.filter isBracket).filter fun p => ¬ Passed inComment code p.1 := by
  induction code generalizing inComment with
  | nil => cases inComment <;> rfl
  | cons p code ih =>
      obtain ⟨i, c⟩ := p
      rw [List.map_cons, List.nodup_cons] at h
      have hlater : ∀ p ∈ code.filter isBracket, p.1 ≠ i := by
        rintro p hp rfl
        exact h.1 (List.mem_map.2 ⟨p, (List.mem_filter.1 hp).1, rfl⟩)
      cases inComment with
      | true =>
          rw [outsideComments, ih _ h.2, List.filter_cons]
          split
          · next hc =>
              have hnewline : c ≠ '\n' := by
                rintro rfl
                cases hc
              rw [List.filter_cons_of_neg (by simp [Passed, hnewline])]
              exact List.filter_congr fun p hp => by simp only [passed_true_cons (hlater p hp)]
          · exact List.filter_congr fun p hp => by simp only [passed_true_cons (hlater p hp)]
      | false =>
          rw [outsideComments]
          split
          · next hslash =>
              have hc : ¬ isBracket (i, c) = true := by
                rw [hslash.1]
                exact Bool.false_ne_true
              rw [ih _ h.2, List.filter_cons_of_neg hc]
              exact List.filter_congr fun p hp => by
                simp only [passed_false_cons (hlater p hp), hslash, and_self, decide_true]
          · next hslash =>
              have hhere : ¬ Passed false ((i, c) :: code) i := by
                rintro (hi | ⟨hf, -⟩)
                · rcases commented_cons.1 hi with hi | hi
                  · exact hslash hi.1
                  · exact h.1 hi.mem
                · cases hf
              have hrest : (code.filter isBracket).filter (fun p => ¬ Passed false code p.1) =
                  (code.filter isBracket).filter fun p => ¬ Passed false ((i, c) :: code) p.1 :=
                List.filter_congr fun p hp => by
                  simp only [passed_false_cons (hlater p hp), hslash, decide_false]
              rw [List.filter_cons, List.filter_cons, ih _ h.2, hrest]
              split
              · rw [List.filter_cons_of_pos (by simpa using hhere)]
              · rfl

theorem pairUp_outsideComments {code : List (Nat × Char)} (h : (code.map Prod.fst).Nodup) :
    pairUp [] (outsideComments false code) =
      pairUp [] ((code.filter isBracket).filter fun p => ¬ Commented code p.1) := by
  rw [← pairUp_filter, filter_outsideComments false h]
  simp [Passed]

/-- Without two neighbouring slashes there is no comment. -/
theorem outsideComments_of_isChain {code : List (Nat × Char)}
    (h : code.IsChain fun a b => ¬ (a.2 = '/' ∧ b.2 = '/')) : outsideComments false code = code := by
  induction code with
  | nil => rfl
  | cons p code ih =>
      obtain ⟨i, c⟩ := p
      rw [List.isChain_cons] at h
      have hplain : ¬ (c = '/' ∧ code.head?.map Prod.snd = some '/') := by
        rintro ⟨hc, hhead⟩
        obtain ⟨q, hq, hslash⟩ := Option.map_eq_some_iff.1 hhead
        exact h.1 q hq ⟨hc, hslash⟩
      rw [outsideComments, if_neg hplain, ih h.2]

theorem faults_blank (cs : Text) : faults (blank cs) = pairUp [] (codeChars (blank cs)) := by
  have hchain : (codeChars (blank cs)).IsChain fun a b => ¬ (a.2 = '/' ∧ b.2 = '/') := by
    rw [← List.isChain_map Prod.snd (R := fun a b => ¬ (a = '/' ∧ b = '/')), codeChars,
      map_snd_codeCharsFrom fun c hc => isQuote_of_mem_blank hc]
    exact uncommented_blank cs
  rw [faults, outsideComments_of_isChain hchain]

/-- Scanning goes on in code below a line that leaves no string open across its end. -/
theorem filter_codeCharsFrom_newline {p : Nat × Char → Bool} (hp : ∀ n, p (n, '\n') = false)
    {q : Quoting} {l : Text} (hl : (q.after l).next '\n' = .code) (offset : Nat) (below : Text) :
    (codeCharsFrom q offset (l ++ '\n' :: below)).filter p =
      (codeCharsFrom q offset l).filter p ++
        (codeCharsFrom .code (offset + width l + 1) below).filter p := by
  have hline : (codeCharsFrom (q.after l) (offset + width l) ['\n']).filter p = [] := by
    simp only [codeCharsFrom]
    split <;> simp [hp]
  rw [codeCharsFrom_append, List.filter_append, ← List.singleton_append, codeCharsFrom_append,
    List.filter_append, hline, List.nil_append, Quoting.after_cons, Quoting.after_nil, hl]
  rfl

theorem next_newline_after {l : Text} (hl : '\\' ∉ l) :
    (Quoting.code.after l).next '\n' = .code := by
  rcases List.eq_nil_or_concat' l with rfl | ⟨init, c, rfl⟩
  · rfl
  · have hc : c ≠ '\\' := by
      rintro rfl
      exact hl (by simp)
    rw [Quoting.after_append]
    exact Quoting.next_next_newline _ hc

section Blank

variable {p : Nat × Char → Bool} (hspace : ∀ n, p (n, ' ') = false)
include hspace

/-- Where a line's mask ends the code, the check sees a comment. -/
theorem filter_codeOnly {l : Text} (hl : '\n' ∉ l) (offset : Nat)
    (hp : ∀ n c, Commented (codeCharsFrom .code offset l) n → p (n, c) = false) :
    (codeCharsFrom .code offset (codeOnly .code l)).filter p =
      (codeCharsFrom .code offset l).filter p := by
  obtain ⟨kept, dropped, hcode, hdropped, hkept⟩ := exists_codeCharsFrom_codeOnly .code offset l
  have hnone : dropped.filter p = [] := by
    refine List.filter_eq_nil_iff.2 ?_
    rintro ⟨n, c⟩ hmem
    rcases hdropped with rfl | hslashes
    · cases hmem
    · have hwhole : dropped.takeWhile (·.2 != '\n') = dropped := by
        refine List.takeWhile_eq_self_iff.2 fun x hx => bne_iff_ne.2 fun he => hl ?_
        rw [← he]
        exact mem_of_mem_codeCharsFrom (hcode ▸ List.mem_append_right kept hx)
      have hhere : Commented dropped n := by
        refine ⟨dropped, (List.mem_tails _ _).2 (List.suffix_refl _), hslashes, ?_⟩
        rw [hwhole]
        exact List.mem_map.2 ⟨_, hmem, rfl⟩
      have hthere := hhere.append kept []
      rw [List.append_nil, ← hcode] at hthere
      rw [hp n c hthere]
      exact Bool.false_ne_true
  rw [hkept p hspace, hcode, List.filter_append, hnone, List.append_nil]

/-- The code outside comments is the same in the text and in its blank form, spaces and newlines
apart. -/
theorem filter_blank (hnewline : ∀ n, p (n, '\n') = false) {cs : Text} (hcs : '\\' ∉ cs)
    (offset : Nat) (hp : ∀ n c, Commented (codeCharsFrom .code offset cs) n → p (n, c) = false) :
    (codeCharsFrom .code offset (blank cs)).filter p =
      (codeCharsFrom .code offset cs).filter p := by
  induction cs using byLines generalizing offset with
  | last l hl =>
      rw [blank_of_not_mem hl, blankLine_eq_codeOnly hl]
      exact filter_codeOnly hspace hl offset hp
  | line l below hl ih =>
      have hback : '\\' ∉ l := fun h => hcs (List.mem_append_left _ h)
      have hback' : '\\' ∉ below := fun h => hcs (by simp [h])
      have hblank : (Quoting.code.after (codeOnly .code l)).next '\n' = .code :=
        next_newline_after fun h => (mem_codeOnly h).elim (by decide) fun h => hback h.1
      have hfront : ∀ n c, Commented (codeCharsFrom .code offset l) n → p (n, c) = false := by
        intro n c h
        refine hp n c ?_
        rw [codeCharsFrom_append]
        exact h.append [] _
      have hbelow : ∀ n c, Commented (codeCharsFrom .code (offset + width l + 1) below) n →
          p (n, c) = false := by
        intro n c h
        refine hp n c ?_
        rw [codeCharsFrom_append, ← List.singleton_append, codeCharsFrom_append,
          Quoting.after_cons, Quoting.after_nil, next_newline_after hback, ← List.append_assoc]
        have hthere := h.append (codeCharsFrom .code offset l ++
          codeCharsFrom (Quoting.code.after l) (offset + width l) ['\n']) []
        rwa [List.append_nil] at hthere
      rw [blank_append_newline hl, blankLine_eq_codeOnly hl,
        filter_codeCharsFrom_newline hnewline hblank,
        filter_codeCharsFrom_newline hnewline (next_newline_after hback), width_codeOnly,
        filter_codeOnly hspace hl offset hfront, ih hback' _ hbelow]

end Blank

/-- The check pairs up the brackets of the blank form less those in comments. -/
theorem faults_eq {cs : Text} (hcs : '\\' ∉ cs) :
    faults cs =
      pairUp [] ((codeChars (blank cs)).filter fun p => ¬ Commented (codeChars cs) p.1) := by
  have hsame := filter_blank (p := fun x => !decide (Commented (codeChars cs) x.1) && isBracket x)
    (fun n => Bool.and_false _) (fun n => Bool.and_false _) hcs 0
    fun n c h => by rw [decide_eq_true (show Commented (codeChars cs) n from h)]; rfl
  simp only [← List.filter_filter, ← decide_not] at hsame
  calc faults cs
      = pairUp [] (((codeChars cs).filter isBracket).filter
          fun p => ¬ Commented (codeChars cs) p.1) :=
        pairUp_outsideComments (nodup_codeCharsFrom _ _ _)
    _ = pairUp [] (((codeChars (blank cs)).filter isBracket).filter
          fun p => ¬ Commented (codeChars cs) p.1) :=
        congrArg (pairUp []) hsame.symm
    _ = pairUp [] ((codeChars (blank cs)).filter fun p => ¬ Commented (codeChars cs) p.1) := by
        rw [List.filter_comm, pairUp_filter]

def unexpected (file : FileId) (lines : LineMap) : Nat × Char → Diagnostic :=
  report file lines Diagnostic.unexpectedCloserCode
    fun c => "unexpected closing '" ++ String.singleton c ++ "'"

def unclosed (file : FileId) (lines : LineMap) : Nat × Char → Diagnostic :=
  report file lines Diagnostic.unclosedBracketCode
    fun c => "unclosed '" ++ String.singleton c ++ "'"

theorem check_eq (file : FileId) (cs : Text) :
    check file cs = (faults cs).closers.map (unexpected file (LineMap.ofText cs)) ++
      (faults cs).openers.map (unclosed file (LineMap.ofText cs)) :=
  rfl

/-- Every place keeps its position, so reports on a text can be read off its blank form. -/
theorem check_eq_of_blank (file : FileId) (cs : Text) :
    check file cs = (faults cs).closers.map (unexpected file (LineMap.ofText (blank cs))) ++
      (faults cs).openers.map (unclosed file (LineMap.ofText (blank cs))) := by
  have hreport : ∀ code message, report file (LineMap.ofText (blank cs)) code message =
      report file (LineMap.ofText cs) code message := by
    intro code message
    funext p
    simp only [report, LineMap.position_blank]
  rw [check_eq, unexpected, unclosed, unexpected, unclosed, hreport, hreport]

section Reports

variable {file : FileId} {lines : LineMap} {closers openers closers' openers' : List (Nat × Char)}

theorem eq_of_report_eq {code start : String} {p q : Nat × Char} (hplace : lines.position p.1 =
      lines.position q.1 → p.1 = q.1)
    (h : report file lines code (fun c => start ++ String.singleton c ++ "'") p =
      report file lines code (fun c => start ++ String.singleton c ++ "'") q) : p = q := by
  simp only [report, Diagnostic.mk.injEq] at h
  have hmessage := congrArg String.toList h.2.2.2.2.2.1
  simp only [String.toList_append, String.toList_singleton] at hmessage
  refine Prod.ext (hplace h.2.1) ?_
  simpa using hmessage

theorem eq_of_map_eq_map {α β : Type} {f : α → β} {as bs : List α}
    (hf : ∀ a ∈ as, ∀ b ∈ bs, f a = f b → a = b) (h : as.map f = bs.map f) : as = bs := by
  induction as generalizing bs with
  | nil => exact (List.map_eq_nil_iff.1 h.symm).symm
  | cons a as ih =>
      obtain ⟨b, bs, rfl, hb, hbs⟩ := List.map_eq_cons_iff.1 h.symm
      rw [hf a List.mem_cons_self b List.mem_cons_self hb.symm,
        ih (fun x hx y hy => hf x (List.mem_cons_of_mem a hx) y (List.mem_cons_of_mem b hy))
          hbs.symm]

/-- The codes tell the reports of closers from those of openers. -/
theorem reports_split
    (h : closers.map (unexpected file lines) ++ openers.map (unclosed file lines) =
      closers'.map (unexpected file lines) ++ openers'.map (unclosed file lines)) :
    closers.map (unexpected file lines) = closers'.map (unexpected file lines) ∧
      openers.map (unclosed file lines) = openers'.map (unclosed file lines) := by
  have hclosers : ∀ cs os : List (Nat × Char),
      (cs.map (unexpected file lines) ++ os.map (unclosed file lines)).filter
        (·.code = some Diagnostic.unexpectedCloserCode) = cs.map (unexpected file lines) := by
    intro cs os
    rw [List.filter_append, List.filter_eq_self.2, List.filter_eq_nil_iff.2, List.append_nil]
    · intro d hd
      obtain ⟨p, -, rfl⟩ := List.mem_map.1 hd
      simp [unclosed, report, Diagnostic.unclosedBracketCode, Diagnostic.unexpectedCloserCode]
    · intro d hd
      obtain ⟨p, -, rfl⟩ := List.mem_map.1 hd
      exact decide_eq_true rfl
  have hleft := congrArg (List.filter (·.code = some Diagnostic.unexpectedCloserCode)) h
  rw [hclosers, hclosers] at hleft
  rw [hleft] at h
  exact ⟨hleft, List.append_cancel_left h⟩

end Reports

theorem exists_split_of_mem_pairUp {cs : Text} {code : List (Nat × Char)}
    (hcode : code ⊆ codeChars cs) {p : Nat × Char}
    (h : p ∈ (pairUp [] code).closers ∨ p ∈ (pairUp [] code).openers) :
    ∃ a b, cs = a ++ b ∧ p.1 = width a := by
  have hmem : p ∈ code := (mem_of_mem_pairUp h).resolve_left List.not_mem_nil
  obtain ⟨a, b, hab, hn⟩ := exists_split_of_mem_codeCharsFrom (hcode hmem)
  exact ⟨a, _, hab, by rw [hn, Nat.zero_add]⟩

/-- Different brackets of a text are reported differently. -/
theorem pairUp_eq_of_reports_eq {file : FileId} {cs : Text} {code code' : List (Nat × Char)}
    (hcode : code ⊆ codeChars cs) (hcode' : code' ⊆ codeChars cs)
    (h : (pairUp [] code).closers.map (unexpected file (LineMap.ofText cs)) ++
        (pairUp [] code).openers.map (unclosed file (LineMap.ofText cs)) =
      (pairUp [] code').closers.map (unexpected file (LineMap.ofText cs)) ++
        (pairUp [] code').openers.map (unclosed file (LineMap.ofText cs))) :
    pairUp [] code = pairUp [] code' := by
  have hplace : ∀ {p q : Nat × Char},
      p ∈ (pairUp [] code).closers ∨ p ∈ (pairUp [] code).openers →
      q ∈ (pairUp [] code').closers ∨ q ∈ (pairUp [] code').openers →
      (LineMap.ofText cs).position p.1 = (LineMap.ofText cs).position q.1 → p.1 = q.1 := by
    intro p q hp hq hpos
    obtain ⟨a, b, rfl, hpa⟩ := exists_split_of_mem_pairUp hcode hp
    obtain ⟨a', b', hab, hqa⟩ := exists_split_of_mem_pairUp hcode' hq
    rw [hpa, hqa] at hpos ⊢
    exact LineMap.width_eq_of_position_eq hab hpos
  obtain ⟨hclosers, hopeners⟩ := reports_split h
  have hclosers : (pairUp [] code).closers = (pairUp [] code').closers :=
    eq_of_map_eq_map (fun p hp q hq => eq_of_report_eq (hplace (.inl hp) (.inl hq))) hclosers
  have hopeners : (pairUp [] code).openers = (pairUp [] code').openers :=
    eq_of_map_eq_map (fun p hp q hq => eq_of_report_eq (hplace (.inr hp) (.inr hq))) hopeners
  calc pairUp [] code
      = ⟨(pairUp [] code).closers, (pairUp [] code).openers⟩ := rfl
    _ = pairUp [] code' := by rw [hclosers, hopeners]

/-- Bracket checking sees no difference between a text and its blank form exactly when the brackets
of the blank form pair up the same without those that stand in comments of the code characters. -/
theorem check_eq_check_blank_iff (file : FileId) (cs : Text) (hcs : '\\' ∉ cs) :
    check file cs = check file (blank cs) ↔
      pairUp [] ((codeChars (blank cs)).filter fun p => ¬ Commented (codeChars cs) p.1) =
        pairUp [] (codeChars (blank cs)) := by
  rw [check_eq_of_blank, check_eq, faults_blank, faults_eq hcs]
  constructor
  · exact pairUp_eq_of_reports_eq (List.filter_subset_self _) (List.Subset.refl _)
  · intro h
    rw [h]

def apostropheComment : Text := "// it's\n\x7d\n".toList

theorem check_differs_apostropheComment :
    '\\' ∉ apostropheComment ∧
      check ⟨0⟩ apostropheComment ≠ check ⟨0⟩ (blank apostropheComment) ∧
      pairUp [] ((codeChars (blank apostropheComment)).filter
          fun p => ¬ Commented (codeChars apostropheComment) p.1) ≠
        pairUp [] (codeChars (blank apostropheComment)) := by
  have hlaw := check_eq_check_blank_iff ⟨0⟩ apostropheComment (by decide)
  have hfaults : pairUp [] ((codeChars (blank apostropheComment)).filter
      fun p => ¬ Commented (codeChars apostropheComment) p.1) ≠
        pairUp [] (codeChars (blank apostropheComment)) := by decide
  exact ⟨by decide, fun h => hfaults (hlaw.1 h), hfaults⟩

end Brackets
end ProcedureIndex
