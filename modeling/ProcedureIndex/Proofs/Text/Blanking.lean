import Mathlib.Data.List.Chain
import ProcedureIndex.Text.CodeMask
import ProcedureIndex.Proofs.Text.Braces
import ProcedureIndex.Proofs.Text.Positions

/-!
Texts with their strings and comments written over by spaces. Each line is judged by its
own mask; read in one pass, the mask is the state of the scan for strings, stopped at the
first two slashes in code. What is left has no strings and no comments, and every place
keeps its position.
-/

namespace ProcedureIndex
namespace Text

/-- Texts line by line: a last line, or a line with a text below it. -/
@[elab_as_elim]
theorem byLines {motive : Text → Prop} (last : ∀ l, '\n' ∉ l → motive l)
    (line : ∀ l below, '\n' ∉ l → motive below → motive (l ++ '\n' :: below)) (cs : Text) :
    motive cs := by
  -- The front is the part of the current line that has been read.
  have hfront : ∀ front, '\n' ∉ front → motive (front ++ cs) := by
    induction cs with
    | nil =>
        intro front hfront
        rw [List.append_nil]
        exact last front hfront
    | cons c cs ih =>
        intro front hfront
        by_cases hc : c = '\n'
        · rw [hc]
          exact line front cs hfront (ih [] (by simp))
        · rw [List.append_cons]
          exact ih (front ++ [c]) (by simp [hfront, Ne.symm hc])
  exact hfront [] (by simp)

/-- A text that starts at `offset`, its characters at places that are not kept written over. -/
def keepWhere (keep : Nat → Bool) : Nat → Text → Text
  | _, [] => []
  | offset, c :: cs =>
      (if keep offset then [c] else List.replicate c.utf8Size ' ') ++
        keepWhere keep (offset + c.utf8Size) cs

def blankLine (line : Text) : Text :=
  keepWhere (CodeMask.ofLine line).isCode 0 line

/-- A text with the strings and the comment of each line written over. -/
def blank (cs : Text) : Text :=
  ['\n'].intercalate ((lines cs).map blankLine)

theorem blank_of_not_mem {l : Text} (hl : '\n' ∉ l) : blank l = blankLine l := by
  simp [blank, lines_of_not_mem hl]

theorem blank_append_newline {l : Text} (hl : '\n' ∉ l) (below : Text) :
    blank (l ++ '\n' :: below) = blankLine l ++ '\n' :: blank below := by
  obtain ⟨m, ms, hm⟩ := List.exists_cons_of_ne_nil (lines_ne_nil below)
  rw [blank, blank, lines_append_newline hl, hm, List.map_cons, List.map_cons,
    List.intercalate_cons_cons, List.append_assoc]
  rfl

theorem keepWhere_congr {keep keep' : Nat → Bool} {offset : Nat}
    (h : ∀ n, offset ≤ n → keep n = keep' n) (cs : Text) :
    keepWhere keep offset cs = keepWhere keep' offset cs := by
  induction cs generalizing offset with
  | nil => rfl
  | cons c cs ih =>
      rw [keepWhere, keepWhere, h offset (Nat.le_refl _),
        ih fun n hn => h n (Nat.le_of_add_right_le hn)]

theorem keepWhere_false (offset : Nat) (cs : Text) :
    keepWhere (fun _ => false) offset cs = List.replicate (width cs) ' ' := by
  induction cs generalizing offset with
  | nil => rfl
  | cons c cs ih =>
      rw [keepWhere, ih, if_neg Bool.false_ne_true, List.replicate_append_replicate, width_cons]

/-- What is code in a line that a scan for strings enters in state `q`; the rest is written over,
from the first two slashes in code to the end. -/
def codeOnly : Quoting → Text → Text
  | _, [] => []
  | q, c :: cs =>
      if q = .code ∧ c = '/' ∧ cs.head? = some '/' then List.replicate (width (c :: cs)) ' '
      else (if q.isCode c then [c] else List.replicate c.utf8Size ' ') ++ codeOnly (q.next c) cs

end Text

namespace CodeMask

open Text

namespace Stage

def quoting : Stage → Quoting
  | .code => .code
  | .within q _ => .within q
  | .hidden q _ => .hidden q

def opened : Stage → Option Nat
  | .code => none
  | .within _ start | .hidden _ start => some start

def next (offset : Nat) (c : Char) : Stage → Stage
  | .code => if Quoting.isQuote c then .within c offset else .code
  | .within q start =>
      if c = '\\' then .hidden q start else if c = q then .code else .within q start
  | .hidden q start => .within q start

theorem quoting_next {c : Char} (hc : c ≠ '\n') (offset : Nat) (stage : Stage) :
    (stage.next offset c).quoting = stage.quoting.next c := by
  cases stage with
  | code =>
      rw [next, apply_ite quoting]
      rfl
  | within q start =>
      rw [next, apply_ite quoting, apply_ite quoting]
      simp only [quoting, Quoting.next, hc, or_false]
  | hidden q start => rfl

theorem opened_next {offset start : Nat} {c : Char} {stage : Stage}
    (hopened : ∀ start ∈ stage.opened, start ≤ offset)
    (h : start ∈ (stage.next offset c).opened) : start ≤ offset := by
  cases stage with
  | code =>
      simp only [next] at h
      split at h
      · cases h
        exact Nat.le_refl _
      · cases h
  | within q s =>
      simp only [next] at h
      split at h
      · exact hopened start h
      · split at h
        · cases h
        · exact hopened start h
  | hidden q s => exact hopened start h

end Stage

/-- Before the place that a scan has come to, only the string it stands in is not code. -/
theorem isCode_scan_of_lt {n offset : Nat} (hn : n < offset) (stage : Stage) (cs : Text) :
    (scan stage offset cs).isCode n = !(stage.opened.any (· ≤ n)) := by
  induction cs generalizing stage offset with
  | nil => cases stage <;> simp [scan, isCode, Stage.opened, hn]
  | cons c cs ih =>
      have hlater : n < offset + c.utf8Size := Nat.lt_add_right _ hn
      cases stage with
      | code =>
          rw [scan]
          split
          · rw [ih hlater]
            simp [Stage.opened, hn]
          · split
            · simp [isCode, Stage.opened, hn]
            · exact ih hlater .code
      | within q start =>
          rw [scan]
          split
          · exact ih hlater (.hidden q start)
          · split
            · have hrest := ih hlater .code
              simp only [isCode, Stage.opened, Option.any_none, Bool.not_false,
                Bool.and_eq_true] at hrest
              have hbefore : n < offset + 1 := Nat.lt_succ_of_lt hn
              simp [isCode, hrest.1, hrest.2, Stage.opened, hbefore]
            · exact ih hlater (.within q start)
      | hidden q start =>
          rw [scan]
          exact ih hlater (.within q start)

section Step

variable {stage : Stage} {offset : Nat} {c : Char} {cs : Text}

/-- A character is code by the mask if it is code for the scan for strings, comments apart. -/
theorem isCode_scan_self (hopened : ∀ start ∈ stage.opened, start ≤ offset)
    (hplain : ¬ (stage.quoting = .code ∧ c = '/' ∧ cs.head? = some '/')) :
    (scan stage offset (c :: cs)).isCode offset = stage.quoting.isCode c := by
  have hlater : offset < offset + c.utf8Size := Nat.lt_add_of_pos_right c.utf8Size_pos
  cases stage with
  | code =>
      rw [scan]
      split
      · next hquote =>
          rw [isCode_scan_of_lt hlater]
          simp [Stage.opened, Stage.quoting, Quoting.isCode, hquote]
      · next hquote =>
          rw [if_neg fun h => hplain ⟨rfl, h⟩, isCode_scan_of_lt hlater]
          simp [Stage.opened, Stage.quoting, Quoting.isCode, hquote]
  | within q start =>
      have hstart : start ≤ offset := hopened start rfl
      rw [scan]
      split
      · rw [isCode_scan_of_lt hlater]
        simp [Stage.opened, Stage.quoting, Quoting.isCode, hstart]
      · split
        · simp [isCode, Stage.quoting, Quoting.isCode, hstart]
        · rw [isCode_scan_of_lt hlater]
          simp [Stage.opened, Stage.quoting, Quoting.isCode, hstart]
  | hidden q start =>
      rw [scan, isCode_scan_of_lt hlater]
      simp [Stage.opened, Stage.quoting, Quoting.isCode, hopened start rfl]

theorem isCode_scan_later (hplain : ¬ (stage.quoting = .code ∧ c = '/' ∧ cs.head? = some '/'))
    {n : Nat} (hn : offset + c.utf8Size ≤ n) :
    (scan stage offset (c :: cs)).isCode n =
      (scan (stage.next offset c) (offset + c.utf8Size) cs).isCode n := by
  cases stage with
  | code =>
      rw [scan, Stage.next]
      split
      · rfl
      · rw [if_neg fun h => hplain ⟨rfl, h⟩]
  | within q start =>
      rw [scan, Stage.next]
      split
      · rfl
      · split
        · have hclosed : ¬ n < offset + 1 := by
            have hpos := c.utf8Size_pos
            omega
          simp [isCode, hclosed]
        · rfl
  | hidden q start => rfl

end Step

theorem isCode_scan_comment {offset n : Nat} (hn : offset ≤ n) {c : Char} {cs : Text}
    (hcomment : c = '/' ∧ cs.head? = some '/') :
    (scan .code offset (c :: cs)).isCode n = false := by
  obtain ⟨rfl, hhead⟩ := hcomment
  have hquote : ¬ Quoting.isQuote '/' = true := by decide
  simp [scan, hquote, hhead, isCode, hn]

/-- Writing over what the mask takes out is one pass of the scan for strings. -/
theorem keepWhere_scan {cs : Text} (hcs : '\n' ∉ cs) (stage : Stage) {offset : Nat}
    (hopened : ∀ start ∈ stage.opened, start ≤ offset) :
    keepWhere (scan stage offset cs).isCode offset cs = codeOnly stage.quoting cs := by
  induction cs generalizing stage offset with
  | nil => rfl
  | cons c cs ih =>
      rw [List.mem_cons, not_or] at hcs
      rw [codeOnly]
      split
      · next hcomment =>
          cases stage with
          | within q start | hidden q start => cases hcomment.1
          | code =>
              rw [keepWhere_congr fun n hn => isCode_scan_comment hn hcomment.2, keepWhere_false]
      · next hplain =>
          have hlate : ∀ start ∈ (stage.next offset c).opened, start ≤ offset + c.utf8Size :=
            fun start hs => Nat.le_add_right_of_le (Stage.opened_next hopened hs)
          rw [keepWhere, isCode_scan_self hopened hplain,
            keepWhere_congr fun n hn => isCode_scan_later hplain hn,
            ih hcs.2 (stage.next offset c) hlate, Stage.quoting_next (Ne.symm hcs.1)]

end CodeMask

namespace Text

theorem blankLine_eq_codeOnly {l : Text} (hl : '\n' ∉ l) : blankLine l = codeOnly .code l :=
  CodeMask.keepWhere_scan hl .code (by simp [CodeMask.Stage.opened])

theorem width_replicate_space (n : Nat) : width (List.replicate n ' ') = n := by
  induction n with
  | zero => rfl
  | succ n ih =>
      rw [List.replicate_succ, width_cons, ih, show (' ' : Char).utf8Size = 1 from rfl,
        Nat.add_comm]

@[simp] theorem width_codeOnly (q : Quoting) (cs : Text) : width (codeOnly q cs) = width cs := by
  induction cs generalizing q with
  | nil => rfl
  | cons c cs ih =>
      rw [codeOnly]
      split
      · exact width_replicate_space _
      · split <;> simp [ih, width_replicate_space]

theorem Quoting.isCode_eq_true {q : Quoting} {c : Char} (h : q.isCode c = true) :
    q = .code ∧ isQuote c = false := by
  cases q with
  | code => exact ⟨rfl, by simpa [isCode] using h⟩
  | within q | hidden q => cases h

/-- Only spaces are new, and what is kept is code. -/
theorem mem_codeOnly {q : Quoting} {c : Char} {cs : Text} (h : c ∈ codeOnly q cs) :
    c = ' ' ∨ c ∈ cs ∧ Quoting.isQuote c = false := by
  induction cs generalizing q with
  | nil => cases h
  | cons d cs ih =>
      rw [codeOnly] at h
      split at h
      · exact .inl (List.eq_of_mem_replicate h)
      · rcases List.mem_append.1 h with h | h
        · split at h
          · next hd =>
              cases List.mem_singleton.1 h
              exact .inr ⟨List.mem_cons_self, (Quoting.isCode_eq_true hd).2⟩
          · exact .inl (List.eq_of_mem_replicate h)
        · exact (ih h).imp id fun h => ⟨List.mem_cons_of_mem d h.1, h.2⟩

theorem newline_not_mem_codeOnly {q : Quoting} {cs : Text} (h : '\n' ∉ cs) :
    '\n' ∉ codeOnly q cs := by
  intro hmem
  rcases mem_codeOnly hmem with hspace | hmem
  · cases hspace
  · exact h hmem.1

def Uncommented (cs : Text) : Prop :=
  cs.IsChain fun a b => ¬ (a = '/' ∧ b = '/')

theorem uncommented_spaces (n : Nat) : Uncommented (List.replicate n ' ') :=
  List.isChain_replicate_of_rel n (by decide)

theorem getLast?_spaces {n : Nat} {a : Char} (h : a ∈ (List.replicate n ' ').getLast?) : a = ' ' :=
  List.eq_of_mem_replicate (List.mem_of_getLast? h)

theorem head?_codeOnly {q : Quoting} {cs : Text} (h : (codeOnly q cs).head? = some '/') :
    cs.head? = some '/' := by
  cases cs with
  | nil => cases h
  | cons c cs =>
      rw [codeOnly] at h
      split at h
      · have hspace := List.eq_of_mem_replicate (List.mem_of_head? h)
        cases hspace
      · split at h
        · exact h
        · have hsize : c.utf8Size ≠ 0 := Nat.ne_of_gt c.utf8Size_pos
          rw [List.head?_append, List.head?_replicate, if_neg hsize] at h
          cases h

theorem uncommented_codeOnly (q : Quoting) (cs : Text) : Uncommented (codeOnly q cs) := by
  induction cs generalizing q with
  | nil => exact List.isChain_nil
  | cons c cs ih =>
      rw [codeOnly]
      split
      · exact uncommented_spaces _
      · next hplain =>
          split
          · next hcode =>
              refine List.isChain_cons.2 ⟨?_, ih _⟩
              rintro b hb ⟨rfl, rfl⟩
              exact hplain ⟨(Quoting.isCode_eq_true hcode).1, rfl, head?_codeOnly hb⟩
          · refine List.isChain_append.2 ⟨uncommented_spaces _, ih _, ?_⟩
            rintro a ha b - ⟨rfl, -⟩
            cases getLast?_spaces ha

theorem uncommented_blank (cs : Text) : Uncommented (blank cs) := by
  induction cs using byLines with
  | last l hl =>
      rw [blank_of_not_mem hl, blankLine_eq_codeOnly hl]
      exact uncommented_codeOnly _ _
  | line l below hl ih =>
      rw [blank_append_newline hl, blankLine_eq_codeOnly hl]
      refine List.isChain_append.2 ⟨uncommented_codeOnly _ _, List.isChain_cons.2 ⟨?_, ih⟩, ?_⟩
      · rintro b - ⟨h, -⟩
        cases h
      · rintro a - b hb ⟨-, rfl⟩
        cases hb

theorem isQuote_of_mem_blank {cs : Text} {c : Char} (h : c ∈ blank cs) :
    Quoting.isQuote c = false := by
  have hcodeOnly : ∀ {l}, c ∈ codeOnly .code l → Quoting.isQuote c = false := by
    intro l hc
    rcases mem_codeOnly hc with rfl | hc
    · rfl
    · exact hc.2
  induction cs using byLines with
  | last l hl =>
      rw [blank_of_not_mem hl, blankLine_eq_codeOnly hl] at h
      exact hcodeOnly h
  | line l below hl ih =>
      rw [blank_append_newline hl, blankLine_eq_codeOnly hl, List.mem_append, List.mem_cons] at h
      rcases h with h | rfl | h
      · exact hcodeOnly h
      · rfl
      · exact ih h

theorem width_lines_blank (cs : Text) : (lines (blank cs)).map width = (lines cs).map width := by
  induction cs using byLines with
  | last l hl =>
      rw [blank_of_not_mem hl, blankLine_eq_codeOnly hl,
        lines_of_not_mem (newline_not_mem_codeOnly hl), lines_of_not_mem hl]
      simp
  | line l below hl ih =>
      rw [blank_append_newline hl, blankLine_eq_codeOnly hl,
        lines_append_newline (newline_not_mem_codeOnly hl), lines_append_newline hl]
      simp [ih]

theorem after_of_no_quote {cs : Text} (h : ∀ c ∈ cs, Quoting.isQuote c = false) :
    Quoting.code.after cs = .code :=
  after_eq_self fun c hc => by simp [Quoting.next, h c hc]

theorem codeCharsFrom_cons_of_no_quote {c : Char} (hc : Quoting.isQuote c = false) (offset : Nat)
    (cs : Text) :
    codeCharsFrom .code offset (c :: cs) =
      (offset, c) :: codeCharsFrom .code (offset + c.utf8Size) cs := by
  simp [codeCharsFrom, Quoting.isCode, Quoting.next, hc]

/-- Without a quote every character is code. -/
theorem map_snd_codeCharsFrom {cs : Text} (h : ∀ c ∈ cs, Quoting.isQuote c = false)
    (offset : Nat) : (codeCharsFrom .code offset cs).map Prod.snd = cs := by
  induction cs generalizing offset with
  | nil => rfl
  | cons c cs ih =>
      rw [codeCharsFrom_cons_of_no_quote (h c (by simp)), List.map_cons,
        ih fun d hd => h d (by simp [hd])]

/-- A code character stands in the text at its place. -/
theorem exists_split_of_mem_codeCharsFrom {q : Quoting} {offset n : Nat} {c : Char} {cs : Text}
    (h : (n, c) ∈ codeCharsFrom q offset cs) :
    ∃ a b, cs = a ++ c :: b ∧ n = offset + width a := by
  induction cs generalizing q offset with
  | nil => cases h
  | cons d cs ih =>
      have hlater : (n, c) ∈ codeCharsFrom (q.next d) (offset + d.utf8Size) cs →
          ∃ a b, d :: cs = a ++ c :: b ∧ n = offset + width a := by
        intro hmem
        obtain ⟨a, b, rfl, rfl⟩ := ih hmem
        exact ⟨d :: a, b, rfl, by rw [width_cons, Nat.add_assoc]⟩
      simp only [codeCharsFrom] at h
      split at h
      · rcases List.mem_cons.1 h with h | h
        · cases h
          exact ⟨[], cs, rfl, rfl⟩
        · exact hlater h
      · exact hlater h

theorem mem_of_mem_codeCharsFrom {q : Quoting} {offset n : Nat} {c : Char} {cs : Text}
    (h : (n, c) ∈ codeCharsFrom q offset cs) : c ∈ cs := by
  obtain ⟨a, b, rfl, -⟩ := exists_split_of_mem_codeCharsFrom h
  simp

theorem nodup_codeCharsFrom (q : Quoting) (offset : Nat) (cs : Text) :
    ((codeCharsFrom q offset cs).map Prod.fst).Nodup :=
  (codeCharsFrom_pairwise q offset cs).imp Nat.ne_of_lt

theorem filter_codeCharsFrom_spaces {p : Nat × Char → Bool} (hp : ∀ n, p (n, ' ') = false)
    (q : Quoting) (offset n : Nat) :
    (codeCharsFrom q offset (List.replicate n ' ')).filter p = [] := by
  refine List.filter_eq_nil_iff.2 ?_
  rintro ⟨i, c⟩ hc
  rw [List.eq_of_mem_replicate (mem_of_mem_codeCharsFrom hc), hp]
  exact Bool.false_ne_true

/-- Of the code of a line only an end is written over, and that end starts with two slashes. -/
theorem exists_codeCharsFrom_codeOnly (q : Quoting) (offset : Nat) (cs : Text) :
    ∃ kept dropped, codeCharsFrom q offset cs = kept ++ dropped ∧
      (dropped = [] ∨ ['/', '/'] <+: dropped.map Prod.snd) ∧
      ∀ p : Nat × Char → Bool, (∀ n, p (n, ' ') = false) →
        (codeCharsFrom .code offset (codeOnly q cs)).filter p = kept.filter p := by
  induction cs generalizing q offset with
  | nil => exact ⟨[], [], rfl, .inl rfl, fun _ _ => rfl⟩
  | cons c cs ih =>
      rw [codeOnly]
      split
      · next hcomment =>
          obtain ⟨rfl, rfl, hhead⟩ := hcomment
          obtain ⟨d, ds, rfl⟩ : ∃ d ds, cs = d :: ds := by
            cases cs with
            | nil => cases hhead
            | cons d ds => exact ⟨d, ds, rfl⟩
          cases hhead
          refine ⟨[], _, rfl, .inr ?_, fun p hp => filter_codeCharsFrom_spaces hp _ _ _⟩
          exact ⟨_, rfl⟩
      · obtain ⟨kept, dropped, hrest, hdropped, hkept⟩ := ih (q.next c) (offset + c.utf8Size)
        rw [codeCharsFrom, hrest]
        split
        · next hcode =>
            refine ⟨(offset, c) :: kept, dropped, rfl, hdropped, fun p hp => ?_⟩
            rw [List.singleton_append,
              codeCharsFrom_cons_of_no_quote (Quoting.isCode_eq_true hcode).2, List.filter_cons,
              List.filter_cons, hkept p hp]
        · refine ⟨kept, dropped, rfl, hdropped, fun p hp => ?_⟩
          have hspaces : Quoting.code.after (List.replicate c.utf8Size ' ') = .code :=
            after_of_no_quote fun d hd => by rw [List.eq_of_mem_replicate hd]; rfl
          rw [codeCharsFrom_append, List.filter_append, filter_codeCharsFrom_spaces hp, hspaces,
            width_replicate_space, hkept p hp, List.nil_append]

end Text

namespace LineMap

theorem locate_cons_cons (l m : Text) (ms : List Text) (n : Nat) :
    locate (l :: m :: ms) n =
      if n ≤ Text.width l then ⟨0, n⟩
      else
        ⟨(locate (m :: ms) (n - Text.width l - 1)).line + 1,
          (locate (m :: ms) (n - Text.width l - 1)).col⟩ :=
  rfl

/-- Positions see of the lines only how wide they are. -/
theorem locate_congr {ls ls' : List Text} (h : ls.map Text.width = ls'.map Text.width) (n : Nat) :
    locate ls n = locate ls' n := by
  induction ls generalizing ls' n with
  | nil => rw [List.map_eq_nil_iff.1 h.symm]
  | cons l ls ih =>
      obtain ⟨l', ls', rfl, hl, hls⟩ := List.map_eq_cons_iff.1 h.symm
      cases ls with
      | nil => rw [List.map_eq_nil_iff.1 hls, locate, locate, hl]
      | cons m ms =>
          obtain ⟨m', ms', rfl, -, -⟩ := List.map_eq_cons_iff.1 hls
          rw [locate_cons_cons, locate_cons_cons, hl, ih hls.symm]

theorem position_blank (cs : Text) (n : Nat) :
    (ofText (Text.blank cs)).position n = (ofText cs).position n :=
  locate_congr (Text.width_lines_blank cs) n

end LineMap
end ProcedureIndex
