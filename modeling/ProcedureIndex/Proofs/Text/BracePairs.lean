import ProcedureIndex.Proofs.Text.Openings

/-!
Closing braces against open ones. A body that starts in code either ends in front of the brace
that closes it, and then its own braces pair up, or reaches to the end of the text, and then
it never gets below the depth at which it starts. In the first case the stack of open
braces is behind the body what it was in front of it, in the second the brace in front of the
body stays on the stack.
-/

namespace ProcedureIndex
namespace Text

/-- The code characters of a text that a scan enters in state `q`, their places left out. -/
def codeFrom (q : Quoting) (cs : Text) : List Char :=
  (codeCharsFrom q 0 cs).map Prod.snd

theorem map_snd_codeCharsFrom_eq (q : Quoting) (offset : Nat) (cs : Text) :
    (codeCharsFrom q offset cs).map Prod.snd = codeFrom q cs :=
  map_snd_codeCharsFrom_congr q offset 0 cs

theorem codeFrom_cons (q : Quoting) (c : Char) (cs : Text) :
    codeFrom q (c :: cs) =
      if q.isCode c then c :: codeFrom (q.next c) cs else codeFrom (q.next c) cs := by
  rw [codeFrom, codeCharsFrom]
  split
  · rw [List.map_cons, map_snd_codeCharsFrom_eq]
  · exact map_snd_codeCharsFrom_eq ..

theorem codeFrom_append (q : Quoting) (a b : Text) :
    codeFrom q (a ++ b) = codeFrom q a ++ codeFrom (q.after a) b := by
  rw [codeFrom, codeCharsFrom_append, List.map_append, map_snd_codeCharsFrom_eq,
    map_snd_codeCharsFrom_eq]

theorem depth?_eq (o c : Char) (cs : Text) : depth? o c cs = depthFrom o c 0 (codeFrom .code cs) :=
  rfl

/-- How a body ends that a scan enters in state `q` with `d` more braces to close: in front of the
brace that closes it, or with the text, none of the braces to close being reached. -/
inductive BodyEnds (q : Quoting) (d : Nat) (cs : Text) : Prop
  | closed (back : Text) (split : cs = untilClosed q (d + 1) cs ++ '}' :: back)
      (code : q.after (untilClosed q (d + 1) cs) = .code)
      (depth : depthFrom '{' '}' d (codeFrom q (untilClosed q (d + 1) cs)) = some 0)
  | unclosed (e : Nat) (whole : untilClosed q (d + 1) cs = cs)
      (depth : depthFrom '{' '}' d (codeFrom q cs) = some e)

/-- A character that does not end the body takes the depth from `d` to `d'`. -/
theorem BodyEnds.cons {q : Quoting} {d d' : Nat} {c : Char} {cs : Text}
    (h : BodyEnds (q.next c) d' cs)
    (hbody : untilClosed q (d + 1) (c :: cs) = c :: untilClosed (q.next c) (d' + 1) cs)
    (hdepth : ∀ m, depthFrom '{' '}' d (codeFrom q (c :: m)) =
      depthFrom '{' '}' d' (codeFrom (q.next c) m)) :
    BodyEnds q d (c :: cs) := by
  cases h with
  | closed back split code depth =>
      refine .closed back ?_ ?_ ?_
      · rw [hbody, List.cons_append, ← split]
      · rw [hbody, Quoting.after_cons, code]
      · rw [hbody, hdepth, depth]
  | unclosed e whole depth =>
      refine .unclosed e ?_ ?_
      · rw [hbody, whole]
      · rw [hdepth, depth]

theorem bodyEnds (q : Quoting) (d : Nat) (cs : Text) : BodyEnds q d cs := by
  induction cs generalizing q d with
  | nil => exact .unclosed d rfl rfl
  | cons c cs ih =>
      by_cases hclose : (q.isCode c && c == '}') = true
      · obtain ⟨hcode, rfl⟩ : q.isCode c = true ∧ c = '}' := by simpa using hclose
        cases d with
        | zero =>
            have hbody : untilClosed q (0 + 1) ('}' :: cs) = [] := by
              rw [untilClosed, if_pos hclose, if_pos (Nat.le_refl 1)]
            cases q with
            | code =>
                refine .closed cs ?_ ?_ ?_ <;>
                  rw [hbody] <;>
                  rfl
            | within q | hidden q => cases hcode
        | succ d =>
            apply (ih (q.next '}') d).cons
            · rw [untilClosed, if_pos hclose, if_neg (by omega)]
              rfl
            · intro m
              rw [codeFrom_cons, if_pos hcode]
              rfl
      · by_cases hopen : (q.isCode c && c == '{') = true
        · obtain ⟨hcode, rfl⟩ : q.isCode c = true ∧ c = '{' := by simpa using hopen
          apply (ih (q.next '{') (d + 1)).cons
          · rw [untilClosed, if_neg hclose, if_pos hopen]
          · intro m
            rw [codeFrom_cons, if_pos hcode]
            rfl
        · apply (ih (q.next c) d).cons
          · rw [untilClosed, if_neg hclose, if_neg hopen]
          · intro m
            rw [codeFrom_cons]
            split
            · next hcode =>
                have hmarks : c ≠ '{' ∧ c ≠ '}' := by simp_all
                rw [depthFrom, if_neg hmarks.1, if_neg hmarks.2]
            · rfl

section Stack

variable {o c : Char}

/-- The places on the stack are among those that were there and those that came, in their order. -/
theorem foldl_stackMark_sublist (w : List (Nat × Char)) (stack : List Nat) :
    (w.foldl (stackMark o c) stack).reverse.Sublist (stack.reverse ++ w.map Prod.fst) := by
  induction w generalizing stack with
  | nil => simp
  | cons p w ih =>
      rw [List.foldl_cons, List.map_cons]
      apply (ih (stackMark o c stack p)).trans
      rw [← List.singleton_append, ← List.append_assoc]
      apply List.Sublist.append_right
      rw [stackMark]
      split
      · rw [List.reverse_cons]
      · split
        · exact (List.tail_sublist stack).reverse.trans (List.sublist_append_left ..)
        · exact List.sublist_append_left ..

end Stack

/-- Characters that stand outside a range leave nothing between its ends. -/
theorem filter_codeCharsFrom_eq_nil (q : Quoting) {offset lo hi : Nat} {cs : Text}
    (h : offset + width cs ≤ lo ∨ hi < offset) :
    ((codeCharsFrom q offset cs).filter fun p => lo < p.1 && p.1 < hi) = [] := by
  rw [List.filter_eq_nil_iff]
  intro p hp hbetween
  have hbounds := bounds_of_mem_codeCharsFrom hp
  rw [Bool.and_eq_true, decide_eq_true_eq, decide_eq_true_eq] at hbetween
  omega

theorem unclosedBraces_pairwise (cs : Text) : (unclosedBraces cs).Pairwise (· < ·) := by
  rw [unclosedBraces, openBraces, stackBrace_eq]
  exact (codeCharsFrom_pairwise .code 0 cs).sublist (foldl_stackMark_sublist (codeChars cs) [])

theorem matchingBrace_append (pre post : Text) :
    matchingBrace (pre ++ '{' :: post) (width pre) =
      .ok (width pre + 1 + width (untilClosed .code 1 post)) := by
  have hbody : untilClosed .code 0 ('{' :: post) = '{' :: untilClosed .code 1 post := rfl
  rw [matchingBrace, if_pos (isBoundary_width _ _), dropBytes_width_append, hbody, width_cons,
    Nat.add_assoc]
  rfl

/-- Behind `pre` a brace opens a body in code, and the next brace behind the body closes it. -/
structure Enclosed (cs pre body back : Text) : Prop where
  split : cs = pre ++ '{' :: (body ++ '}' :: back)
  code : Quoting.code.after pre = .code
  inside : Quoting.code.after body = .code
  depth : depth? '{' '}' body = some 0

namespace Enclosed

variable {cs pre body back : Text}

theorem codeChars_eq (h : Enclosed cs pre body back) :
    codeChars cs = codeChars pre ++ (width pre, '{') ::
      (codeCharsFrom .code (width pre + 1) body ++ (width pre + 1 + width body, '}') ::
        codeCharsFrom .code (width pre + 1 + width body + 1) back) := by
  rw [h.split, codeChars, codeCharsFrom_append, h.code, Nat.zero_add]
  congr 1
  have hopen : codeCharsFrom .code (width pre) ('{' :: (body ++ '}' :: back)) =
      (width pre, '{') :: codeCharsFrom .code (width pre + 1) (body ++ '}' :: back) := rfl
  rw [hopen, codeCharsFrom_append, h.inside]
  rfl

theorem close_lt_width (h : Enclosed cs pre body back) :
    width pre + 1 + width body < width cs := by
  have hopen : ('{' : Char).utf8Size = 1 := rfl
  have hclose : ('}' : Char).utf8Size = 1 := rfl
  rw [h.split, width_append, width_cons, width_append, width_cons]
  omega

theorem mem_codeChars (h : Enclosed cs pre body back) :
    (width pre + 1 + width body, '}') ∈ codeChars cs := by
  rw [h.codeChars_eq]
  simp

/-- The code characters between the two braces are those of the body. -/
theorem filter_codeChars (h : Enclosed cs pre body back) :
    ((codeChars cs).filter fun p => width pre < p.1 && p.1 < width pre + 1 + width body) =
      codeCharsFrom .code (width pre + 1) body := by
  have hpre : ((codeChars pre).filter
      fun p => width pre < p.1 && p.1 < width pre + 1 + width body) = [] :=
    filter_codeCharsFrom_eq_nil .code (.inl (Nat.le_of_eq (Nat.zero_add _)))
  have hbody : ((codeCharsFrom .code (width pre + 1) body).filter
      fun p => width pre < p.1 && p.1 < width pre + 1 + width body) =
        codeCharsFrom .code (width pre + 1) body := by
    rw [List.filter_eq_self]
    intro p hp
    have hbounds := bounds_of_mem_codeCharsFrom hp
    rw [Bool.and_eq_true, decide_eq_true_eq, decide_eq_true_eq]
    omega
  have hback : ((codeCharsFrom .code (width pre + 1 + width body + 1) back).filter
      fun p => width pre < p.1 && p.1 < width pre + 1 + width body) = [] :=
    filter_codeCharsFrom_eq_nil .code (.inr (Nat.lt_succ_self _))
  rw [h.codeChars_eq, List.filter_append, List.filter_cons_of_neg (by simp), List.filter_append,
    List.filter_cons_of_neg (by simp), hpre, hbody, hback, List.nil_append, List.append_nil]

/-- Behind the closing brace the stack is what it was in front of the opening one. -/
theorem not_mem_openMarks (h : Enclosed cs pre body back) :
    width pre ∉ openMarks '{' '}' cs := by
  have hdepth : depthFrom '{' '}' 0 ((codeCharsFrom .code (width pre + 1) body).map Prod.snd) =
      some 0 := by
    rw [map_snd_codeCharsFrom_eq]
    exact h.depth
  obtain ⟨opened, hrun, hlength, -⟩ :=
    exists_foldl_stackMark hdepth [] rfl (width pre :: openMarks '{' '}' pre)
  rw [List.length_eq_zero_iff.1 hlength, List.nil_append] at hrun
  have hstack : openMarks '{' '}' cs = (codeCharsFrom .code (width pre + 1 + width body + 1)
      back).foldl (stackMark '{' '}') (openMarks '{' '}' pre) := by
    rw [openMarks, h.codeChars_eq, List.foldl_append, List.foldl_cons, List.foldl_append,
      List.foldl_cons, ← openMarks]
    exact congrArg (fun stack => List.foldl _ (stackMark '{' '}' stack _) _) hrun
  rw [hstack]
  intro hmem
  have hsource := (foldl_stackMark_sublist _ _).subset (List.mem_reverse.2 hmem)
  cases List.mem_append.1 hsource with
  | inl hfront =>
      have hcame := (foldl_stackMark_sublist (codeChars pre) []).subset hfront
      obtain ⟨p, hp, hp1⟩ := List.mem_map.1 hcame
      have hbounds := bounds_of_mem_codeCharsFrom hp
      omega
  | inr hbehind =>
      obtain ⟨p, hp, hp1⟩ := List.mem_map.1 hbehind
      have hbounds := bounds_of_mem_codeCharsFrom hp
      omega

end Enclosed

section Openers

variable {cs : Text} {o o' c c' : Nat}

/-- A brace that opens in code is closed behind its body, or it is one of those left open and its
body is the rest of the text. -/
inductive BraceEnds (cs : Text) (o c : Nat) : Prop
  | closed {pre body back : Text} (h : Enclosed cs pre body back) (ho : o = width pre)
      (hc : c = width pre + 1 + width body)
  | unclosed {pre post : Text} {d : Nat} (h : LeftOpen '{' '}' cs pre post d) (ho : o = width pre)
      (hc : c = width cs)

theorem exists_split_of_opener (h : (o, '{') ∈ codeChars cs) :
    ∃ pre post, cs = pre ++ '{' :: post ∧ o = width pre ∧ Quoting.code.after pre = .code := by
  obtain ⟨u, v, huv⟩ := List.append_of_mem h
  obtain ⟨pre, post, hsplit, ho, hcode, -⟩ := exists_split_of_codeCharsFrom huv
  exact ⟨pre, post, hsplit, by rw [ho, Nat.zero_add], hcode⟩

theorem exists_braceEnds (h : (o, '{') ∈ codeChars cs) :
    ∃ c, matchingBrace cs o = .ok c ∧ BraceEnds cs o c := by
  obtain ⟨pre, post, rfl, rfl, hcode⟩ := exists_split_of_opener h
  refine ⟨_, matchingBrace_append pre post, ?_⟩
  cases bodyEnds .code 0 post with
  | closed back split inside depth =>
      exact .closed ⟨by rw [← split], hcode, inside, depth⟩ rfl rfl
  | unclosed e whole depth =>
      refine .unclosed ⟨rfl, hcode, depth⟩ rfl ?_
      rw [whole, width_append, width_cons, Nat.add_assoc]
      rfl

theorem BraceEnds.eq_width_iff (h : BraceEnds cs o c) : c = width cs ↔ o ∈ unclosedBraces cs := by
  rw [unclosedBraces, List.mem_reverse, openBraces_eq]
  cases h with
  | closed h ho hc =>
      subst ho hc
      exact iff_of_false (Nat.ne_of_lt h.close_lt_width) h.not_mem_openMarks
  | unclosed h ho hc =>
      obtain ⟨opened, hrun, -, -⟩ := h.exists_openMarks_eq rfl
      refine iff_of_true hc ?_
      rw [hrun, ho]
      exact List.mem_append_right _ List.mem_cons_self

/-- A brace that opens inside a body that closes is closed inside that body. -/
theorem untilClosed_inside {mid tail : Text} (hcode : Quoting.code.after mid = .code)
    (hdepth : depth? '{' '}' (mid ++ '{' :: tail) = some 0) :
    ∃ rest, tail = untilClosed .code 1 tail ++ '}' :: rest := by
  have hinner : codeFrom .code ('{' :: tail) = '{' :: codeFrom .code tail :=
    codeFrom_cons .code '{' tail
  rw [depth?_eq, codeFrom_append, hcode, depthFrom_append, hinner,
    Option.bind_eq_some_iff] at hdepth
  obtain ⟨d, -, hrest⟩ := hdepth
  rw [depthFrom, if_pos rfl] at hrest
  cases bodyEnds .code 0 tail with
  | closed rest split code depth => exact ⟨rest, split⟩
  | unclosed e whole depth =>
      have hdeep := depthFrom_add depth (d + 1)
      rw [Nat.zero_add, hrest] at hdeep
      cases hdeep

/-- A brace that opens behind the opening brace opens behind the closing one too, or is closed in
front of it. -/
theorem Enclosed.behind_or_inside {pre body back : Text} (h : Enclosed cs pre body back)
    (hbehind : width pre < o') (ho' : (o', '{') ∈ codeChars cs)
    (hc' : matchingBrace cs o' = .ok c') :
    width pre + 1 + width body < o' ∨ c' < width pre + 1 + width body := by
  obtain ⟨pre', post', hsplit', rfl, hcode'⟩ := exists_split_of_opener ho'
  rw [hsplit', matchingBrace_append] at hc'
  cases hc'
  have hopen : ('{' : Char).utf8Size = 1 := rfl
  have hclose : ('}' : Char).utf8Size = 1 := rfl
  have hsplits := h.split.symm.trans hsplit'
  obtain ⟨mid, rfl, hmid⟩ : ∃ mid, pre' = pre ++ '{' :: mid ∧
      body ++ '}' :: back = mid ++ '{' :: post' := by
    obtain ⟨m, rfl, hm⟩ := exists_between_cuts hsplits (Nat.le_of_lt hbehind)
    cases m with
    | nil =>
        rw [List.append_nil] at hbehind
        omega
    | cons d m =>
        obtain ⟨rfl, hrest⟩ := List.cons.inj hm
        exact ⟨m, rfl, hrest⟩
  rcases List.append_eq_append_iff.1 hmid with ⟨m, rfl, hm⟩ | ⟨m, rfl, hm⟩
  · -- The body ends in front of the inner brace, and so does the brace that closes it.
    left
    cases m with
    | nil => cases hm
    | cons d m =>
        rw [width_append, width_cons, width_append, width_cons]
        have hpos := d.utf8Size_pos
        omega
  · right
    cases m with
    | nil => cases hm
    | cons d tail =>
        obtain ⟨rfl, hpost⟩ : '{' = d ∧ post' = tail ++ '}' :: back := List.cons.inj hm
        have hcode : Quoting.code.after mid = .code := by
          rw [Quoting.after_append, h.code] at hcode'
          exact hcode'
        obtain ⟨rest, htail⟩ := untilClosed_inside hcode h.depth
        have hne : untilClosed .code 1 tail ≠ tail := by
          intro heq
          rw [heq] at htail
          simp at htail
        have hwidth := congrArg width htail
        rw [width_append, width_cons] at hwidth
        rw [hpost, untilClosed_append_of_ne hne, width_append, width_cons, width_append, width_cons]
        omega

theorem BraceEnds.lt (h : BraceEnds cs o c) : o < c := by
  cases h with
  | closed h ho hc => omega
  | unclosed h ho hc =>
      have hopen : ('{' : Char).utf8Size = 1 := rfl
      rw [ho, hc, h.split, width_append, width_cons]
      omega

theorem BraceEnds.le_width (h : BraceEnds cs o c) : c ≤ width cs := by
  cases h with
  | closed h ho hc =>
      rw [hc]
      exact Nat.le_of_lt h.close_lt_width
  | unclosed h ho hc => exact Nat.le_of_eq hc

/-- The interval of an opener lies in front of that of a later one or holds it. -/
theorem BraceEnds.disjoint_or_nested (h : BraceEnds cs o c) (h' : BraceEnds cs o' c')
    (hlt : o < o') (ho' : (o', '{') ∈ codeChars cs) (hc' : matchingBrace cs o' = .ok c') :
    c < o' ∨ c' ≤ c := by
  cases h with
  | closed h ho hc =>
      subst ho hc
      exact (h.behind_or_inside hlt ho' hc').imp_right Nat.le_of_lt
  | unclosed h ho hc =>
      rw [hc]
      exact .inr h'.le_width

theorem BraceEnds.mem_unclosedBraces_of_eq (h : BraceEnds cs o c) (h' : BraceEnds cs o' c)
    (hlt : o < o') (ho' : (o', '{') ∈ codeChars cs) (hc' : matchingBrace cs o' = .ok c) :
    o ∈ unclosedBraces cs ∧ o' ∈ unclosedBraces cs := by
  cases h with
  | closed h ho hc =>
      subst ho hc
      have hbehind := h'.lt
      cases h.behind_or_inside hlt ho' hc' with
      | inl hfront => omega
      | inr hinside => omega
  | unclosed h ho hc =>
      have hwhole : BraceEnds cs o c := .unclosed h ho hc
      exact ⟨hwhole.eq_width_iff.1 hc, h'.eq_width_iff.1 hc⟩

end Openers

/-- A matching brace and the list of the braces left open say the same of a text: the braces that
reach to its end are those of the list, every other one is closed by a brace of the code behind
a body whose braces pair up, and the pairs are nested or apart. -/
theorem braces_paired (cs : Text) :
    (unclosedBraces cs).Pairwise (· < ·) ∧
    (∀ o, (o, '{') ∈ codeChars cs → ∃ c, matchingBrace cs o = .ok c ∧
      (c = width cs ↔ o ∈ unclosedBraces cs) ∧
      (o ∉ unclosedBraces cs → o < c ∧ (c, '}') ∈ codeChars cs ∧
        depthFrom '{' '}' 0
          (((codeChars cs).filter fun p => o < p.1 && p.1 < c).map Prod.snd) = some 0)) ∧
    ∀ o o' c c', (o, '{') ∈ codeChars cs → (o', '{') ∈ codeChars cs → o < o' →
      matchingBrace cs o = .ok c → matchingBrace cs o' = .ok c' →
      (c < o' ∨ c' ≤ c) ∧ (c = c' → o ∈ unclosedBraces cs ∧ o' ∈ unclosedBraces cs) := by
  refine ⟨unclosedBraces_pairwise cs, ?_, ?_⟩
  · intro o ho
    obtain ⟨c, hc, hends⟩ := exists_braceEnds ho
    refine ⟨c, hc, hends.eq_width_iff, ?_⟩
    intro hclosed
    cases hends with
    | closed h hstart hend =>
        subst hstart hend
        refine ⟨by omega, h.mem_codeChars, ?_⟩
        rw [h.filter_codeChars, map_snd_codeCharsFrom_eq]
        exact h.depth
    | unclosed h hstart hend =>
        have hopen : BraceEnds cs o c := .unclosed h hstart hend
        exact absurd (hopen.eq_width_iff.1 hend) hclosed
  · intro o o' c c' ho ho' hlt hc hc'
    obtain ⟨_, hmatch, hends⟩ := exists_braceEnds ho
    obtain ⟨_, hmatch', hends'⟩ := exists_braceEnds ho'
    cases hmatch.symm.trans hc
    cases hmatch'.symm.trans hc'
    refine ⟨hends.disjoint_or_nested hends' hlt ho' hc', ?_⟩
    rintro rfl
    exact hends.mem_unclosedBraces_of_eq hends' hlt ho' hc'

def stringAndStray : Text := "\x7b'\x7d'\x7bé\x7d\x7b".toList

theorem braces_paired_stringAndStray :
    matchingBrace stringAndStray 0 = .ok 9 ∧ 0 ∈ unclosedBraces stringAndStray ∧
      matchingBrace stringAndStray 4 = .ok 7 ∧ (7, '}') ∈ codeChars stringAndStray ∧
      (7 < 8 ∨ 9 ≤ 7) := by
  obtain ⟨-, hopeners, hpairs⟩ := braces_paired stringAndStray
  have hstray : matchingBrace stringAndStray 8 = .ok 9 := by decide
  have hinner : matchingBrace stringAndStray 4 = .ok 7 := by decide
  obtain ⟨c, hc, hreach, -⟩ := hopeners 0 (by decide)
  obtain ⟨d, hd, -, hclosed⟩ := hopeners 4 (by decide)
  have hend : c = 9 := Except.ok.inj (hc.symm.trans (by decide))
  have hclose : d = 7 := Except.ok.inj (hd.symm.trans hinner)
  subst hend hclose
  refine ⟨hc, hreach.1 (by decide), hd, (hclosed (by decide)).2.1, ?_⟩
  exact (hpairs 4 8 7 9 (by decide) (by decide) (by decide) hinner hstray).1

end Text
end ProcedureIndex
