import ProcedureIndex.Proofs.Text.Hits
import ProcedureIndex.Proofs.Text.Names

/-!
The line that a place lies on. Cut at any place, a text has the same lines before
the cut, one line that runs through it, and the same lines behind; the position of
the place and the way back from it follow. A reader's line is the beginning of the
line of the same number, so columns on it lead back into the text too.
-/

namespace ProcedureIndex

open Text

namespace Text

theorem lines_eq_firstLine_cons (cs : Text) : lines cs = firstLine cs :: (lines cs).tail := by
  induction cs with
  | nil => rfl
  | cons c cs ih =>
      by_cases hc : c = '\n'
      · simp [lines, firstLine, hc]
      · rw [lines, if_neg hc, ih]
        simp [firstLine, hc]

theorem lines_of_not_mem {a : Text} (ha : '\n' ∉ a) : lines a = [a] := by
  induction a with
  | nil => rfl
  | cons c cs ih =>
      have hc : c ≠ '\n' := by
        rintro rfl
        exact ha (by simp)
      rw [lines, if_neg hc, ih (by simp_all)]

theorem lines_append_newline {a : Text} (ha : '\n' ∉ a) (b : Text) :
    lines (a ++ '\n' :: b) = a :: lines b := by
  induction a with
  | nil => rfl
  | cons c cs ih =>
      have hc : c ≠ '\n' := by
        rintro rfl
        exact ha (by simp)
      rw [List.cons_append, lines, if_neg hc, ih (by simp_all)]

theorem subset_of_mem_lines {cs l : Text} (h : l ∈ lines cs) : l ⊆ cs := by
  induction cs generalizing l with
  | nil =>
      cases List.mem_singleton.1 h
      exact List.Subset.refl _
  | cons c cs ih =>
      rw [lines] at h
      split at h
      · rcases List.mem_cons.1 h with rfl | h
        · exact List.nil_subset _
        · exact List.subset_cons_of_subset c (ih h)
      · cases hlines : lines cs with
        | nil => exact absurd hlines (lines_ne_nil cs)
        | cons first others =>
            rw [hlines] at h ih
            rcases List.mem_cons.1 h with rfl | h
            · exact List.cons_subset_cons c (ih List.mem_cons_self)
            · exact List.subset_cons_of_subset c (ih (List.mem_cons_of_mem first h))

theorem newline_not_mem_of_mem_lines {cs l : Text} (h : l ∈ lines cs) : '\n' ∉ l := by
  induction cs generalizing l with
  | nil =>
      cases List.mem_singleton.1 h
      exact List.not_mem_nil
  | cons c cs ih =>
      rw [lines] at h
      split at h
      · rcases List.mem_cons.1 h with rfl | h
        · exact List.not_mem_nil
        · exact ih h
      · next hc =>
          cases hlines : lines cs with
          | nil => exact absurd hlines (lines_ne_nil cs)
          | cons first others =>
              rw [hlines] at h ih
              rcases List.mem_cons.1 h with rfl | h
              · rw [List.mem_cons, not_or]
                exact ⟨fun heq => hc heq.symm, ih List.mem_cons_self⟩
              · exact ih (List.mem_cons_of_mem first h)

theorem subset_of_mem_readLines {cs l : Text} (h : l ∈ readLines cs) : l ⊆ cs := by
  rcases List.mem_append.1 h with h | h
  · obtain ⟨l, hl, rfl⟩ := List.mem_map.1 h
    have hdrop : dropReturn l ⊆ l := by
      rw [dropReturn]
      split
      · exact List.dropLast_subset l
      · exact List.Subset.refl l
    exact fun c hc => subset_of_mem_lines (List.dropLast_subset _ hl) (hdrop hc)
  · exact subset_of_mem_lines (List.mem_of_getLast? (Option.mem_toList.1 (List.mem_filter.1 h).1))

/-- The lines of two texts put together: the last of the first and the first of the second join. -/
theorem exists_lines_append (cs : Text) :
    ∃ init last, lines cs = init ++ [last] ∧ last <:+ cs ∧
      LineMap.spanOf init + width last = width cs ∧
      ∀ more, lines (cs ++ more) = init ++ (last ++ firstLine more) :: (lines more).tail := by
  induction cs with
  | nil => exact ⟨[], [], rfl, List.suffix_refl _, rfl, fun more => lines_eq_firstLine_cons more⟩
  | cons c cs ih =>
      obtain ⟨init, last, hlines, hsuffix, hwidth, hmore⟩ := ih
      by_cases hc : c = '\n'
      · cases hc
        refine ⟨[] :: init, last, ?_, hsuffix.trans (List.suffix_cons _ _), ?_, ?_⟩
        · simp [lines, hlines]
        · simp only [LineMap.spanOf, width_nil, width_cons, ← hwidth,
            show ('\n' : Char).utf8Size = 1 from rfl]
          omega
        · intro more
          simp [lines, hmore]
      · cases init with
        | nil =>
            have hall : last = cs := by
              have hjoin := intercalate_lines cs
              rw [hlines] at hjoin
              simpa using hjoin
            cases hall
            refine ⟨[], c :: cs, by simp [lines, hc, hlines], List.suffix_refl _,
              by simp [LineMap.spanOf], ?_⟩
            intro more
            simp [lines, hc, hmore]
        | cons l ls =>
            refine ⟨(c :: l) :: ls, last, by simp [lines, hc, hlines],
              hsuffix.trans (List.suffix_cons _ _), ?_, ?_⟩
            · simp only [LineMap.spanOf, width_cons, ← hwidth]
              omega
            · intro more
              simp [lines, hc, hmore]

theorem lines_append_cons_newline (a b : Text) : lines (a ++ '\n' :: b) = lines a ++ lines b := by
  obtain ⟨init, last, hlines, -, -, hmore⟩ := exists_lines_append a
  simp [hmore, hlines, firstLine, lines]

/-- A line as a reader sees it is the beginning of the line of that number. -/
theorem exists_line_of_readLines {cs line : Text} {n : Nat} (h : (readLines cs)[n]? = some line) :
    ∃ whole, (lines cs)[n]? = some whole ∧ line <+: whole := by
  obtain ⟨init, last, hlines⟩ : ∃ init last, lines cs = init ++ [last] :=
    ⟨_, _, (List.dropLast_concat_getLast (lines_ne_nil cs)).symm⟩
  rw [readLines, hlines, List.dropLast_concat, List.getLast?_concat, Option.toList_some] at h
  rw [hlines]
  by_cases hn : n < init.length
  · rw [List.getElem?_append_left (by simpa using hn), List.getElem?_map,
      Option.map_eq_some_iff] at h
    obtain ⟨whole, hwhole, rfl⟩ := h
    refine ⟨whole, by rw [List.getElem?_append_left hn, hwhole], ?_⟩
    rw [dropReturn]
    split
    · exact List.dropLast_prefix whole
    · exact List.prefix_refl whole
  · rw [List.getElem?_append_right (by simpa using hn), List.length_map] at h
    have hmem := (List.mem_filter.1 (List.mem_of_getElem? h)).1
    have hline : line = last := by simpa using hmem
    have hlast : n - init.length = 0 := by
      have hlt := (List.getElem?_eq_some_iff.1 h).1
      have hle := List.length_filter_le (fun l : Text => !l.isEmpty) [last]
      rw [List.length_singleton] at hle
      omega
    refine ⟨last, ?_, hline ▸ List.prefix_refl line⟩
    rw [List.getElem?_append_right (by omega), hlast, List.getElem?_cons_zero]

/-- The text in front of a line is as wide as the lines before it with their newlines. -/
theorem exists_split_at_line (l : Text) (init rest : List Text) :
    ∃ front back, ['\n'].intercalate (init ++ l :: rest) = front ++ (l ++ back) ∧
      width front = LineMap.spanOf init := by
  induction init with
  | nil =>
      cases rest with
      | nil => exact ⟨[], [], by simp, rfl⟩
      | cons m ms =>
          refine ⟨[], '\n' :: ['\n'].intercalate (m :: ms), ?_, rfl⟩
          simp [List.intercalate_cons_cons]
  | cons k init ih =>
      obtain ⟨front, back, hjoin, hwidth⟩ := ih
      obtain ⟨m, ms, hm⟩ : ∃ m ms, init ++ l :: rest = m :: ms :=
        List.exists_cons_of_ne_nil (by simp)
      refine ⟨k ++ '\n' :: front, back, ?_, ?_⟩
      · rw [List.cons_append, hm, List.intercalate_cons_cons, ← hm, hjoin]
        simp
      · rw [width_append, width_cons, hwidth, LineMap.spanOf,
          show ('\n' : Char).utf8Size = 1 from rfl]
        omega

end Text

namespace Position

theorem before_iff {p q : Position} :
    p.before q = true ↔ p.line < q.line ∨ p.line = q.line ∧ p.col < q.col := by
  simp [before]

theorem notAfter_iff {p q : Position} :
    p.notAfter q = true ↔ p.line < q.line ∨ p.line = q.line ∧ p.col ≤ q.col := by
  simp [notAfter]

theorem notAfter_trans {p q r : Position} (hpq : p.notAfter q = true) (hqr : q.notAfter r = true) :
    p.notAfter r = true := by
  rw [notAfter_iff] at hpq hqr ⊢
  omega

theorem notAfter_total (p q : Position) : (p.notAfter q || q.notAfter p) = true := by
  rw [Bool.or_eq_true, notAfter_iff, notAfter_iff]
  omega

theorem before_of_notAfter {p q : Position} (h : p.notAfter q = true) (hne : p ≠ q) :
    p.before q = true := by
  rw [notAfter_iff] at h
  rw [before_iff]
  have hdiffer : ¬ (p.line = q.line ∧ p.col = q.col) := by
    intro hsame
    apply hne
    cases p
    cases q
    simpa using hsame
  omega

end Position

namespace LineMap

theorem spanOf_append (a b : List Text) : spanOf (a ++ b) = spanOf a + spanOf b := by
  induction a with
  | nil => simp [spanOf]
  | cons l a ih =>
      rw [List.cons_append, spanOf, spanOf, ih]
      omega

theorem locate_spanOf_add (init : List Text) (l : Text) (ls : List Text) {col : Nat}
    (hcol : col ≤ width l) : locate (init ++ l :: ls) (spanOf init + col) = ⟨init.length, col⟩ := by
  induction init with
  | nil =>
      cases ls with
      | nil => simp [locate, spanOf, hcol]
      | cons m ms => simp [locate, spanOf, hcol]
  | cons k ks ih =>
      obtain ⟨m, ms, hm⟩ : ∃ m ms, ks ++ l :: ls = m :: ms := List.exists_cons_of_ne_nil (by simp)
      have hbehind : ¬ width k + 1 + spanOf ks + col ≤ width k := by omega
      have hrest : width k + 1 + spanOf ks + col - width k - 1 = spanOf ks + col := by omega
      simp only [List.cons_append, spanOf, hm, locate, if_neg hbehind, hrest]
      rw [← hm, ih]
      rfl

theorem offset_spanOf_add (init : List Text) (l : Text) (ls : List Text) {col : Nat}
    (hcol : col ≤ width l) (hlimit : spanOf init + col < countLimit) :
    offset ⟨init ++ l :: ls⟩ ⟨init.length, col⟩ = .ok (some (spanOf init + col)) := by
  have hmin : min (spanOf init + col) (spanOf init + width l) = spanOf init + col := by omega
  simp [offset, lineRange, counted, hlimit, Except.map, hmin]

theorem position_of_lines {cs last : Text} {init : List Text} (h : Text.lines cs = init ++ [last])
    (more : Text) : (ofText (cs ++ more)).position (width cs) = ⟨init.length, width last⟩ := by
  obtain ⟨init', last', hlines, -, hwidth, hmore⟩ := exists_lines_append cs
  obtain ⟨hinit, hlast⟩ := List.append_inj' (h.symm.trans hlines) rfl
  cases hinit
  cases hlast
  have hcol : width last ≤ width (last ++ firstLine more) := by
    rw [width_append]
    omega
  rw [position, ofText, hmore, ← hwidth, locate_spanOf_add init _ _ hcol]

/-- At a cut, the position is on the line that runs through the cut. -/
theorem exists_position (cs more : Text) :
    ∃ init last, last <:+ cs ∧ spanOf init + width last = width cs ∧
      (ofText (cs ++ more)).lines = init ++ (last ++ firstLine more) :: (Text.lines more).tail ∧
      (ofText (cs ++ more)).position (width cs) = ⟨init.length, width last⟩ := by
  obtain ⟨init, last, hlines, hsuffix, hwidth, hmore⟩ := exists_lines_append cs
  exact ⟨init, last, hsuffix, hwidth, hmore more, position_of_lines hlines more⟩

/-- At a cut, the position is on the line that runs through the cut, and leads back. -/
theorem exists_line_at (cs more : Text) :
    ∃ last, last <:+ cs ∧
      (ofText (cs ++ more)).lines[((ofText (cs ++ more)).position (width cs)).line]? =
        some (last ++ firstLine more) ∧
      ((ofText (cs ++ more)).position (width cs)).col = width last ∧
      (width cs < countLimit → (ofText (cs ++ more)).offset
        ((ofText (cs ++ more)).position (width cs)) = .ok (some (width cs))) := by
  obtain ⟨init, last, hsuffix, hwidth, hlines, hpos⟩ := exists_position cs more
  refine ⟨last, hsuffix, ?_, by rw [hpos], ?_⟩
  · rw [hpos, hlines]
    simp
  · intro hlimit
    have hcol : width last ≤ width (last ++ firstLine more) := by
      rw [width_append]
      omega
    rw [hpos, ← hwidth, ofText, show Text.lines (cs ++ more) = _ from hlines]
    exact offset_spanOf_add init _ _ hcol (by rwa [hwidth])

/-- Different cuts have different positions. -/
theorem width_eq_of_position_eq {a b a' b' : Text} (h : a ++ b = a' ++ b')
    (hp : (ofText (a ++ b)).position (width a) = (ofText (a ++ b)).position (width a')) :
    width a = width a' := by
  obtain ⟨init, last, -, hwidth, hlines, hpos⟩ := exists_position a b
  obtain ⟨init', last', -, hwidth', hlines', hpos'⟩ := exists_position a' b'
  rw [← h] at hlines' hpos'
  rw [hpos, hpos'] at hp
  obtain ⟨hlength, hcol⟩ : init.length = init'.length ∧ width last = width last' :=
    ⟨congrArg Position.line hp, congrArg Position.col hp⟩
  rw [hlines] at hlines'
  have hinit : init = init' := (List.append_inj hlines' hlength).1
  rw [← hwidth, ← hwidth', hinit, hcol]

/-- A later cut has a later position. -/
theorem position_before (a : Text) {m : Text} (hm : m ≠ []) (b : Text) :
    ((ofText (a ++ (m ++ b))).position (width a)).before
      ((ofText (a ++ (m ++ b))).position (width (a ++ m))) = true := by
  obtain ⟨init, last, hlines, -, -, hmore⟩ := exists_lines_append a
  have hlater := hmore m
  rw [position_of_lines hlines, Position.before_iff, ← List.append_assoc]
  cases htail : (Text.lines m).tail with
  | nil =>
      have hline : firstLine m = m := by
        have hjoin := intercalate_lines m
        rw [lines_eq_firstLine_cons, htail] at hjoin
        simpa using hjoin
      have hpos := width_pos hm
      rw [htail, hline] at hlater
      rw [position_of_lines hlater, width_append]
      exact .inr ⟨rfl, Nat.lt_add_of_pos_right hpos⟩
  | cons l ls =>
      obtain ⟨between, own, hown⟩ : ∃ between own, l :: ls = between ++ [own] :=
        ⟨_, _, (List.dropLast_concat_getLast (List.cons_ne_nil l ls)).symm⟩
      rw [htail, hown, ← List.cons_append, ← List.append_assoc] at hlater
      rw [position_of_lines hlater]
      left
      simp only [List.length_append, List.length_cons]
      omega

/-- What stands at a column of a line stands in the text at the offset of the position. -/
theorem exists_offset_of_readLines {cs before behind : Text} {n : Nat}
    (hline : (readLines cs)[n]? = some (before ++ behind)) :
    ∃ front back, cs = front ++ (behind ++ back) ∧
      (width cs < countLimit →
        (ofText cs).offset ⟨n, width before⟩ = .ok (some (width front))) := by
  obtain ⟨whole, hwhole, more, rfl⟩ := exists_line_of_readLines hline
  obtain ⟨hn, hget⟩ := List.getElem?_eq_some_iff.1 hwhole
  have hlines : Text.lines cs = (Text.lines cs).take n ++
      (before ++ behind ++ more) :: (Text.lines cs).drop (n + 1) := by
    rw [← hget, List.getElem_cons_drop, List.take_append_drop]
  obtain ⟨front, back, hjoin, hwidth⟩ := exists_split_at_line (before ++ behind ++ more)
    ((Text.lines cs).take n) ((Text.lines cs).drop (n + 1))
  rw [← hlines, intercalate_lines] at hjoin
  have hsplit : cs = (front ++ before) ++ (behind ++ (more ++ back)) := by
    rw [hjoin]
    simp only [List.append_assoc]
  refine ⟨front ++ before, more ++ back, hsplit, ?_⟩
  intro hlimit
  have hlength : ((Text.lines cs).take n).length = n := by
    rw [List.length_take]
    omega
  have hcol : width before ≤ width (before ++ behind ++ more) := by
    simp only [width_append]
    omega
  have hwithin : spanOf ((Text.lines cs).take n) + width before < countLimit := by
    rw [hsplit, width_append, width_append, hwidth] at hlimit
    omega
  have hoffset := offset_spanOf_add ((Text.lines cs).take n) (before ++ behind ++ more)
    ((Text.lines cs).drop (n + 1)) hcol hwithin
  rw [← hlines, hlength] at hoffset
  rw [width_append, hwidth]
  exact hoffset

end LineMap

namespace Text

theorem trimEndOf_isPrefix (c : Char) (cs : Text) : trimEndOf c cs <+: cs := by
  have h : cs.reverse.dropWhile (· == c) <:+ cs.reverse := List.dropWhile_suffix _
  rw [← List.reverse_prefix] at h
  simpa only [List.reverse_reverse, trimEndOf] using h

theorem trimEndOf_append {c : Char} {a : Text} (ha : a.getLast?.any (· != c) = true) (b : Text) :
    trimEndOf c (a ++ b) = a ++ trimEndOf c b := by
  rw [trimEndOf, trimEndOf, List.reverse_append, List.dropWhile_append]
  split
  · next hb =>
      rw [List.isEmpty_iff] at hb
      cases hr : a.reverse with
      | nil => simp [List.reverse_eq_nil_iff.1 hr] at ha
      | cons d ds =>
          have hd : a.getLast? = some d := by rw [List.getLast?_eq_head?_reverse, hr]; rfl
          rw [hd] at ha
          have hdc : (d == c) = false := by simpa using ha
          rw [List.dropWhile_cons, if_neg (by simp [hdc]), ← hr, hb]
          simp
  · simp

theorem trailingRun_suffix (cs : Text) : trailingRun cs <:+ cs := by
  have h : cs.reverse.takeWhile isIdentContinue <+: cs.reverse := List.takeWhile_prefix _
  rw [← List.reverse_suffix] at h
  simpa only [List.reverse_reverse, trailingRun] using h

theorem trailingRun_append {left run : Text} (hleft : left.getLast?.any isIdentContinue = false)
    (hrun : ∀ c ∈ run, isIdentContinue c = true) : trailingRun (left ++ run) = run := by
  have hnone : left.reverse.takeWhile isIdentContinue = [] := by
    rw [List.getLast?_eq_head?_reverse] at hleft
    cases hr : left.reverse with
    | nil => rfl
    | cons d ds =>
        rw [hr] at hleft
        exact List.takeWhile_cons_of_neg (by simpa using hleft)
  rw [trailingRun, List.reverse_append, List.takeWhile_append_of_pos (by simpa using hrun), hnone,
    List.append_nil, List.reverse_reverse]

/-- At a cut, the identifier is the run that ends there together with the run that starts there. -/
theorem identAt_cut (left right : Text) :
    identAt (left ++ right) (width left) =
      if (trailingRun left ++ right.takeWhile isIdentContinue).head?.any isIdentStart then
        some (width left - width (trailingRun left),
          trailingRun left ++ right.takeWhile isIdentContinue)
      else none := by
  have hcol : min (width left) (width (left ++ right)) = width left := by
    rw [width_append]
    omega
  simp only [identAt, hcol, isBoundary_width, takeBytes_width_append, dropBytes_width_append,
    if_true]

/-- At every cut of a run of identifier characters the identifier is the whole run, if the run
starts like one. -/
theorem identAt_run {left a b right : Text} (hleft : left.getLast?.any isIdentContinue = false)
    (hall : ∀ c ∈ a ++ b, isIdentContinue c = true)
    (hright : right.head?.any isIdentContinue = false) :
    identAt (left ++ (a ++ (b ++ right))) (width left + width a) =
      if (a ++ b).head?.any isIdentStart then some (width left, a ++ b) else none := by
  have hrun : trailingRun (left ++ a) = a :=
    trailingRun_append hleft fun c hc => hall c (List.mem_append_left b hc)
  have htake : (b ++ right).takeWhile isIdentContinue = b :=
    takeWhile_append_of_head? (fun c hc => hall c (List.mem_append_right a hc)) hright
  rw [← width_append, ← List.append_assoc, identAt_cut, hrun, htake, width_append,
    Nat.add_sub_cancel]

structure IsIdent (word : Text) : Prop where
  start : word.head?.any isIdentStart = true
  all : ∀ c ∈ word, isIdentContinue c = true

theorem IsIdent.ne_nil {word : Text} (h : IsIdent word) : word ≠ [] := by
  rintro rfl
  exact absurd h.start (by decide)

theorem IsName.isIdent {name : Text} (h : IsName name) : IsIdent name where
  start := by
    have hs := h.start
    cases hh : name.head? with
    | none => simp [hh] at hs
    | some d =>
        rw [hh] at hs
        exact isIdentStart_of_isNameStart hs
  all c hc := isIdentContinue_of_isNameContinue (h.all c hc)

theorem IsIdent.identAt_within {left a b right : Text}
    (hleft : left.getLast?.any isIdentContinue = false) (hword : IsIdent (a ++ b))
    (hright : right.head?.any isIdentContinue = false) :
    identAt (left ++ (a ++ (b ++ right))) (width left + width a) = some (width left, a ++ b) := by
  rw [identAt_run hleft hword.all hright, if_pos hword.start]

/-- The identifier at a place in a name is the whole name. -/
theorem identAt_within {left a b right : Text} (hleft : left.getLast?.any isIdentContinue = false)
    (hname : IsName (a ++ b)) (hright : right.head?.any isIdentContinue = false) :
    identAt (left ++ (a ++ (b ++ right))) (width left + width a) = some (width left, a ++ b) :=
  hname.isIdent.identAt_within hleft hright

theorem identAt_append {left name right : Text} (hleft : left.getLast?.any isIdentContinue = false)
    (hname : IsName name) (hright : right.head?.any isIdentContinue = false) :
    identAt (left ++ (name ++ right)) (width left) = some (width left, name) :=
  identAt_within (a := []) hleft hname hright

namespace NameAt

variable {cs lead name behind : Text}

/-- The line of a name: before the name stands the last line of what leads up to it, and nothing on
either side would make the name longer. -/
theorem exists_lineText (h : NameAt cs lead name behind)
    (hedge : behind.head?.any isIdentContinue = false) :
    ∃ init last right, lines lead = init ++ [last] ∧
      (LineMap.ofText cs).position (width lead) = ⟨init.length, width last⟩ ∧
      (LineMap.ofText cs).lineText init.length = some (last ++ (name ++ right)) ∧
      last.getLast?.any isIdentContinue = false ∧ right.head?.any isIdentContinue = false := by
  obtain ⟨init, last, hlines, hsuffix, -, hmore⟩ := exists_lines_append lead
  have hpos := LineMap.position_of_lines hlines (name ++ behind)
  have hline := congrArg (·[init.length]?) (hmore (name ++ behind))
  simp only [List.getElem?_append_right (Nat.le_refl _), Nat.sub_self,
    List.getElem?_cons_zero] at hline
  rw [← h.split] at hpos hline
  have hnewline : ∀ c ∈ name, (c != '\n') = true := by
    intro c hc
    rw [bne_iff_ne]
    rintro rfl
    exact absurd (h.whole.all _ hc) (by decide)
  have hfirst : firstLine (name ++ behind) = name ++ firstLine behind :=
    List.takeWhile_append_of_pos hnewline
  have hlast : (last ++ name).getLast?.any (· != '\r') = true := by
    have hs := h.whole.start
    rw [List.getLast?_append]
    cases hl : name.getLast? with
    | none => simp [List.getLast?_eq_none_iff.1 hl] at hs
    | some d =>
        change (d != '\r') = true
        rw [bne_iff_ne]
        rintro rfl
        exact absurd (h.whole.all _ (List.mem_of_getLast? hl)) (by decide)
  refine ⟨init, last, trimEndOf '\r' (firstLine behind), hlines, hpos, ?_, ?_, ?_⟩
  · rw [LineMap.lineText, LineMap.ofText, hline, hfirst, Option.map_some, ← List.append_assoc,
      trimEndOf_append hlast, List.append_assoc]
  · cases hl : last.getLast? with
    | none => rfl
    | some d =>
        obtain ⟨front, rfl⟩ := hsuffix
        have hgap := h.gap
        rw [List.getLast?_append, hl] at hgap
        exact isIdentContinue_of_isBlank hgap
  · have hprefix : trimEndOf '\r' (firstLine behind) <+: behind :=
      (trimEndOf_isPrefix _ _).trans (List.takeWhile_prefix _)
    cases htrim : trimEndOf '\r' (firstLine behind) with
    | nil => rfl
    | cons d ds =>
        obtain ⟨more, rfl⟩ := htrim ▸ hprefix
        exact hedge

/-- The whole name is the identifier at its own position, as far as its line can tell: only a
character that names do not know and identifiers do could make the identifier longer. -/
theorem identAt_lineText (h : NameAt cs lead name behind)
    (hedge : behind.head?.any isIdentContinue = false) :
    ∃ line, (LineMap.ofText cs).lineText ((LineMap.ofText cs).position (width lead)).line =
        some line ∧
      identAt line ((LineMap.ofText cs).position (width lead)).col =
        some (((LineMap.ofText cs).position (width lead)).col, name) := by
  obtain ⟨init, last, right, -, hpos, hline, hleft, hright⟩ := h.exists_lineText hedge
  rw [hpos]
  exact ⟨_, hline, identAt_append hleft h.whole hright⟩

end NameAt
end Text
end ProcedureIndex
