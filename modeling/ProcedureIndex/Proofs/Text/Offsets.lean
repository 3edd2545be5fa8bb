import Mathlib.Data.List.Chain
import ProcedureIndex.Proofs.Text.Positions

/-!
Offsets, positions and the ranges of lines. Every offset of a text belongs to one column of one
line, the newline behind a line to the column at its end, so offsets and positions lead to each
other and follow each other in the same order; the ranges of the lines tile the text. A column
behind the end of a line stands for that end as long as its sum with the start of the line is a
32-bit count, which the largest columns are on the first line only.
-/

namespace ProcedureIndex

open Text

def Text.stretch (cs : Text) (range : Nat × Nat) : Text :=
  takeBytes (range.2 - range.1) (dropBytes range.1 cs)

/-- Ranges that lie one behind the other from the start of a text to its end, one newline between
neighbours and none inside. -/
structure Text.Tiles (cs : Text) (ranges : List (Nat × Nat)) : Prop where
  first : ranges.head?.map Prod.fst = some 0
  next : ranges.IsChain fun r s => s.1 = r.2 + 1
  last : ranges.getLast?.map Prod.snd = some (width cs)
  filled : ∀ r ∈ ranges, r.1 + width (cs.stretch r) = r.2
  noNewline : ∀ r ∈ ranges, '\n' ∉ cs.stretch r
  joined : ['\n'].intercalate (ranges.map cs.stretch) = cs

namespace LineMap

def ranges (m : LineMap) : List (Nat × Nat) :=
  (List.range m.lineCount).filterMap m.lineRange

/-- What stands in front of a line and the line itself end before the next line starts. -/
theorem spanOf_lt_spanOf {init init' rest rest' : List Text} {l l' : Text}
    (h : init ++ l :: rest = init' ++ l' :: rest') (hlt : init.length < init'.length) :
    spanOf init + width l < spanOf init' := by
  have hprefix : init ++ [l] <+: init' := by
    have hfront : init ++ [l] <+: init ++ l :: rest := ⟨rest, by simp⟩
    refine List.prefix_of_prefix_length_le hfront (h ▸ List.prefix_append _ _) ?_
    rw [List.length_append, List.length_singleton]
    exact hlt
  obtain ⟨more, rfl⟩ := hprefix
  rw [spanOf_append, spanOf_append, spanOf, spanOf]
  omega

theorem exists_column_of_lt {ls : List Text} {n : Nat} (h : n < spanOf ls) :
    ∃ init l rest col, ls = init ++ l :: rest ∧ col ≤ width l ∧ spanOf init + col = n := by
  induction ls generalizing n with
  | nil => exact absurd h (Nat.not_lt_zero n)
  | cons l ls ih =>
      by_cases hn : n ≤ width l
      · exact ⟨[], l, ls, n, rfl, hn, Nat.zero_add n⟩
      · rw [spanOf] at h
        obtain ⟨init, k, rest, col, rfl, hcol, hsum⟩ :=
          ih (show n - width l - 1 < spanOf ls by omega)
        refine ⟨l :: init, k, rest, col, rfl, hcol, ?_⟩
        rw [spanOf]
        omega

theorem locate_of_end_le (init : List Text) (last : Text) {n : Nat}
    (h : spanOf init + width last ≤ n) :
    locate (init ++ [last]) n = ⟨init.length, width last⟩ := by
  induction init generalizing n with
  | nil =>
      rw [spanOf, Nat.zero_add] at h
      simp [locate, h]
  | cons k ks ih =>
      obtain ⟨m, ms, hm⟩ : ∃ m ms, ks ++ [last] = m :: ms := List.exists_cons_of_ne_nil (by simp)
      rw [spanOf] at h
      have hbehind : ¬ n ≤ width k := by omega
      rw [List.cons_append, hm, locate, if_neg hbehind, ← hm, ih (by omega)]
      · rfl
      · exact fun h => absurd h (by simp)

section

variable (cs : Text)

theorem spanOf_lines : spanOf (Text.lines cs) = width cs + 1 := by
  obtain ⟨init, last, hlines, -, hwidth, -⟩ := exists_lines_append cs
  rw [hlines, spanOf_append, spanOf, spanOf]
  omega

/-- An offset belongs to a column of a line, that of the end if it lies behind the text. -/
theorem exists_column (n : Nat) :
    ∃ init l rest col, Text.lines cs = init ++ l :: rest ∧ col ≤ width l ∧
      spanOf init + col = min n (width cs) ∧ (ofText cs).position n = ⟨init.length, col⟩ := by
  obtain ⟨init, last, hlines, -, hwidth, -⟩ := exists_lines_append cs
  have hspan := spanOf_lines cs
  by_cases hn : n < width cs
  · obtain ⟨front, l, rest, col, hsplit, hcol, hsum⟩ :=
      exists_column_of_lt (show n < spanOf (Text.lines cs) by omega)
    refine ⟨front, l, rest, col, hsplit, hcol, by omega, ?_⟩
    rw [position, ofText, hsplit, ← hsum, locate_spanOf_add front l rest hcol]
  · refine ⟨init, last, [], width last, hlines, Nat.le_refl _, by omega, ?_⟩
    rw [position, ofText, hlines, locate_of_end_le init last (by omega)]

variable {cs}

theorem lineRange_eq_some_iff {n : Nat} {range : Nat × Nat} :
    (ofText cs).lineRange n = some range ↔
      ∃ init l rest, Text.lines cs = init ++ l :: rest ∧ init.length = n ∧
        range = (spanOf init, spanOf init + width l) := by
  rw [lineRange, ofText, Option.map_eq_some_iff]
  constructor
  · rintro ⟨l, hl, rfl⟩
    obtain ⟨hn, hget⟩ := List.getElem?_eq_some_iff.1 hl
    refine ⟨(Text.lines cs).take n, l, (Text.lines cs).drop (n + 1), ?_, ?_, rfl⟩
    · rw [← hget, List.getElem_cons_drop, List.take_append_drop]
    · exact List.length_take_of_le (Nat.le_of_lt hn)
  · rintro ⟨init, l, rest, hlines, rfl, rfl⟩
    refine ⟨l, ?_, ?_⟩
    · rw [hlines, List.getElem?_append_right (Nat.le_refl _), Nat.sub_self,
        List.getElem?_cons_zero]
    · rw [hlines, List.take_left]

theorem lineRange_eq_none_iff {n : Nat} :
    (ofText cs).lineRange n = none ↔ (ofText cs).lineCount ≤ n := by
  rw [lineRange, Option.map_eq_none_iff, List.getElem?_eq_none_iff, lineCount]

theorem bounds_of_lineRange {n start stop : Nat}
    (h : (ofText cs).lineRange n = some (start, stop)) : start ≤ stop ∧ stop ≤ width cs := by
  obtain ⟨init, l, rest, hlines, -, heq⟩ := lineRange_eq_some_iff.1 h
  cases heq
  have hspan := spanOf_lines cs
  rw [hlines, spanOf_append, spanOf] at hspan
  omega

theorem lineRange_start_eq_zero_iff {n start stop : Nat}
    (h : (ofText cs).lineRange n = some (start, stop)) : start = 0 ↔ n = 0 := by
  obtain ⟨init, l, rest, -, rfl, heq⟩ := lineRange_eq_some_iff.1 h
  cases heq
  cases init with
  | nil => exact Iff.rfl
  | cons k init => simp [spanOf]

/-- The text in the range of a line is the line. -/
theorem stretch_line {init rest : List Text} {l : Text} (h : Text.lines cs = init ++ l :: rest) :
    cs.stretch (spanOf init, spanOf init + width l) = l := by
  obtain ⟨front, back, hjoin, hwidth⟩ := exists_split_at_line l init rest
  rw [← h, intercalate_lines] at hjoin
  rw [stretch, hjoin, ← hwidth, dropBytes_width_append, Nat.add_sub_cancel_left,
    takeBytes_width_append]

def rangesFrom : Nat → List Text → List (Nat × Nat)
  | _, [] => []
  | offset, l :: ls => (offset, offset + width l) :: rangesFrom (offset + width l + 1) ls

theorem filterMap_lineRange (init : List Text) {rest : List Text}
    (h : Text.lines cs = init ++ rest) :
    (List.range' init.length rest.length).filterMap (ofText cs).lineRange =
      rangesFrom (spanOf init) rest := by
  induction rest generalizing init with
  | nil => rfl
  | cons l rest ih =>
      have hline : (ofText cs).lineRange init.length = some (spanOf init, spanOf init + width l) :=
        lineRange_eq_some_iff.2 ⟨init, l, rest, h, rfl, rfl⟩
      have hrest := ih (init ++ [l]) (by rw [h, List.append_assoc, List.singleton_append])
      rw [List.length_append, List.length_singleton, spanOf_append] at hrest
      rw [List.length_cons, List.range'_succ, List.filterMap_cons_some hline, hrest]
      rfl

theorem map_stretch_rangesFrom (init : List Text) {rest : List Text}
    (h : Text.lines cs = init ++ rest) :
    (rangesFrom (spanOf init) rest).map cs.stretch = rest := by
  induction rest generalizing init with
  | nil => rfl
  | cons l rest ih =>
      have hrest := ih (init ++ [l]) (by rw [h, List.append_assoc, List.singleton_append])
      rw [spanOf_append] at hrest
      rw [rangesFrom, List.map_cons, stretch_line h]
      exact congrArg _ hrest

theorem isChain_rangesFrom (offset : Nat) (ls : List Text) :
    (rangesFrom offset ls).IsChain fun r s => s.1 = r.2 + 1 := by
  induction ls generalizing offset with
  | nil => exact List.IsChain.nil
  | cons l ls ih =>
      cases ls with
      | nil => exact List.IsChain.singleton _
      | cons m ms => exact List.isChain_cons_cons.2 ⟨rfl, ih _⟩

theorem getLast?_rangesFrom (offset : Nat) (init : List Text) (last : Text) :
    (rangesFrom offset (init ++ [last])).getLast?.map Prod.snd =
      some (offset + spanOf init + width last) := by
  induction init generalizing offset with
  | nil => rfl
  | cons l init ih =>
      have hne : rangesFrom (offset + width l + 1) (init ++ [last]) ≠ [] := by
        cases init <;> exact List.cons_ne_nil _ _
      rw [List.cons_append, rangesFrom, List.getLast?_cons_of_ne_nil hne, ih, spanOf]
      congr 1
      omega

variable (cs)

theorem tiles_ranges : Tiles cs (ofText cs).ranges := by
  have hranges : (ofText cs).ranges = rangesFrom 0 (Text.lines cs) := by
    rw [ranges, List.range_eq_range']
    exact filterMap_lineRange [] rfl
  have hmem : ∀ r ∈ (ofText cs).ranges, cs.stretch r ∈ Text.lines cs ∧
      r.1 + width (cs.stretch r) = r.2 := by
    intro r hr
    obtain ⟨n, -, hn⟩ := List.mem_filterMap.1 hr
    obtain ⟨init, l, rest, hlines, -, rfl⟩ := lineRange_eq_some_iff.1 hn
    rw [stretch_line hlines]
    exact ⟨by rw [hlines]; simp, rfl⟩
  obtain ⟨init, last, hlines, -, hwidth, -⟩ := exists_lines_append cs
  refine ⟨?_, ?_, ?_, fun r hr => (hmem r hr).2,
    fun r hr => newline_not_mem_of_mem_lines (hmem r hr).1, ?_⟩
  · rw [hranges, lines_eq_firstLine_cons]
    rfl
  · rw [hranges]
    exact isChain_rangesFrom 0 _
  · rw [hranges, hlines, getLast?_rangesFrom, Nat.zero_add, hwidth]
  · have htexts : (rangesFrom 0 (Text.lines cs)).map cs.stretch = Text.lines cs :=
      map_stretch_rangesFrom [] rfl
    rw [hranges, htexts, intercalate_lines]

/-- Positions follow each other in the order of their offsets. -/
theorem position_before_position {m n : Nat} (h : m < n) (hn : n ≤ width cs) :
    ((ofText cs).position m).before ((ofText cs).position n) = true := by
  obtain ⟨init, l, rest, col, hlines, hcol, hsum, hpos⟩ := exists_column cs m
  obtain ⟨init', l', rest', col', hlines', hcol', hsum', hpos'⟩ := exists_column cs n
  rw [hpos, hpos', Position.before_iff]
  rw [Nat.min_eq_left (by omega)] at hsum hsum'
  rcases Nat.lt_trichotomy init.length init'.length with hlt | heq | hgt
  · exact .inl hlt
  · obtain ⟨rfl, -⟩ := List.append_inj (hlines.symm.trans hlines') heq
    exact .inr ⟨rfl, show col < col' by omega⟩
  · have hspan := spanOf_lt_spanOf (hlines'.symm.trans hlines) hgt
    omega

variable {cs}

/-- A column of a line, given as an offset, is read back as that column. -/
theorem position_lineRange {n start stop col : Nat}
    (h : (ofText cs).lineRange n = some (start, stop)) (hcol : col ≤ stop - start) :
    (ofText cs).position (start + col) = ⟨n, col⟩ := by
  obtain ⟨init, l, rest, hlines, rfl, heq⟩ := lineRange_eq_some_iff.1 h
  cases heq
  rw [position, ofText, hlines, locate_spanOf_add init l rest (by omega)]

theorem offset_eq {p : Position} {start stop : Nat}
    (h : (ofText cs).lineRange p.line = some (start, stop)) :
    (ofText cs).offset p =
      (counted (start + p.col)).map fun _ => some (start + min p.col (stop - start)) := by
  obtain ⟨hle, -⟩ := bounds_of_lineRange h
  rw [offset, h]
  simp only [counted]
  split
  · have hmin : min (start + p.col) stop = start + min p.col (stop - start) := by omega
    simp [Except.map, hmin]
  · rfl

end

/-- The position of an offset leads back to the offset, a column of a line leads to an offset with
that position, later offsets have later positions, and the ranges of the lines tile the text. -/
theorem offset_position_inverse {cs : Text} (hlimit : width cs < countLimit) :
    (∀ n, (ofText cs).offset ((ofText cs).position n) = .ok (some (min n (width cs)))) ∧
      (∀ line < (ofText cs).lineCount, ∃ start stop,
        (ofText cs).lineRange line = some (start, stop) ∧
          ∀ col ≤ stop - start, ∃ n, (ofText cs).offset ⟨line, col⟩ = .ok (some n) ∧
            (ofText cs).position n = ⟨line, col⟩) ∧
      (∀ m n, m < n → n ≤ width cs →
        ((ofText cs).position m).before ((ofText cs).position n) = true) ∧
      Tiles cs (ofText cs).ranges := by
  refine ⟨?_, ?_, fun m n => position_before_position cs, tiles_ranges cs⟩
  · intro n
    obtain ⟨init, l, rest, col, hlines, hcol, hsum, hpos⟩ := exists_column cs n
    rw [hpos, ofText, hlines, offset_spanOf_add init l rest hcol (by omega), hsum]
  · intro line hline
    cases hrange : (ofText cs).lineRange line with
    | none =>
        have hle := lineRange_eq_none_iff.1 hrange
        omega
    | some range =>
        obtain ⟨start, stop⟩ := range
        refine ⟨start, stop, rfl, ?_⟩
        intro col hcol
        obtain ⟨hle, hstop⟩ := bounds_of_lineRange hrange
        have hcount : start + col < countLimit := by omega
        refine ⟨start + col, ?_, position_lineRange hrange hcol⟩
        rw [offset_eq (p := ⟨line, col⟩) hrange, Nat.min_eq_left hcol, counted, if_pos hcount]
        rfl

def wideLetter : Text := "é\n\nab\n".toList

theorem offset_position_inverse_wideLetter :
    width wideLetter < countLimit ∧
      (ofText wideLetter).offset ((ofText wideLetter).position 1) = .ok (some 1) ∧
      (ofText wideLetter).offset ((ofText wideLetter).position 99) = .ok (some 7) ∧
      (∃ n, (ofText wideLetter).offset ⟨1, 0⟩ = .ok (some n) ∧
        (ofText wideLetter).position n = ⟨1, 0⟩) ∧
      ((ofText wideLetter).position 3).before ((ofText wideLetter).position 4) = true ∧
      Tiles wideLetter [(0, 2), (3, 3), (4, 6), (7, 7)] := by
  have hlimit : width wideLetter < countLimit := by decide
  obtain ⟨hback, hthere, horder, htiles⟩ := offset_position_inverse hlimit
  obtain ⟨start, stop, hrange, hcols⟩ := hthere 1 (by decide)
  exact ⟨hlimit, hback 1, hback 99, hcols 0 (Nat.zero_le _), horder 3 4 (by decide) (by decide),
    htiles⟩

/-- There is no offset exactly for the lines that are not there. A column of a line that is there
stands for the offset behind it or for the end of the line, whichever comes first, if and only if
the start of the line and the column have a sum that is a 32-bit count; otherwise there is no
answer, and the largest column has one on the first line only. -/
theorem offset_clamped_iff (cs : Text) (p : Position) :
    ((ofText cs).offset p = .ok none ↔ (ofText cs).lineCount ≤ p.line) ∧
      ∀ start stop, (ofText cs).lineRange p.line = some (start, stop) →
        ((ofText cs).offset p = .ok (some (start + min p.col (stop - start))) ↔
          start + p.col < countLimit) ∧
        ((ofText cs).offset p = .error .overflow ↔ countLimit ≤ start + p.col) ∧
        (p.col = countLimit - 1 → ((ofText cs).offset p = .error .overflow ↔ p.line ≠ 0)) := by
  constructor
  · rw [← lineRange_eq_none_iff]
    cases hrange : (ofText cs).lineRange p.line with
    | none => simp [offset, hrange]
    | some range =>
        obtain ⟨start, stop⟩ := range
        rw [offset_eq hrange, counted]
        split <;> simp [Except.map]
  · intro start stop hrange
    have hoffset := offset_eq hrange
    have hstart := lineRange_start_eq_zero_iff hrange
    rw [counted] at hoffset
    split at hoffset
    · next hcount =>
        rw [hoffset]
        refine ⟨by simp [Except.map, hcount], by simp [Except.map, hcount], ?_⟩
        intro hcol
        have hline : p.line = 0 := hstart.1 (by omega)
        simp [Except.map, hline]
    · next hcount =>
        rw [hoffset]
        refine ⟨by simp [Except.map, hcount], by simp [Except.map, Nat.not_lt.1 hcount], ?_⟩
        intro hcol
        have hline : p.line ≠ 0 := by
          rw [Ne, ← hstart]
          have hpos : 0 < countLimit := by decide
          omega
        simp [Except.map, hline]

/-- The largest column of a second line has no answer, though it stands for the end of the line. -/
theorem offset_overflow_secondLine :
    (ofText "a\nb".toList).lineRange 1 = some (2, 3) ∧
      (ofText "a\nb".toList).offset ⟨1, countLimit - 1⟩ = .error .overflow := by
  decide

end LineMap
end ProcedureIndex
