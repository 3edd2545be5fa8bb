import ProcedureIndex.Proofs.Document.LinesBelow

/-!
How far a class header reaches. A text that ends in a mark after which no header goes on
can be followed by anything: the search for classes finds in it what it finds in it alone.
What a class in such a text does to the functions behind the text is then seen in the
text itself: whether a place at its end counts as lying in the class, and whether a body
is still open there.
-/

namespace ProcedureIndex

open Text

theorem ClassHeader.parent?_append_of_stop {b : Text} (hb : Stop b) (a : Text) :
    parent? (a ++ b) = (parent? a).map fun r => (r.1, r.2 ++ b) := by
  simp only [parent?, bind, Option.bind, blanks?, some?_append_of_stop hb.isBlank]
  cases some? isBlank a with
  | none => rfl
  | some g =>
      simp only [Option.map_some, named?_append_of_stop extends_chars hb]
      cases named? "extends".toList g.2 <;> rfl

theorem ClassHeader.pattern_append_of_stop {b : Text} (hb : Stop b) (prev : Option Char)
    (a : Text) : pattern prev (a ++ b) = (pattern prev a).map fun r => (r.1, r.2 ++ b) := by
  rw [pattern, pattern]
  split
  · rfl
  · simp only [bind, Option.bind, named?_append_of_stop keyword_chars hb]
    cases named? keyword a with
    | none => rfl
    | some r =>
        simp only [Option.map_some, parent?_append_of_stop hb]
        cases parent? r.2 <;> rfl

namespace Site

variable {front line : Text}

/-- A mark after which no header goes on, and marks behind it. -/
structure Closing (b : Text) : Prop where
  nonempty : b ≠ []
  stop : Stop b
  marks : ∀ c ∈ b, isWordChar c = false

theorem Closing.classes_append {b : Text} (hb : Closing b) (a back : Text) :
    classes (a ++ (b ++ back)) = (classes a).map (Hit.before (b ++ back)) ++
      (classes back).map (Hit.down (width a + width b)) := by
  obtain ⟨c, cs, rfl⟩ := List.exists_cons_of_ne_nil hb.nonempty
  have hstop : Stop (c :: cs ++ back) := hb.stop
  have hedge : Edge (c :: cs ++ back) := edge_cons (hb.marks c List.mem_cons_self)
  rw [classes, hits, ClassHeader.keyed.hitsFrom_append (ClassHeader.pattern_append_of_stop hstop)
    none 0 (Nat.zero_le _), Nat.zero_add, ClassHeader.keyed.hitsFrom_of_edge _ hedge,
    ClassHeader.keyed.hitsFrom_marks hb.marks]
  exact congrArg _ (hitsFrom_add ClassHeader.pattern _ none 0 0 back)

theorem Closing.classes_concat {b : Text} (hb : Closing b) (a : Text) :
    classes (a ++ b) = (classes a).map (Hit.before b) := by
  have happend := hb.classes_append a []
  rwa [List.append_nil, show classes [] = [] from rfl, List.map_nil, List.append_nil] at happend

/-- A text whose end is in code and is read over by no class header. -/
structure Whole (front : Text) : Prop where
  code : Quoting.code.after front = .code
  search : ∀ back, classes (front ++ back) =
    (classes front).map (Hit.before back) ++ (classes back).map (Hit.down (width front))

theorem Closing.whole {a b : Text} (hb : Closing b) (hcode : Quoting.code.after (a ++ b) = .code) :
    Whole (a ++ b) where
  code := hcode
  search back := by
    have hbefore : Hit.before back ∘ Hit.before b = Hit.before (α := ClassHeader) (b ++ back) :=
      funext (Hit.before_before b back)
    rw [List.append_assoc, hb.classes_append, hb.classes_concat, List.map_map, hbefore,
      width_append]

theorem whole_nil : Whole [] where
  code := rfl
  search back := by
    have hdown : Hit.down (α := ClassHeader) (width []) = id := by
      funext h
      rw [Hit.down, width_nil, Nat.zero_add]
      rfl
    rw [hdown, List.map_id]
    rfl

theorem Whole.append (hfront : Whole front) (hline : Whole line) : Whole (front ++ line) where
  code := by rw [Quoting.after_append, hfront.code, hline.code]
  search back := by
    have hbefore : Hit.before back ∘ Hit.before line =
        Hit.before (α := ClassHeader) (line ++ back) := funext (Hit.before_before line back)
    have hdown : Hit.down (α := ClassHeader) (width front) ∘ Hit.down (width line) =
        Hit.down (width (front ++ line)) := by
      funext h
      rw [Function.comp_apply, Hit.down_down, width_append]
    rw [List.append_assoc, hfront.search, hline.search, hfront.search, List.map_append,
      List.map_append, List.map_map, List.map_map, List.map_map, List.map_map, hbefore, hdown,
      List.append_assoc]
    rfl

theorem Whole.closers_append (h : Whole front) (back : Text) :
    closers (front ++ back) = closers front ++ (closers back).map (width front + ·) := by
  rw [closers_below, h.code]
  rfl

def endsInClass (cs : Text) : Bool :=
  inClass ((classes cs).map Hit.start) (closers cs) (width cs)

theorem Whole.starts_append (h : Whole front) (back : Text) :
    (classes (front ++ back)).map Hit.start =
      (classes front).map Hit.start ++ ((classes back).map Hit.start).map (width front + ·) := by
  rw [h.search, List.map_append, List.map_map, List.map_map, List.map_map]
  rfl

/-- What stands behind a place has no part in whether the place counts as lying in a class. -/
theorem Whole.inClass_append (h : Whole front) (back : Text) :
    inClass ((classes (front ++ back)).map Hit.start) (closers (front ++ back)) (width front) =
      endsInClass front := by
  have hbehind : ∀ ys : List Nat, lastBefore (ys.map (width front + ·)) (width front) = none := by
    intro ys
    apply lastBefore_eq_none
    intro y hy
    obtain ⟨x, -, rfl⟩ := List.mem_map.1 hy
    exact Nat.le_add_right _ x
  rw [endsInClass, inClass, inClass, h.starts_append, h.closers_append, lastBefore_append,
    lastBefore_append, hbehind, hbehind, Option.none_or, Option.none_or]

theorem start_lt_of_mem_classes {cs : Text} {n : Nat} (h : n ∈ (classes cs).map Hit.start) :
    n < width cs := by
  obtain ⟨k, hk, rfl⟩ := List.mem_map.1 h
  obtain ⟨pre, suf, rfl, hstart, hp⟩ := mem_hits hk
  have hne : suf ≠ [] := by
    rintro rfl
    rw [ClassHeader.keyed.eq_none_of_edge _ edge_nil] at hp
    cases hp
  have hpos := width_pos hne
  rw [hstart, width_append]
  omega

/-- The last line of a text decides for the place behind it, unless it has neither a class header
nor a closing brace. -/
theorem Whole.endsInClass_append (h : Whole front) (line : Text) :
    endsInClass (front ++ line) =
      if lastBefore ((classes line).map Hit.start) (width line) = none ∧
          lastBefore (closers line) (width line) = none
      then endsInClass front else endsInClass line := by
  have hclosers : ∀ b ∈ closers front, b < width front := by
    intro b hb
    have hbounds := bounds_of_mem_closersFrom (show b ∈ closersFrom .code 0 front from hb)
    omega
  rw [endsInClass, h.starts_append, h.closers_append, width_append]
  exact inClass_concat (fun _ => start_lt_of_mem_classes) hclosers _ _ _

theorem Whole.endsInClass_of_line (h : Whole front) (hline : endsInClass line = true) :
    endsInClass (front ++ line) = true := by
  rw [h.endsInClass_append, if_neg, hline]
  rintro ⟨hclass, -⟩
  rw [endsInClass, inClass, hclass] at hline
  cases hline

theorem Whole.endsInClass_eq_false (h : Whole front) (hfront : endsInClass front = false)
    (hline : endsInClass line = false) : endsInClass (front ++ line) = false := by
  rw [h.endsInClass_append]
  split
  · exact hfront
  · exact hline

/-- A text in which every class ends: a place behind it does not count as lying in one, and no body
is open there. -/
structure Contained (line : Text) : Prop where
  nesting : endsInClass line = false
  bodies : ∀ k ∈ classes line, ∀ inner, k.rest.dropWhile isBlank = '{' :: inner →
    untilClosed .code 1 inner ≠ inner

theorem contained_of_classes_eq_nil (h : classes line = []) : Contained line where
  nesting := by rw [endsInClass, h]; rfl
  bodies k hk := by
    rw [h] at hk
    cases hk

end Site
end ProcedureIndex
