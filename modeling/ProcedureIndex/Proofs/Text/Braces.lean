import ProcedureIndex.Text.Code

/-!
Braces among code. A text without braces changes no depth, and one that also closes
the strings it opens can stand anywhere in code without being noticed.
-/

namespace ProcedureIndex
namespace Text

theorem untilClosed_append {a : Text} (hopen : '{' ∉ a) (hclose : '}' ∉ a) (q : Quoting)
    (depth : Nat) (b : Text) :
    untilClosed q depth (a ++ b) = a ++ untilClosed (q.after a) depth b := by
  induction a generalizing q with
  | nil => rfl
  | cons c cs ih =>
      have hc : (c == '{') = false ∧ (c == '}') = false := by
        simp only [beq_eq_false_iff_ne]
        constructor
        · rintro rfl
          exact hopen (by simp)
        · rintro rfl
          exact hclose (by simp)
      rw [List.cons_append, untilClosed]
      simp only [hc.1, hc.2, Bool.and_false, Bool.false_eq_true, if_false]
      rw [ih (by simp_all) (by simp_all), Quoting.after_cons]
      rfl

def closersFrom (q : Quoting) (offset : Nat) (cs : Text) : List Nat :=
  ((codeCharsFrom q offset cs).filter fun p => p.2 == '}').map Prod.fst

theorem closersFrom_append (q : Quoting) (offset : Nat) (a b : Text) :
    closersFrom q offset (a ++ b) =
      closersFrom q offset a ++ closersFrom (q.after a) (offset + width a) b := by
  simp [closersFrom, codeCharsFrom_append]

theorem closersFrom_eq_nil {a : Text} (hclose : '}' ∉ a) (q : Quoting) (offset : Nat) :
    closersFrom q offset a = [] := by
  induction a generalizing q offset with
  | nil => rfl
  | cons c cs ih =>
      have hc : (c == '}') = false := by
        rw [beq_eq_false_iff_ne]
        rintro rfl
        exact hclose (by simp)
      have hrest : '}' ∉ cs := by simp_all
      have htail := ih hrest (q.next c) (offset + c.utf8Size)
      rw [closersFrom, codeCharsFrom]
      split
      · rw [List.filter_cons_of_neg (by simp [hc])]
        exact htail
      · exact htail

structure Calm (a : Text) : Prop where
  code : Quoting.code.after a = .code
  noOpen : '{' ∉ a
  noClose : '}' ∉ a

namespace Calm

variable {a b : Text}

theorem append (ha : Calm a) (hb : Calm b) : Calm (a ++ b) where
  code := by rw [Quoting.after_append, ha.code, hb.code]
  noOpen := by simp [ha.noOpen, hb.noOpen]
  noClose := by simp [ha.noClose, hb.noClose]

theorem untilClosed (h : Calm a) (depth : Nat) (b : Text) :
    untilClosed .code depth (a ++ b) = a ++ Text.untilClosed .code depth b := by
  rw [untilClosed_append h.noOpen h.noClose, h.code]

theorem flatMap {β : Type} {f : β → Text} {l : List β} (h : ∀ x ∈ l, Calm (f x)) :
    Calm (l.flatMap f) := by
  induction l with
  | nil => exact ⟨rfl, by simp, by simp⟩
  | cons x l ih =>
      rw [List.flatMap_cons]
      exact (h x (by simp)).append (ih fun y hy => h y (by simp [hy]))

end Calm

theorem after_eq_self {a : Text} {q : Quoting} (h : ∀ c ∈ a, q.next c = q) : q.after a = q := by
  induction a with
  | nil => rfl
  | cons c cs ih =>
      rw [Quoting.after_cons, h c (by simp)]
      exact ih fun d hd => h d (by simp [hd])

/-- Code characters stand in the text that they are read from. -/
theorem bounds_of_mem_codeCharsFrom {q : Quoting} {offset i : Nat} {c : Char} {cs : Text}
    (h : (i, c) ∈ codeCharsFrom q offset cs) : offset ≤ i ∧ i < offset + width cs := by
  induction cs generalizing q offset with
  | nil => cases h
  | cons d cs ih =>
      have hpos := d.utf8Size_pos
      have hlater : (i, c) ∈ codeCharsFrom (q.next d) (offset + d.utf8Size) cs →
          offset ≤ i ∧ i < offset + width (d :: cs) := by
        intro hmem
        have hbounds := ih hmem
        rw [width_cons]
        omega
      simp only [codeCharsFrom] at h
      split at h
      · rcases List.mem_cons.1 h with heq | h
        · cases heq
          rw [width_cons]
          omega
        · exact hlater h
      · exact hlater h

theorem codeCharsFrom_pairwise (q : Quoting) (offset : Nat) (cs : Text) :
    ((codeCharsFrom q offset cs).map Prod.fst).Pairwise (· < ·) := by
  induction cs generalizing q offset with
  | nil => exact .nil
  | cons c cs ih =>
      rw [codeCharsFrom]
      split
      · rw [List.map_cons, List.pairwise_cons]
        refine ⟨?_, ih _ _⟩
        intro i hi
        obtain ⟨⟨n, d⟩, hd, rfl⟩ := List.mem_map.1 hi
        have hbounds := bounds_of_mem_codeCharsFrom hd
        have hpos := c.utf8Size_pos
        exact Nat.lt_of_lt_of_le (Nat.lt_add_of_pos_right hpos) hbounds.1
      · exact ih _ _

theorem bounds_of_mem_closersFrom {q : Quoting} {offset i : Nat} {cs : Text}
    (h : i ∈ closersFrom q offset cs) : offset ≤ i ∧ i < offset + width cs := by
  obtain ⟨⟨_, c⟩, hc, rfl⟩ := List.mem_map.1 h
  exact bounds_of_mem_codeCharsFrom (List.mem_filter.1 hc).1

theorem closersFrom_pairwise (q : Quoting) (offset : Nat) (cs : Text) :
    (closersFrom q offset cs).Pairwise (· < ·) :=
  (codeCharsFrom_pairwise q offset cs).sublist (List.filter_sublist.map Prod.fst)

/-- In front of a code character the text stands outside strings. -/
theorem after_eq_code_of_mem {pre suf : Text} {c : Char}
    (h : (width pre, c) ∈ codeChars (pre ++ suf)) : Quoting.code.after pre = .code := by
  rw [codeChars, codeCharsFrom_append, Nat.zero_add] at h
  rcases List.mem_append.1 h with h | h
  · have hbounds := bounds_of_mem_codeCharsFrom h
    omega
  · cases suf with
    | nil => cases h
    | cons d ds =>
        simp only [codeCharsFrom] at h
        split at h
        · next hcode =>
            cases hq : Quoting.code.after pre with
            | code => rfl
            | within q | hidden q =>
                rw [hq] at hcode
                cases hcode
        · have hbounds := bounds_of_mem_codeCharsFrom h
          have hpos := d.utf8Size_pos
          omega

/-- A body reaches over everything up to its first closing brace, however deep it gets there. -/
theorem exists_untilClosed_append {a : Text} {q : Quoting} {offset : Nat}
    (h : closersFrom q offset a = []) (depth : Nat) (b : Text) :
    ∃ depth', untilClosed q depth (a ++ b) = a ++ untilClosed (q.after a) depth' b := by
  induction a generalizing q offset depth with
  | nil => exact ⟨depth, rfl⟩
  | cons c cs ih =>
      rw [show c :: cs = [c] ++ cs from rfl, closersFrom_append, List.append_eq_nil_iff] at h
      have hopen : (q.isCode c && c == '}') = false := by
        rw [Bool.eq_false_iff]
        intro hc
        rw [Bool.and_eq_true] at hc
        simp [closersFrom, codeCharsFrom, hc.1, hc.2] at h
      have hrest : closersFrom (q.next c) (offset + c.utf8Size) cs = [] := h.2
      rw [List.cons_append, untilClosed, hopen]
      simp only [Bool.false_eq_true, if_false, Quoting.after_cons]
      split
      · obtain ⟨depth', heq⟩ := ih hrest (depth + 1)
        exact ⟨depth', by rw [heq]; rfl⟩
      · obtain ⟨depth', heq⟩ := ih hrest depth
        exact ⟨depth', by rw [heq]; rfl⟩

/-- What a body leaves of the text is nothing, or starts with the brace that closes the body. -/
theorem exists_untilClosed_split (q : Quoting) (depth : Nat) (cs : Text) :
    ∃ back, cs = untilClosed q depth cs ++ back ∧ back.head?.all (· == '}') = true := by
  induction cs generalizing q depth with
  | nil => exact ⟨[], rfl, rfl⟩
  | cons c cs ih =>
      rw [untilClosed]
      split
      · next hc =>
          split
          · exact ⟨c :: cs, rfl, (Bool.and_eq_true .. ▸ hc).2⟩
          · obtain ⟨back, hcs, hback⟩ := ih (q.next c) (depth - 1)
            exact ⟨back, by rw [List.cons_append, ← hcs], hback⟩
      · split
        · obtain ⟨back, hcs, hback⟩ := ih (q.next c) (depth + 1)
          exact ⟨back, by rw [List.cons_append, ← hcs], hback⟩
        · obtain ⟨back, hcs, hback⟩ := ih (q.next c) depth
          exact ⟨back, by rw [List.cons_append, ← hcs], hback⟩

/-- A body that closes in the front part of a text does not see the rest. -/
theorem untilClosed_append_of_ne {q : Quoting} {depth : Nat} {a : Text}
    (h : untilClosed q depth a ≠ a) (b : Text) :
    untilClosed q depth (a ++ b) = untilClosed q depth a := by
  induction a generalizing q depth with
  | nil => exact absurd rfl h
  | cons c cs ih =>
      have hcons : ∀ {q' depth'}, c :: untilClosed q' depth' cs ≠ c :: cs →
          c :: untilClosed q' depth' (cs ++ b) = c :: untilClosed q' depth' cs :=
        fun hne => congrArg (c :: ·) (ih fun heq => hne (congrArg (c :: ·) heq))
      rw [untilClosed] at h
      rw [List.cons_append, untilClosed, untilClosed]
      split at h
      · next hclose =>
          rw [if_pos hclose, if_pos hclose]
          split at h
          · next hlast => rw [if_pos hlast, if_pos hlast]
          · next hlast =>
              rw [if_neg hlast, if_neg hlast]
              exact hcons h
      · next hclose =>
          rw [if_neg hclose, if_neg hclose]
          split at h
          · next hopen =>
              rw [if_pos hopen, if_pos hopen]
              exact hcons h
          · next hopen =>
              rw [if_neg hopen, if_neg hopen]
              exact hcons h

/-- A body that does not close in the front part of a text goes on behind it. -/
theorem exists_untilClosed_append_of_eq {q : Quoting} {depth : Nat} {a : Text}
    (h : untilClosed q depth a = a) (hdepth : 1 ≤ depth) :
    ∃ depth', 1 ≤ depth' ∧
      ∀ b, untilClosed q depth (a ++ b) = a ++ untilClosed (q.after a) depth' b := by
  induction a generalizing q depth with
  | nil => exact ⟨depth, hdepth, fun _ => rfl⟩
  | cons c cs ih =>
      have hcons : ∀ {depth'}, c :: untilClosed (q.next c) depth' cs = c :: cs → 1 ≤ depth' →
          ∃ d, 1 ≤ d ∧ ∀ b, c :: untilClosed (q.next c) depth' (cs ++ b) =
            c :: (cs ++ untilClosed ((q.next c).after cs) d b) := by
        intro depth' heq hle
        obtain ⟨d, hd, hgo⟩ := ih (List.cons.inj heq).2 hle
        exact ⟨d, hd, fun b => by rw [hgo b]⟩
      rw [untilClosed] at h
      simp only [List.cons_append, untilClosed, Quoting.after_cons]
      split at h
      · next hclose =>
          simp only [if_pos hclose]
          split at h
          · cases h
          · next hlast =>
              simp only [if_neg hlast]
              exact hcons h (by omega)
      · next hclose =>
          simp only [if_neg hclose]
          split at h
          · next hopen =>
              simp only [if_pos hopen]
              exact hcons h (by omega)
          · next hopen =>
              simp only [if_neg hopen]
              exact hcons h hdepth

theorem Quoting.next_next_newline (q : Quoting) {c : Char} (hc : c ≠ '\\') :
    (q.next c).next '\n' = .code := by
  have hend : ∀ quote, (Quoting.within quote).next '\n' = .code := by
    intro quote
    simp [next]
  cases q with
  | code =>
      rw [next]
      split
      · exact hend c
      · rfl
  | within quote =>
      rw [next, if_neg hc]
      split
      · rfl
      · exact hend quote
  | hidden quote => exact hend quote

end Text
end ProcedureIndex
