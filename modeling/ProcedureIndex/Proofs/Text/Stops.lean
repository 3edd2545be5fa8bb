import ProcedureIndex.Proofs.Text.Names

/-!
What headers are made of, and where they stop. Up to the parenthesis that opens its
parameters a header holds blanks and characters of names only; any other character ends
whatever a recogniser is reading, so the header is the same whether the text goes on
with that character or ends before it.
-/

namespace ProcedureIndex
namespace Text

def isHeaderChar (c : Char) : Bool :=
  isNameContinue c || isBlank c

/-- A text that no header goes on with, not even to its parameters. -/
def Stop (b : Text) : Prop :=
  b.head?.any (fun c => isHeaderChar c || c == '(') = false

theorem stop_cons {c : Char} (h : (isHeaderChar c || c == '(') = false) (cs : Text) :
    Stop (c :: cs) :=
  h

namespace Stop

variable {b : Text}

theorem isHeaderChar (h : Stop b) : b.head?.any isHeaderChar = false := by
  cases b with
  | nil => rfl
  | cons c cs => exact (Bool.or_eq_false_iff.1 h).1

theorem isBlank (h : Stop b) : b.head?.any isBlank = false := by
  cases b with
  | nil => rfl
  | cons c cs => exact (Bool.or_eq_false_iff.1 h.isHeaderChar).2

theorem isNameContinue (h : Stop b) : b.head?.any isNameContinue = false := by
  cases b with
  | nil => rfl
  | cons c cs => exact (Bool.or_eq_false_iff.1 h.isHeaderChar).1

theorem not_mem (h : Stop b) {k : Text} (hk : ∀ c ∈ k, (Text.isHeaderChar c || c == '(') = true) :
    ∀ c ∈ b.head?, c ∉ k := by
  intro c hc hck
  rw [Stop, Option.mem_def.1 hc, Option.any_some, hk c hck] at h
  cases h

end Stop

theorem dropWhile_append_of_stop {p : Char → Bool} {b : Text} (hb : b.head?.any p = false)
    (a : Text) : (a ++ b).dropWhile p = a.dropWhile p ++ b := by
  induction a with
  | nil =>
      cases b with
      | nil => rfl
      | cons c cs => exact List.dropWhile_cons_of_neg (by simpa using hb)
  | cons d ds ih =>
      rw [List.cons_append, List.dropWhile_cons, List.dropWhile_cons]
      split
      · exact ih
      · rfl

theorem takeWhile_append_of_stop {p : Char → Bool} {b : Text} (hb : b.head?.any p = false)
    (a : Text) : (a ++ b).takeWhile p = a.takeWhile p := by
  induction a with
  | nil =>
      cases b with
      | nil => rfl
      | cons c cs => exact List.takeWhile_cons_of_neg (by simpa using hb)
  | cons d ds ih =>
      rw [List.cons_append, List.takeWhile_cons, List.takeWhile_cons, ih]

theorem some?_append_of_stop {p : Char → Bool} {b : Text} (hb : b.head?.any p = false)
    (a : Text) : some? p (a ++ b) = (some? p a).map fun r => (r.1, r.2 ++ b) := by
  rw [some?, some?, takeWhile_append_of_stop hb, dropWhile_append_of_stop hb]
  cases a with
  | nil => simp [hb]
  | cons c cs => by_cases hc : p c = true <;> simp [hc]

theorem some?_append_of_pos {p : Char → Bool} {a b : Text} (ha : ∀ c ∈ a, p c = true) (hne : a ≠ [])
    (hb : b.head?.any p = false) : some? p (a ++ b) = some (a, b) := by
  have hwhole : some? p a = some (a, []) := by
    have hhead : a.head?.any p = true := by
      cases a with
      | nil => exact absurd rfl hne
      | cons c cs => exact ha c List.mem_cons_self
    rw [some?, hhead, List.takeWhile_eq_self_iff.2 ha, List.dropWhile_eq_nil_iff.2 ha, if_pos rfl]
  rw [some?_append_of_stop hb, hwhole]
  rfl

theorem name?_append_of_stop {b : Text} (hb : b.head?.any isNameContinue = false) (a : Text) :
    name? (a ++ b) = (name? a).map fun r => (r.1, r.2 ++ b) := by
  cases a with
  | nil =>
      cases b with
      | nil => rfl
      | cons c cs =>
          have hc : isNameStart c = false := by
            rw [Bool.eq_false_iff]
            intro hs
            have hb : isNameContinue c = false := hb
            rw [isNameContinue_of_isNameStart hs] at hb
            cases hb
          simp [name?, hc]
  | cons c cs =>
      rw [List.cons_append, name?, name?, takeWhile_append_of_stop hb, dropWhile_append_of_stop hb]
      split <;> rfl

theorem after?_append_of_stop {k b : Text} (hb : ∀ c ∈ b.head?, c ∉ k) (a : Text) :
    after? k (a ++ b) = (after? k a).map (· ++ b) := by
  induction k generalizing a with
  | nil => rfl
  | cons x k ih =>
      cases a with
      | nil =>
          cases b with
          | nil => rfl
          | cons c cs =>
              have hne : x ≠ c := fun he => hb c rfl (he ▸ List.mem_cons_self)
              simp [after?, hne]
      | cons c cs =>
          simp only [List.cons_append, after?]
          split
          · exact ih (fun d hd hdk => hb d hd (List.mem_cons_of_mem x hdk)) cs
          · rfl

theorem named?_append_of_stop {keyword b : Text} (hk : ∀ c ∈ keyword, isHeaderChar c = true)
    (hb : Stop b) (a : Text) :
    named? keyword (a ++ b) = (named? keyword a).map fun r => (r.1, r.2 ++ b) := by
  have hkeyword := hb.not_mem fun c hc => Bool.or_eq_true_iff.2 (.inl (hk c hc))
  simp only [named?, bind, Option.bind, after?_append_of_stop hkeyword]
  cases after? keyword a with
  | none => rfl
  | some r =>
      simp only [Option.map_some, blanks?, some?_append_of_stop hb.isBlank]
      cases some? isBlank r with
      | none => rfl
      | some g =>
          simp only [Option.map_some, name?_append_of_stop hb.isNameContinue]
          cases name? g.2 <;> rfl

/-- What a text starts with behind its first characters of a class. -/
theorem eq_of_after?_dropWhile {p : Char → Bool} {k cs rest : Text}
    (h : after? k (cs.dropWhile p) = some rest) : cs = cs.takeWhile p ++ (k ++ rest) := by
  rw [← after?_eq_some_iff.1 h, List.takeWhile_append_dropWhile]

/-- A name does not go on over blanks or a parenthesis. -/
theorem isNameContinue_gap {gap : Text} (hgap : ∀ c ∈ gap, isBlank c = true) (behind : Text) :
    (gap ++ '(' :: behind).head?.any isNameContinue = false := by
  cases gap with
  | nil =>
      change isNameContinue '(' = false
      decide +kernel
  | cons c gap => exact isNameContinue_of_isBlank (hgap c List.mem_cons_self)

theorem all_of_some? {p : Char → Bool} {cs taken rest : Text}
    (h : some? p cs = some (taken, rest)) : ∀ c ∈ taken, p c = true := by
  rw [some?] at h
  split at h
  · cases h
    exact fun c hc => List.mem_takeWhile_imp hc
  · cases h

theorem isHeaderChar_of_isBlank {c : Char} (h : isBlank c = true) : isHeaderChar c = true := by
  simp [isHeaderChar, h]

theorem all_of_named? {keyword cs lead name rest : Text}
    (hk : ∀ c ∈ keyword, isHeaderChar c = true)
    (h : named? keyword cs = some ((lead, name), rest)) :
    ∀ c ∈ lead ++ name, isHeaderChar c = true := by
  simp only [named?, bind, Option.bind_eq_some_iff] at h
  obtain ⟨r, -, ⟨gap, r'⟩, hgap, ⟨n, r''⟩, hn, he⟩ := h
  cases he
  intro c hc
  simp only [List.mem_append] at hc
  rcases hc with (hc | hc) | hc
  · exact hk c hc
  · exact isHeaderChar_of_isBlank (all_of_some? hgap c hc)
  · simp [isHeaderChar, (name?_eq_some hn).2.1.all c hc]

end Text
end ProcedureIndex
