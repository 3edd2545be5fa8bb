/-!
Texts as lists of characters. Offsets, columns and lengths count bytes of the
UTF-8 form, so a place in a text is a byte count that need not lie between two
characters; cutting a text is total and cuts before the character it would split.
-/

namespace ProcedureIndex

/-- A document, a line of one, or any other stretch of characters. -/
abbrev Text := List Char

namespace Text

/-- The length in bytes. -/
def width : Text → Nat
  | [] => 0
  | c :: cs => c.utf8Size + width cs

@[simp] theorem width_nil : width [] = 0 := rfl

@[simp] theorem width_cons (c : Char) (cs : Text) :
    width (c :: cs) = c.utf8Size + width cs := rfl

@[simp] theorem width_append (a b : Text) : width (a ++ b) = width a + width b := by
  induction a with
  | nil => simp
  | cons c cs ih => simp [ih, Nat.add_assoc]

theorem width_eq_zero {cs : Text} (h : width cs = 0) : cs = [] := by
  cases cs with
  | nil => rfl
  | cons c cs =>
      rw [width_cons] at h
      have hpos := c.utf8Size_pos
      omega

theorem width_pos {cs : Text} (h : cs ≠ []) : 0 < width cs :=
  Nat.pos_of_ne_zero fun hzero => h (width_eq_zero hzero)

/-- Of two cuts of a text, the one at the smaller offset comes first. -/
theorem exists_between_cuts {a b p q : Text} (h : a ++ b = p ++ q) (hle : width a ≤ width p) :
    ∃ m, p = a ++ m ∧ b = m ++ q := by
  cases List.append_eq_append_iff.1 h with
  | inl hm => exact hm
  | inr hm =>
      obtain ⟨m, rfl, hq⟩ := hm
      have hnil : m = [] := by
        apply width_eq_zero
        rw [width_append] at hle
        omega
      rw [hnil] at hq ⊢
      exact ⟨[], by simp, hq.symm⟩

/-- A mark that a text does not hold stands behind it. -/
theorem exists_split_behind {a b x y : Text} {c : Char} (h : a ++ b = x ++ c :: y) (hc : c ∉ a) :
    ∃ z, x = a ++ z ∧ b = z ++ c :: y := by
  cases List.append_eq_append_iff.1 h with
  | inl hm => exact hm
  | inr hm =>
      obtain ⟨m, rfl, hb⟩ := hm
      cases m with
      | nil => exact ⟨[], by simp, hb.symm⟩
      | cons d m =>
          cases hb
          exact absurd (List.mem_append_right x List.mem_cons_self) hc

/-- A mark that a text does not hold stands in front of it. -/
theorem exists_split_front {a b x y : Text} {c : Char} (h : x ++ c :: y = a ++ b) (hc : c ∉ b) :
    ∃ z, a = x ++ c :: z ∧ y = z ++ b := by
  cases List.append_eq_append_iff.1 h with
  | inl hm =>
      obtain ⟨m, rfl, hy⟩ := hm
      cases m with
      | nil =>
          rw [List.nil_append] at hy
          rw [← hy] at hc
          exact absurd List.mem_cons_self hc
      | cons d m =>
          cases hy
          exact ⟨m, rfl, rfl⟩
  | inr hm =>
      obtain ⟨m, -, rfl⟩ := hm
      exact absurd (List.mem_append_right m List.mem_cons_self) hc

/-- The characters that lie whole in the first `n` bytes. -/
def takeBytes : Nat → Text → Text
  | _, [] => []
  | n, c :: cs => if c.utf8Size ≤ n then c :: takeBytes (n - c.utf8Size) cs else []

/-- The characters that do not lie whole in the first `n` bytes. -/
def dropBytes : Nat → Text → Text
  | _, [] => []
  | n, c :: cs => if c.utf8Size ≤ n then dropBytes (n - c.utf8Size) cs else c :: cs

theorem takeBytes_append_dropBytes (n : Nat) (cs : Text) :
    takeBytes n cs ++ dropBytes n cs = cs := by
  induction cs generalizing n with
  | nil => rfl
  | cons c cs ih =>
      simp only [takeBytes, dropBytes]
      split
      · simp [ih]
      · rfl

@[simp] theorem takeBytes_width_append (a b : Text) : takeBytes (width a) (a ++ b) = a := by
  induction a with
  | nil =>
      cases b with
      | nil => rfl
      | cons c cs => simp [takeBytes, Nat.not_le.2 (Char.utf8Size_pos c)]
  | cons c cs ih => simp [takeBytes, ih]

@[simp] theorem dropBytes_width_append (a b : Text) : dropBytes (width a) (a ++ b) = b := by
  induction a with
  | nil =>
      cases b with
      | nil => rfl
      | cons c cs => simp [dropBytes, Nat.not_le.2 (Char.utf8Size_pos c)]
  | cons c cs ih => simp [dropBytes, ih]

/-- True between two characters and at both ends of the text. -/
def isBoundary (n : Nat) (cs : Text) : Bool :=
  width (takeBytes n cs) == n

theorem isBoundary_width (a b : Text) : isBoundary (width a) (a ++ b) = true := by
  rw [isBoundary, takeBytes_width_append, beq_self_eq_true]

theorem exists_split_of_isBoundary {n : Nat} {cs : Text} (h : isBoundary n cs = true) :
    ∃ a b, cs = a ++ b ∧ width a = n :=
  ⟨takeBytes n cs, dropBytes n cs, (takeBytes_append_dropBytes n cs).symm, eq_of_beq h⟩

def after? : Text → Text → Option Text
  | [], cs => some cs
  | _ :: _, [] => none
  | k :: ks, c :: cs => if k = c then after? ks cs else none

theorem after?_eq_some_iff {k cs rest : Text} :
    after? k cs = some rest ↔ cs = k ++ rest := by
  induction k generalizing cs with
  | nil => simp [after?, eq_comm]
  | cons a k ih =>
      cases cs with
      | nil => simp [after?]
      | cons c cs =>
          by_cases h : a = c
          · simp [after?, h, ih]
          · simp [after?, h, Ne.symm h]

/-- Cuts a text at the first occurrence of `k`: what stands before it and what follows it. -/
def cut? (k : Text) : Text → Option (Text × Text)
  | [] => (after? k []).map fun rest => ([], rest)
  | c :: cs =>
      match after? k (c :: cs) with
      | some rest => some ([], rest)
      | none => (cut? k cs).map fun (before, rest) => (c :: before, rest)

def includes (cs k : Text) : Bool :=
  (cut? k cs).isSome

end Text
end ProcedureIndex
