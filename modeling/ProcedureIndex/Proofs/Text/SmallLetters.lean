import Mathlib.Data.List.Basic
import ProcedureIndex.Text.Lowercase

/-!
Small letters of a piece of a text. A piece is lowered by what stands around it, and of that
only the large sigma takes notice: it ends a word where it stands behind a cased character and
in front of none. So the piece has the same small form on its own unless one of its sigmas
is told apart from a final one by what is not in the piece.
-/

namespace ProcedureIndex
namespace Text

def isIgnorable (c : Char) : Bool :=
  covers caseIgnorableRanges c.toNat

theorem meetsCased_cons (c : Char) (cs : Text) :
    meetsCased (c :: cs) = if isIgnorable c then meetsCased cs else covers casedRanges c.toNat := by
  rw [meetsCased, List.dropWhile_cons]
  split
  · next hc => exact (if_pos hc).symm
  · next hc => exact (if_neg hc).symm

theorem meetsCased_append_of_ignorable {a : Text} (h : ∀ c ∈ a, isIgnorable c = true) (b : Text) :
    meetsCased (a ++ b) = meetsCased b := by
  induction a with
  | nil => rfl
  | cons c a ih =>
      obtain ⟨hc, hrest⟩ := List.forall_mem_cons.1 h
      rw [List.cons_append, meetsCased_cons, if_pos hc, ih hrest]

theorem meetsCased_eq_false_of_ignorable {a : Text} (h : ∀ c ∈ a, isIgnorable c = true) :
    meetsCased a = false := by
  rw [← List.append_nil a, meetsCased_append_of_ignorable h]
  rfl

/-- Behind a character that is not looked through nothing counts. -/
theorem meetsCased_append_of_not_ignorable {a : Text} (h : ¬ ∀ c ∈ a, isIgnorable c = true)
    (b : Text) : meetsCased (a ++ b) = meetsCased a := by
  induction a with
  | nil => exact absurd (fun _ hc => absurd hc List.not_mem_nil) h
  | cons c a ih =>
      rw [List.cons_append, meetsCased_cons, meetsCased_cons]
      split
      · next hc => exact ih fun hall => h (List.forall_mem_cons.2 ⟨hc, hall⟩)
      · rfl

theorem meetsCased_append_of_meetsCased {a : Text} (h : meetsCased a = true) (b : Text) :
    meetsCased (a ++ b) = true := by
  rw [meetsCased_append_of_not_ignorable _ b, h]
  intro hall
  rw [meetsCased_eq_false_of_ignorable hall] at h
  cases h

theorem meetsCased_eq_false_of_append {a b : Text} (h : meetsCased (a ++ b) = false) :
    meetsCased a = false := by
  by_contra ha
  rw [meetsCased_append_of_meetsCased (eq_true_of_ne_false ha)] at h
  cases h

theorem meetsCased_of_append {a b : Text} (h : meetsCased (a ++ b) = true)
    (hb : meetsCased b = false) : meetsCased a = true := by
  by_cases ha : ∀ c ∈ a, isIgnorable c = true
  · rw [meetsCased_append_of_ignorable ha, hb] at h
    cases h
  · rwa [meetsCased_append_of_not_ignorable ha] at h

/-- Does a large sigma end a word here? What stands in front of it is given nearest first. -/
def endsWord (before after : Text) : Bool :=
  meetsCased before && !meetsCased after

def lowerAt (before : Text) (c : Char) (after : Text) : Text :=
  if c = 'Σ' then [if endsWord before after then 'ς' else 'σ'] else lowerChar c

def lowerBetween (before : Text) : Text → Text → Text
  | [], _ => []
  | c :: cs, behind => lowerAt before c (cs ++ behind) ++ lowerBetween (c :: before) cs behind

theorem lowerAfter_append (before a b : Text) :
    lowerAfter before (a ++ b) = lowerBetween before a b ++ lowerAfter (a.reverse ++ before) b := by
  induction a generalizing before with
  | nil => rfl
  | cons c a ih =>
      rw [List.cons_append, lowerAfter, ih, lowerBetween, List.reverse_cons, List.append_assoc,
        List.append_assoc]
      rfl

theorem lowerBetween_append (before a b behind : Text) :
    lowerBetween before (a ++ b) behind =
      lowerBetween before a (b ++ behind) ++ lowerBetween (a.reverse ++ before) b behind := by
  induction a generalizing before with
  | nil => rfl
  | cons c a ih =>
      rw [List.cons_append, lowerBetween, ih, lowerBetween, List.reverse_cons, List.append_assoc,
        List.append_assoc, List.append_assoc]
      rfl

theorem lower_eq (cs : Text) : lower cs = lowerBetween [] cs [] := by
  have h := lowerAfter_append [] cs []
  rw [List.append_nil] at h
  rw [lower, h, lowerAfter, List.append_nil]

/-- A text in three pieces, each lowered where it stands. -/
theorem lower_append (a q b : Text) :
    lower (a ++ (q ++ b)) = lowerBetween [] a (q ++ b) ++
      (lowerBetween a.reverse q b ++ lowerBetween (q.reverse ++ a.reverse) b []) := by
  rw [lower_eq, lowerBetween_append, lowerBetween_append, List.append_nil, List.append_nil,
    List.append_nil]

theorem length_lowerBetween (before before' cs behind behind' : Text) :
    (lowerBetween before cs behind).length = (lowerBetween before' cs behind').length := by
  induction cs generalizing before before' with
  | nil => rfl
  | cons c cs ih =>
      have hchar : (lowerAt before c (cs ++ behind)).length =
          (lowerAt before' c (cs ++ behind')).length := by
        rw [lowerAt, lowerAt]
        split <;> rfl
      rw [lowerBetween, lowerBetween, List.length_append, List.length_append, hchar, ih]

section Places

variable {before before' q behind behind' x y : Text}

/-- A piece is cut at a sigma. -/
theorem lowerBetween_sigma (before x y behind : Text) :
    lowerBetween before (x ++ 'Σ' :: y) behind = lowerBetween before x ('Σ' :: y ++ behind) ++
      (if endsWord (x.reverse ++ before) (y ++ behind) then 'ς' else 'σ') ::
        lowerBetween ('Σ' :: (x.reverse ++ before)) y behind :=
  lowerBetween_append before x ('Σ' :: y) behind

/-- Two places of a piece give the same small form if every sigma ends a word at both or at
neither. -/
theorem lowerBetween_eq_iff :
    lowerBetween before q behind = lowerBetween before' q behind' ↔
      ∀ x y, q = x ++ 'Σ' :: y → endsWord (x.reverse ++ before) (y ++ behind) =
        endsWord (x.reverse ++ before') (y ++ behind') := by
  constructor
  · rintro h x y rfl
    rw [lowerBetween_sigma, lowerBetween_sigma] at h
    have hrest := (List.append_inj h (length_lowerBetween ..)).2
    have hsigma := (List.cons.inj hrest).1
    revert hsigma
    cases endsWord (x.reverse ++ before) (y ++ behind) <;>
      cases endsWord (x.reverse ++ before') (y ++ behind') <;> decide
  · intro h
    induction q generalizing before before' with
    | nil => rfl
    | cons c q ih =>
        have hchar : lowerAt before c (q ++ behind) = lowerAt before' c (q ++ behind') := by
          rw [lowerAt, lowerAt]
          split
          · next hc =>
              have hfirst := h [] q (by rw [hc]; rfl)
              rw [List.reverse_nil, List.nil_append, List.nil_append] at hfirst
              rw [hfirst]
          · rfl
        have hrest : lowerBetween (c :: before) q behind =
            lowerBetween (c :: before') q behind' := by
          apply ih
          rintro x y rfl
          have hlater := h (c :: x) y rfl
          rwa [List.reverse_cons, List.append_assoc, List.append_assoc] at hlater
        rw [lowerBetween, lowerBetween, hchar, hrest]

end Places

/-- Between `a` and `b`, one of the sigmas of `q` has another small form than in `q` alone: the word
that it ends in `q` goes on behind `q`, or it ends a word that begins in front of `q`. -/
inductive SigmaDiffers (a q b : Text) : Prop
  | goesOn {x y : Text} (split : q = x ++ 'Σ' :: y) (front : meetsCased x.reverse = true)
      (ignorable : ∀ c ∈ y, isIgnorable c = true) (behind : meetsCased b = true)
  | endsThere {x y : Text} (split : q = x ++ 'Σ' :: y) (ignorable : ∀ c ∈ x, isIgnorable c = true)
      (front : meetsCased a.reverse = true) (behind : meetsCased (y ++ b) = false)

theorem SigmaDiffers.of_ne {a b x y : Text}
    (h : endsWord (x.reverse ++ a.reverse) (y ++ b) ≠ endsWord x.reverse y) :
    SigmaDiffers a (x ++ 'Σ' :: y) b := by
  have hreverse : (∀ c ∈ x.reverse, isIgnorable c = true) ↔ ∀ c ∈ x, isIgnorable c = true := by
    simp only [List.mem_reverse]
  by_cases hx : ∀ c ∈ x, isIgnorable c = true
  · -- On its own the piece has no cased character in front of this sigma.
    have halone : meetsCased x.reverse = false :=
      meetsCased_eq_false_of_ignorable (hreverse.2 hx)
    rw [endsWord, endsWord, halone, meetsCased_append_of_ignorable (hreverse.2 hx),
      Bool.false_and] at h
    have hends := eq_true_of_ne_false h
    rw [Bool.and_eq_true, Bool.not_eq_true'] at hends
    exact .endsThere rfl hx hends.1 hends.2
  · have hfront := meetsCased_append_of_not_ignorable (mt hreverse.1 hx) a.reverse
    by_cases hy : ∀ c ∈ y, isIgnorable c = true
    · rw [endsWord, endsWord, hfront, meetsCased_append_of_ignorable hy,
        meetsCased_eq_false_of_ignorable hy, Bool.not_false, Bool.and_true] at h
      cases hcased : meetsCased x.reverse with
      | false =>
          rw [hcased, Bool.false_and] at h
          exact absurd rfl h
      | true =>
          rw [hcased, Bool.true_and] at h
          exact .goesOn rfl hcased hy (by simpa using h)
    · rw [endsWord, endsWord, hfront, meetsCased_append_of_not_ignorable hy] at h
      exact absurd rfl h

theorem sigmaDiffers_iff {a q b : Text} :
    SigmaDiffers a q b ↔ lowerBetween a.reverse q b ≠ lower q := by
  rw [lower_eq, Ne, lowerBetween_eq_iff]
  constructor
  · intro h hall
    cases h with
    | @goesOn x y split front ignorable behind =>
        have hsame := hall x y split
        rw [List.append_nil, List.append_nil, endsWord, endsWord,
          meetsCased_append_of_meetsCased front, front, meetsCased_append_of_ignorable ignorable,
          behind, meetsCased_eq_false_of_ignorable ignorable] at hsame
        cases hsame
    | @endsThere x y split ignorable front behind =>
        have hsame := hall x y split
        have hx : ∀ c ∈ x.reverse, isIgnorable c = true := fun c hc =>
          ignorable c (List.mem_reverse.1 hc)
        rw [List.append_nil, List.append_nil, endsWord, endsWord,
          meetsCased_append_of_ignorable hx, front, behind,
          meetsCased_eq_false_of_ignorable hx] at hsame
        cases hsame
  · intro h
    simp only [not_forall] at h
    obtain ⟨x, y, rfl, hne⟩ := h
    rw [List.append_nil, List.append_nil] at hne
    exact .of_ne hne

/-- One of the sigmas has a form that is decided by what stands around the text: the last word may
go on behind it, or a word that began in front of it may end with its first one. -/
inductive Unsettled (q : Text) : Prop
  | last {x y : Text} (split : q = x ++ 'Σ' :: y) (front : meetsCased x.reverse = true)
      (ignorable : ∀ c ∈ y, isIgnorable c = true)
  | first {x y : Text} (split : q = x ++ 'Σ' :: y) (ignorable : ∀ c ∈ x, isIgnorable c = true)
      (behind : meetsCased y = false)

theorem SigmaDiffers.unsettled {a q b : Text} (h : SigmaDiffers a q b) : Unsettled q := by
  cases h with
  | goesOn split front ignorable behind => exact .last split front ignorable
  | endsThere split ignorable front behind =>
      exact .first split ignorable (meetsCased_eq_false_of_append behind)

section Counts

variable {d : Char} {before before' q behind behind' : Text}

theorem count_lowerBetween_le
    (h : ∀ x y, q = x ++ 'Σ' :: y → (lowerAt (x.reverse ++ before) 'Σ' (y ++ behind)).count d ≤
      (lowerAt (x.reverse ++ before') 'Σ' (y ++ behind')).count d) :
    (lowerBetween before q behind).count d ≤ (lowerBetween before' q behind').count d := by
  induction q generalizing before before' with
  | nil => exact Nat.le_refl _
  | cons c q ih =>
      have hchar : (lowerAt before c (q ++ behind)).count d ≤
          (lowerAt before' c (q ++ behind')).count d := by
        by_cases hc : c = 'Σ'
        · rw [hc]
          exact h [] q (by rw [hc]; rfl)
        · apply Nat.le_of_eq
          rw [lowerAt, lowerAt, if_neg hc, if_neg hc]
      have hrest : (lowerBetween (c :: before) q behind).count d ≤
          (lowerBetween (c :: before') q behind').count d := by
        apply ih
        rintro x y rfl
        have hlater := h (c :: x) y rfl
        rwa [List.reverse_cons, List.append_assoc, List.append_assoc] at hlater
      rw [lowerBetween, lowerBetween, List.count_append, List.count_append]
      exact Nat.add_le_add hchar hrest

/-- A form that no sigma gains and one sigma loses stands in fewer places. -/
theorem count_lowerBetween_lt
    (h : ∀ x y, q = x ++ 'Σ' :: y → (lowerAt (x.reverse ++ before) 'Σ' (y ++ behind)).count d ≤
      (lowerAt (x.reverse ++ before') 'Σ' (y ++ behind')).count d)
    {x y : Text} (hq : q = x ++ 'Σ' :: y)
    (hlt : (lowerAt (x.reverse ++ before) 'Σ' (y ++ behind)).count d <
      (lowerAt (x.reverse ++ before') 'Σ' (y ++ behind')).count d) :
    (lowerBetween before q behind).count d < (lowerBetween before' q behind').count d := by
  subst hq
  have hfront : (lowerBetween before x ('Σ' :: y ++ behind)).count d ≤
      (lowerBetween before' x ('Σ' :: y ++ behind')).count d := by
    apply count_lowerBetween_le
    rintro u v rfl
    have hplace := h u (v ++ 'Σ' :: y) (by rw [List.append_assoc]; rfl)
    rwa [List.append_assoc, List.append_assoc] at hplace
  have hback : (lowerBetween ('Σ' :: (x.reverse ++ before)) y behind).count d ≤
      (lowerBetween ('Σ' :: (x.reverse ++ before')) y behind').count d := by
    apply count_lowerBetween_le
    rintro u v rfl
    have hplace := h (x ++ 'Σ' :: u) v (by rw [List.append_assoc]; rfl)
    simpa using hplace
  rw [lowerBetween_append, lowerBetween_append, lowerBetween, lowerBetween, List.count_append,
    List.count_append, List.count_append, List.count_append]
  omega

theorem count_final_lowerAt (before behind : Text) :
    (lowerAt before 'Σ' behind).count 'ς' = if endsWord before behind then 1 else 0 := by
  rw [lowerAt, if_pos rfl]
  cases endsWord before behind <;> decide

theorem count_inner_lowerAt (before behind : Text) :
    (lowerAt before 'Σ' behind).count 'σ' = if endsWord before behind then 0 else 1 := by
  rw [lowerAt, if_pos rfl]
  cases endsWord before behind <;> decide

end Counts

/-- Behind an underscore and in front of a letter, the word that ends in the text goes on. -/
theorem count_final_lower_lt {q x y : Text} (hq : q = x ++ 'Σ' :: y)
    (hfront : meetsCased x.reverse = true) (hbehind : ∀ c ∈ y, isIgnorable c = true) :
    (lower (['_'] ++ (q ++ ['A']))).count 'ς' < (lower q).count 'ς' := by
  have hletter : meetsCased ['A'] = true := by decide +kernel
  have hedges : lowerBetween [] ['_'] (q ++ ['A']) = ['_'] ∧
      lowerBetween (q.reverse ++ ['_']) ['A'] [] = ['a'] := ⟨rfl, rfl⟩
  have hcount : (lower (['_'] ++ (q ++ ['A']))).count 'ς' =
      (lowerBetween ['_'] q ['A']).count 'ς' := by
    rw [lower_append, List.reverse_singleton, hedges.1, hedges.2, List.count_append,
      List.count_append]
    simp
  rw [hcount, lower_eq]
  refine count_lowerBetween_lt ?_ hq ?_
  · intro u v _
    rw [List.append_nil, List.append_nil, count_final_lowerAt, count_final_lowerAt]
    cases hends : endsWord (u.reverse ++ ['_']) (v ++ ['A']) with
    | false => exact Nat.zero_le _
    | true =>
        rw [endsWord, Bool.and_eq_true, Bool.not_eq_true'] at hends
        have hu := meetsCased_of_append hends.1 (by decide +kernel)
        have hv := meetsCased_eq_false_of_append hends.2
        rw [endsWord, hu, hv]
        exact Nat.le_refl 1
  · rw [List.append_nil, List.append_nil, count_final_lowerAt, count_final_lowerAt, endsWord,
      endsWord, meetsCased_append_of_ignorable hbehind, hletter, hfront,
      meetsCased_eq_false_of_ignorable hbehind, Bool.not_true, Bool.and_false]
    exact Nat.zero_lt_one

/-- Behind a letter, a first sigma that has no cased character behind it ends the word. -/
theorem count_inner_lower_lt {q x y : Text} (hq : q = x ++ 'Σ' :: y)
    (hfront : ∀ c ∈ x, isIgnorable c = true) (hbehind : meetsCased y = false) :
    (lower (['A'] ++ (q ++ []))).count 'σ' < (lower q).count 'σ' := by
  have hletter : meetsCased ['A'] = true := by decide +kernel
  have hedge : lowerBetween [] ['A'] (q ++ []) = ['a'] := rfl
  have hcount : (lower (['A'] ++ (q ++ []))).count 'σ' =
      (lowerBetween ['A'] q []).count 'σ' := by
    rw [lower_append, List.reverse_singleton, hedge, lowerBetween, List.append_nil,
      List.count_append]
    simp
  have hreverse : ∀ c ∈ x.reverse, isIgnorable c = true := fun c hc =>
    hfront c (List.mem_reverse.1 hc)
  rw [hcount, lower_eq]
  refine count_lowerBetween_lt ?_ hq ?_
  · intro u v _
    rw [List.append_nil, List.append_nil, count_inner_lowerAt, count_inner_lowerAt]
    cases hends : endsWord u.reverse v with
    | false => split <;> decide
    | true =>
        rw [endsWord, Bool.and_eq_true] at hends
        rw [endsWord, meetsCased_append_of_meetsCased hends.1, hends.2]
        exact Nat.le_refl 0
  · rw [List.append_nil, List.append_nil, count_inner_lowerAt, count_inner_lowerAt, endsWord,
      endsWord, meetsCased_append_of_ignorable hreverse, hletter, hbehind,
      meetsCased_eq_false_of_ignorable hreverse]
    exact Nat.zero_lt_one

end Text
end ProcedureIndex
