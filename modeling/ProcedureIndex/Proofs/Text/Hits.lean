import ProcedureIndex.Text.Pattern

/-!
Searching step by step, and where hits come from. Every hit is an answer that the
pattern gives at its place, to the character before the place and the text behind it,
and hits stand apart. Of a pattern whose answers never overlap no answer is missed.
-/

namespace ProcedureIndex
namespace Text

attribute [local simp] hitsFrom

variable {α : Type} {p : Pattern α}

theorem hitsFrom_nil_of_none {prev : Option Char} {offset : Nat} (hp : p prev [] = none) :
    hitsFrom p prev offset 0 [] = [] := by
  simp [hp]

theorem hitsFrom_cons_of_none {prev : Option Char} {offset : Nat} {c : Char} {cs : Text}
    (hp : p prev (c :: cs) = none) :
    hitsFrom p prev offset 0 (c :: cs) = hitsFrom p (some c) (offset + c.utf8Size) 0 cs := by
  simp [hp]

theorem hitsFrom_cons_of_some {prev : Option Char} {offset : Nat} {c : Char} {cs rest : Text}
    {a : α} (hp : p prev (c :: cs) = some (a, rest)) :
    hitsFrom p prev offset 0 (c :: cs) =
      ⟨offset, a, rest⟩ ::
        hitsFrom p (some c) (offset + c.utf8Size) (cs.length - rest.length) cs := by
  simp [hp]

/-- Of the character before a text only what it tells the pattern matters. -/
theorem hitsFrom_congr {prev prev' : Option Char} {offset : Nat} {cs : Text}
    (hp : p prev cs = p prev' cs) :
    hitsFrom p prev offset 0 cs = hitsFrom p prev' offset 0 cs := by
  cases cs with
  | nil => simp [hp]
  | cons c cs => simp [hp]

theorem hitsFrom_covered (p : Pattern α) (prev : Option Char) (offset : Nat) (m cs : Text) :
    hitsFrom p prev offset m.length (m ++ cs) =
      hitsFrom p (m.getLast?.or prev) (offset + width m) 0 cs := by
  induction m generalizing prev offset with
  | nil => rfl
  | cons c m ih =>
      rw [List.length_cons, List.cons_append, hitsFrom, ih, width_cons, Nat.add_assoc,
        List.getLast?_cons]
      cases m.getLast? <;> rfl

theorem firstHit?_of_some {cs rest : Text} {a : α} (hp : p none cs = some (a, rest)) :
    firstHit? p cs = some ⟨0, a, rest⟩ := by
  cases cs with
  | nil => simp [firstHit?, hits, hp]
  | cons c cs => simp [firstHit?, hits, hp]

theorem mem_hitsFrom {prev : Option Char} {offset covered : Nat} {cs : Text} {h : Hit α}
    (hm : h ∈ hitsFrom p prev offset covered cs) :
    ∃ pre suf, cs = pre ++ suf ∧ h.start = offset + width pre ∧
      p (pre.getLast?.or prev) suf = some (h.value, h.rest) := by
  induction cs generalizing prev offset covered with
  | nil =>
      cases covered with
      | succ n => cases hm
      | zero =>
          rw [hitsFrom] at hm
          split at hm
          · next a rest hp =>
              cases List.mem_singleton.1 hm
              exact ⟨[], [], rfl, rfl, hp⟩
          · cases hm
  | cons c cs ih =>
      have further : ∀ n, h ∈ hitsFrom p (some c) (offset + c.utf8Size) n cs →
          ∃ pre suf, c :: cs = pre ++ suf ∧ h.start = offset + width pre ∧
            p (pre.getLast?.or prev) suf = some (h.value, h.rest) := by
        intro n hn
        obtain ⟨pre, suf, rfl, hstart, hp⟩ := ih hn
        refine ⟨c :: pre, suf, rfl, by rw [hstart, width_cons, Nat.add_assoc], ?_⟩
        rw [List.getLast?_cons]
        cases hl : pre.getLast? with
        | none => simpa [hl] using hp
        | some d => simpa [hl] using hp
      cases covered with
      | succ n => exact further n hm
      | zero =>
          rw [hitsFrom] at hm
          split at hm
          · next a rest hp =>
              rcases List.mem_cons.1 hm with rfl | hm
              · exact ⟨[], c :: cs, rfl, rfl, hp⟩
              · exact further _ hm
          · exact further 0 hm

theorem mem_hits {cs : Text} {h : Hit α} (hm : h ∈ hits p cs) :
    ∃ pre suf, cs = pre ++ suf ∧ h.start = width pre ∧
      p pre.getLast? suf = some (h.value, h.rest) := by
  obtain ⟨pre, suf, hcs, hstart, hp⟩ := mem_hitsFrom hm
  exact ⟨pre, suf, hcs, by rw [hstart, Nat.zero_add], by rwa [Option.or_none] at hp⟩

/-- No hit starts in the characters that belong to the hit before. -/
theorem le_start_of_mem_hitsFrom {prev : Option Char} {offset covered : Nat} {cs : Text}
    {h : Hit α} (hm : h ∈ hitsFrom p prev offset covered cs) :
    offset + width (cs.take covered) ≤ h.start := by
  induction cs generalizing prev offset covered with
  | nil =>
      obtain ⟨pre, suf, -, hstart, -⟩ := mem_hitsFrom hm
      rw [hstart, List.take_nil]
      exact Nat.add_le_add_left (Nat.zero_le _) offset
  | cons c cs ih =>
      cases covered with
      | zero =>
          obtain ⟨pre, suf, -, hstart, -⟩ := mem_hitsFrom hm
          rw [hstart, List.take_zero]
          exact Nat.add_le_add_left (Nat.zero_le _) offset
      | succ n =>
          have hle := ih (show h ∈ hitsFrom p (some c) (offset + c.utf8Size) n cs from hm)
          rw [List.take_succ_cons, width_cons]
          omega

/-- Where every hit takes more than a lead, the lead of a hit ends before the next hit starts. -/
theorem hitsFrom_pairwise {lead : α → Text}
    (hlead : ∀ {prev cs a rest}, p prev cs = some (a, rest) →
      ∃ taken, taken ≠ [] ∧ cs = lead a ++ (taken ++ rest))
    (prev : Option Char) (offset covered : Nat) (cs : Text) :
    (hitsFrom p prev offset covered cs).Pairwise fun g h =>
      g.start + width (lead g.value) < h.start := by
  induction cs generalizing prev offset covered with
  | nil =>
      cases covered with
      | succ n => exact List.Pairwise.nil
      | zero =>
          rw [hitsFrom]
          split
          · exact List.pairwise_singleton _ _
          · exact List.Pairwise.nil
  | cons c cs ih =>
      cases covered with
      | succ n => exact ih _ _ _
      | zero =>
          cases hp : p prev (c :: cs) with
          | none =>
              rw [hitsFrom_cons_of_none hp]
              exact ih _ _ _
          | some r =>
              obtain ⟨a, rest⟩ := r
              rw [hitsFrom_cons_of_some hp]
              refine List.pairwise_cons.2 ⟨?_, ih _ _ _⟩
              intro h hm
              have hle := le_start_of_mem_hitsFrom hm
              obtain ⟨taken, hne, hcs⟩ := hlead hp
              obtain ⟨d, ds, hd⟩ : ∃ d ds, lead a ++ taken = d :: ds :=
                List.exists_cons_of_ne_nil (List.append_ne_nil_of_right_ne_nil _ hne)
              rw [← List.append_assoc, hd, List.cons_append] at hcs
              cases hcs
              have htake : (ds ++ rest).take ((ds ++ rest).length - rest.length) = ds := by
                simp
              have hwidth : width (lead a) + width taken = c.utf8Size + width ds := by
                rw [← width_append, hd, width_cons]
              have hpos := width_pos hne
              rw [htake] at hle
              change offset + width (lead a) < h.start
              omega

/-- No answer of the pattern starts within what another answer takes. -/
def Separate (p : Pattern α) : Prop :=
  ∀ ⦃prev pre suf r r'⦄, pre ≠ [] → p prev (pre ++ suf) = some r →
    p pre.getLast? suf = some r' → suf.length ≤ r.2.length

namespace Separate

theorem mem_hitsFrom (h : Separate p) {prev : Option Char} {offset covered : Nat}
    {pre suf rest : Text} {a : α} (hcovered : covered ≤ pre.length)
    (hp : p (pre.getLast?.or prev) suf = some (a, rest)) :
    (⟨offset + width pre, a, rest⟩ : Hit α) ∈ hitsFrom p prev offset covered (pre ++ suf) := by
  -- What the hits before have taken ends at the place or in front of it.
  induction pre generalizing prev offset covered with
  | nil =>
      cases Nat.le_zero.1 hcovered
      have hp : p prev suf = some (a, rest) := hp
      cases suf with
      | nil => simp [hp]
      | cons c cs =>
          rw [List.nil_append, hitsFrom_cons_of_some hp]
          exact List.mem_cons_self
  | cons c pre ih =>
      have hnext : p (pre.getLast?.or (some c)) suf = some (a, rest) := by
        rw [List.getLast?_cons] at hp
        cases hl : pre.getLast? <;> simpa [hl] using hp
      rw [List.cons_append, width_cons, ← Nat.add_assoc]
      cases covered with
      | succ n => exact ih (Nat.le_of_succ_le_succ hcovered) hnext
      | zero =>
          cases hhere : p prev (c :: (pre ++ suf)) with
          | none =>
              rw [hitsFrom_cons_of_none hhere]
              exact ih (Nat.zero_le _) hnext
          | some r =>
              have hrest : suf.length ≤ r.2.length :=
                h (List.cons_ne_nil c pre) hhere (by rwa [List.getLast?_cons] at hp ⊢)
              rw [hitsFrom_cons_of_some hhere]
              refine List.mem_cons_of_mem _ (ih ?_ hnext)
              rw [List.length_append]
              omega

/-- Every answer is a hit. -/
theorem mem_hits (h : Separate p) {pre suf rest : Text} {a : α}
    (hp : p pre.getLast? suf = some (a, rest)) :
    (⟨width pre, a, rest⟩ : Hit α) ∈ hits p (pre ++ suf) := by
  have hm : (⟨0 + width pre, a, rest⟩ : Hit α) ∈ hitsFrom p none 0 0 (pre ++ suf) :=
    h.mem_hitsFrom (Nat.zero_le _) (by rwa [Option.or_none])
  rwa [Nat.zero_add] at hm

end Separate

end Text
end ProcedureIndex
