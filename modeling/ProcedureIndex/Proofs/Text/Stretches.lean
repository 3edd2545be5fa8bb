import Mathlib.Data.List.Basic
import Mathlib.Data.List.Induction
import ProcedureIndex.Proofs.Text.Braces
import ProcedureIndex.Proofs.Text.Keywords
import ProcedureIndex.Proofs.Text.Positions

/-!
A stretch of text in front of another text. Where a pattern answers at no place of the
stretch, a search comes to the text behind it as though it started there and finds the
same, moved by the width of the stretch; where it answers, the first answer is a hit.
A stretch that is one line moves every position down by a line.
-/

namespace ProcedureIndex
namespace Text

variable {α : Type} {p : Pattern α} {front back : Text}

/-- At no place of the stretch does the pattern answer, though it may read on behind it. -/
def Quiet (p : Pattern α) (front back : Text) : Prop :=
  ∀ a b, front = a ++ b → b ≠ [] → p a.getLast? (b ++ back) = none

theorem quiet_nil (p : Pattern α) (back : Text) : Quiet p [] back := by
  intro a b hab hb
  exact absurd (List.append_eq_nil_iff.1 hab.symm).2 hb

theorem quiet_concat {c : Char} :
    Quiet p (front ++ [c]) back ↔
      Quiet p front (c :: back) ∧ p front.getLast? (c :: back) = none := by
  constructor
  · intro h
    refine ⟨?_, h front [c] rfl (by simp)⟩
    intro a b hab hb
    have hlonger := h a (b ++ [c]) (by rw [hab, List.append_assoc]) (by simp)
    rwa [List.append_assoc] at hlonger
  · rintro ⟨h, hlast⟩ a b hab hb
    obtain ⟨init, d, rfl⟩ := (List.eq_nil_or_concat' b).resolve_left hb
    rw [← List.append_assoc] at hab
    obtain ⟨rfl, hd⟩ := List.append_inj' hab rfl
    cases hd
    cases init with
    | nil => simpa using hlast
    | cons x xs => simpa using h a (x :: xs) rfl (by simp)

theorem Quiet.hits_append (h : Quiet p front back) :
    hits p (front ++ back) = hitsFrom p front.getLast? (width front) 0 back := by
  induction front using List.reverseRecOn generalizing back with
  | nil => rfl
  | append_singleton front c ih =>
      obtain ⟨hfront, hlast⟩ := quiet_concat.1 h
      rw [List.append_assoc, List.singleton_append, ih hfront, hitsFrom_cons_of_none hlast,
        List.getLast?_concat, width_append]
      rfl

theorem exists_first_of_not_quiet (h : ¬ Quiet p front back) :
    ∃ a b r, front = a ++ b ∧ b ≠ [] ∧ Quiet p a (b ++ back) ∧
      p a.getLast? (b ++ back) = some r := by
  induction front using List.reverseRecOn generalizing back with
  | nil => exact absurd (quiet_nil p back) h
  | append_singleton front c ih =>
      rw [quiet_concat, Classical.not_and_iff_not_or_not] at h
      by_cases hfront : Quiet p front (c :: back)
      · obtain ⟨r, hr⟩ := Option.ne_none_iff_exists'.1 (h.resolve_left (not_not.2 hfront))
        exact ⟨front, [c], r, rfl, by simp, hfront, hr⟩
      · obtain ⟨a, b, r, rfl, hb, ha, hr⟩ := ih hfront
        exact ⟨a, b ++ [c], r, by rw [List.append_assoc], by simp,
          by rwa [List.append_assoc], by rwa [List.append_assoc]⟩

/-- The first answer is a hit. -/
theorem Quiet.mem_hits (h : Quiet p front back) {a : α} {rest : Text}
    (hp : p front.getLast? back = some (a, rest)) :
    (⟨width front, a, rest⟩ : Hit α) ∈ hits p (front ++ back) := by
  rw [h.hits_append]
  cases back with
  | nil => simp [hitsFrom, hp]
  | cons c cs =>
      rw [hitsFrom_cons_of_some hp]
      exact List.mem_cons_self

theorem Quiet.firstHit?_append (h : Quiet p front back) {a : α} {rest : Text}
    (hp : p front.getLast? back = some (a, rest)) :
    firstHit? p (front ++ back) = some ⟨width front, a, rest⟩ := by
  rw [firstHit?, h.hits_append]
  cases back with
  | nil => simp [hitsFrom, hp]
  | cons c cs =>
      rw [hitsFrom_cons_of_some hp]
      rfl

/-- The leftmost hit is an answer of the pattern. -/
theorem exists_split_of_firstHit? {cs : Text} {hit : Hit α} (h : firstHit? p cs = some hit) :
    ∃ pre suf, cs = pre ++ suf ∧ p pre.getLast? suf = some (hit.value, hit.rest) := by
  obtain ⟨pre, suf, hcs, -, hp⟩ := Text.mem_hits (List.mem_of_head? h)
  exact ⟨pre, suf, hcs, hp⟩

/-- Nothing is found only where the pattern answers nowhere. -/
theorem firstHit?_eq_none_iff {cs : Text} :
    firstHit? p cs = none ↔ ∀ pre suf, cs = pre ++ suf → p pre.getLast? suf = none := by
  constructor
  · rintro h pre suf rfl
    rw [Option.eq_none_iff_forall_ne_some]
    rintro ⟨a, rest⟩ hp
    by_cases hquiet : Quiet p pre suf
    · rw [hquiet.firstHit?_append hp] at h
      cases h
    · obtain ⟨front, behind, ⟨b, rest'⟩, rfl, -, hfirst, hb⟩ := exists_first_of_not_quiet hquiet
      rw [List.append_assoc, hfirst.firstHit?_append hb] at h
      cases h
  · intro h
    rw [Option.eq_none_iff_forall_ne_some]
    intro hit hhit
    obtain ⟨pre, suf, hcs, hp⟩ := exists_split_of_firstHit? hhit
    rw [h pre suf hcs] at hp
    cases hp

def Hit.down (k : Nat) (h : Hit α) : Hit α :=
  ⟨k + h.start, h.value, h.rest⟩

theorem hitsFrom_add (p : Pattern α) (k : Nat) (prev : Option Char) (offset covered : Nat)
    (cs : Text) :
    hitsFrom p prev (k + offset) covered cs =
      (hitsFrom p prev offset covered cs).map (Hit.down k) := by
  induction cs generalizing prev offset covered with
  | nil =>
      cases covered with
      | succ n => rfl
      | zero => cases hp : p prev [] <;> simp [hitsFrom, hp, Hit.down]
  | cons c cs ih =>
      cases covered with
      | succ n =>
          rw [hitsFrom, hitsFrom, Nat.add_assoc]
          exact ih _ _ _
      | zero =>
          cases hp : p prev (c :: cs) with
          | none =>
              rw [hitsFrom_cons_of_none hp, hitsFrom_cons_of_none hp, Nat.add_assoc]
              exact ih _ _ _
          | some r =>
              rw [hitsFrom_cons_of_some hp, hitsFrom_cons_of_some hp, Nat.add_assoc, ih]
              rfl

/-- Behind a stretch that is passed over and ends outside a word, the search finds what it finds in
the text behind alone. -/
theorem Keyed.hits_below {keys : List Text} (hp : Keyed keys p) (h : Quiet p front back)
    (hfront : inWord front.getLast? = false) :
    hits p (front ++ back) = (hits p back).map (Hit.down (width front)) := by
  rw [h.hits_append, hp.hitsFrom_of_not_inWord hfront]
  exact hitsFrom_add p (width front) none 0 0 back

def Hit.before (back : Text) (h : Hit α) : Hit α :=
  ⟨h.start, h.value, h.rest ++ back⟩

theorem Hit.before_before (b c : Text) (h : Hit α) :
    (h.before b).before c = h.before (b ++ c) := by
  rw [before, before, before, List.append_assoc]

theorem Hit.down_down (j k : Nat) (h : Hit α) : (h.down j).down k = h.down (k + j) := by
  rw [down, down, down, Nat.add_assoc]

/-- Where a pattern cannot read on, a search of what lies before finds the same. -/
theorem Keyed.hitsFrom_append {keys : List Text} {p : Pattern α} (hp : Keyed keys p) {b : Text}
    (hstop : ∀ prev a, p prev (a ++ b) = (p prev a).map fun r => (r.1, r.2 ++ b))
    (prev : Option Char) (offset : Nat) {n : Nat} {a : Text} (hn : n ≤ a.length) :
    hitsFrom p prev offset n (a ++ b) = (hitsFrom p prev offset n a).map (Hit.before b) ++
      hitsFrom p (a.getLast?.or prev) (offset + width a) 0 b := by
  induction a generalizing prev offset n with
  | nil =>
      cases Nat.le_zero.1 hn
      rw [hitsFrom_nil_of_none (hp.eq_none_of_edge prev edge_nil)]
      rfl
  | cons c a ih =>
      have hlast : (c :: a).getLast?.or prev = a.getLast?.or (some c) := by
        rw [List.getLast?_cons]
        cases a.getLast? <;> rfl
      rw [hlast, width_cons, ← Nat.add_assoc]
      cases n with
      | succ n => exact ih (some c) (offset + c.utf8Size) (Nat.le_of_succ_le_succ hn)
      | zero =>
          have hhere := hstop prev (c :: a)
          cases hpc : p prev (c :: a) with
          | none =>
              rw [hpc, Option.map_none, List.cons_append] at hhere
              rw [List.cons_append, hitsFrom_cons_of_none hhere, hitsFrom_cons_of_none hpc]
              exact ih (some c) (offset + c.utf8Size) (Nat.zero_le _)
          | some r =>
              obtain ⟨value, rest⟩ := r
              rw [hpc, Option.map_some, List.cons_append] at hhere
              rw [List.cons_append, hitsFrom_cons_of_some hhere, hitsFrom_cons_of_some hpc,
                List.length_append, List.length_append, Nat.add_sub_add_right,
                ih (some c) (offset + c.utf8Size) (Nat.sub_le _ _)]
              rfl

theorem closersFrom_add (q : Quoting) (k offset : Nat) (cs : Text) :
    closersFrom q (k + offset) cs = (closersFrom q offset cs).map (k + ·) := by
  induction cs generalizing q offset with
  | nil => rfl
  | cons c cs ih =>
      have hrest := ih (q.next c) (offset + c.utf8Size)
      rw [← Nat.add_assoc] at hrest
      rw [show c :: cs = [c] ++ cs from rfl, closersFrom_append, closersFrom_append,
        List.map_append]
      simp only [Quoting.after_cons, Quoting.after_nil, width_cons, width_nil, Nat.add_zero]
      rw [hrest]
      congr 1
      simp only [closersFrom, codeCharsFrom]
      split
      · rw [List.filter_cons, List.filter_cons]
        split <;> rfl
      · rfl

theorem takeBytes_add (a b : Text) (n : Nat) :
    takeBytes (width a + n) (a ++ b) = a ++ takeBytes n b := by
  induction a with
  | nil => rw [width_nil, Nat.zero_add, List.nil_append, List.nil_append]
  | cons c a ih =>
      have hrest : c.utf8Size + width a + n - c.utf8Size = width a + n := by omega
      rw [List.cons_append, takeBytes, width_cons, if_pos (by omega), hrest, ih, List.cons_append]

end Text

namespace LineMap

open Text

theorem position_below {line : Text} (hline : '\n' ∉ line) (cs : Text) (n : Nat) :
    (ofText (line ++ '\n' :: cs)).position (width line + 1 + n) =
      ⟨((ofText cs).position n).line + 1, ((ofText cs).position n).col⟩ := by
  have hbehind : ¬ width line + 1 + n ≤ width line := by omega
  have hrest : width line + 1 + n - width line - 1 = n := by omega
  rw [ofText, lines_append_newline hline, position, position, ofText]
  cases hlines : Text.lines cs with
  | nil => exact absurd hlines (lines_ne_nil cs)
  | cons l ls => simp only [locate, if_neg hbehind, hrest]

end LineMap
end ProcedureIndex
