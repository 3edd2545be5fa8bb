import ProcedureIndex.Proofs.Text.Blanking
import ProcedureIndex.Proofs.Text.Hits

/-!
Texts with a carriage return in front of every newline. Whatever reads carriage returns and
newlines alike reads the same text, with carriage returns put into what it takes; offsets
move by the carriage returns before them, and positions do not move.
-/

namespace ProcedureIndex
namespace Text

def withReturns (cs : Text) : Text :=
  cs.flatMap fun c => if c = '\n' then ['\r', '\n'] else [c]

@[simp] theorem withReturns_nil : withReturns [] = [] := rfl

@[simp] theorem withReturns_newline (cs : Text) :
    withReturns ('\n' :: cs) = '\r' :: '\n' :: withReturns cs := rfl

theorem withReturns_cons {c : Char} (hc : c ≠ '\n') (cs : Text) :
    withReturns (c :: cs) = c :: withReturns cs := by
  simp [withReturns, hc]

@[simp] theorem withReturns_append (a b : Text) :
    withReturns (a ++ b) = withReturns a ++ withReturns b :=
  List.flatMap_append

/-- Texts character by character, newlines apart. -/
@[elab_as_elim]
theorem byChars {motive : Text → Prop} (nil : motive [])
    (newline : ∀ cs, motive cs → motive ('\n' :: cs))
    (other : ∀ c cs, c ≠ '\n' → motive cs → motive (c :: cs)) (cs : Text) : motive cs := by
  induction cs with
  | nil => exact nil
  | cons c cs ih =>
      by_cases hc : c = '\n'
      · rw [hc]
        exact newline cs ih
      · exact other c cs hc ih

theorem withReturns_of_not_mem {cs : Text} (h : '\n' ∉ cs) : withReturns cs = cs := by
  induction cs with
  | nil => rfl
  | cons c cs ih =>
      rw [List.mem_cons, not_or] at h
      rw [withReturns_cons (Ne.symm h.1), ih h.2]

theorem length_withReturns (cs : Text) :
    (withReturns cs).length = cs.length + cs.count '\n' := by
  induction cs using byChars with
  | nil => rfl
  | newline cs ih =>
      simp only [withReturns_newline, List.length_cons, ih, List.count_cons_self]
      omega
  | other c cs hc ih =>
      simp only [withReturns_cons hc, List.length_cons, ih, List.count_cons_of_ne hc]
      omega

theorem withReturns_eq_self_iff {cs : Text} : withReturns cs = cs ↔ '\n' ∉ cs := by
  constructor
  · intro h
    have hlength := length_withReturns cs
    rw [h] at hlength
    exact List.count_eq_zero.1 (by omega)
  · exact withReturns_of_not_mem

theorem withReturns_eq_nil_iff {cs : Text} : withReturns cs = [] ↔ cs = [] := by
  induction cs using byChars with
  | nil => simp
  | newline cs ih => simp
  | other c cs hc ih => simp [withReturns_cons hc]

section Alike

variable {p : Char → Bool} (hp : p '\r' = p '\n')
include hp

theorem takeWhile_withReturns (cs : Text) :
    (withReturns cs).takeWhile p = withReturns (cs.takeWhile p) := by
  induction cs using byChars with
  | nil => rfl
  | newline cs ih =>
      simp only [withReturns_newline, List.takeWhile_cons, hp]
      split
      · rw [ih, withReturns_newline]
      · rfl
  | other c cs hc ih =>
      simp only [withReturns_cons hc, List.takeWhile_cons]
      split
      · rw [ih, withReturns_cons hc]
      · rfl

theorem dropWhile_withReturns (cs : Text) :
    (withReturns cs).dropWhile p = withReturns (cs.dropWhile p) := by
  induction cs using byChars with
  | nil => rfl
  | newline cs ih =>
      simp only [withReturns_newline, List.dropWhile_cons, hp]
      split
      · exact ih
      · rfl
  | other c cs hc ih =>
      simp only [withReturns_cons hc, List.dropWhile_cons]
      split
      · exact ih
      · rw [withReturns_cons hc]

theorem head?_withReturns (cs : Text) : (withReturns cs).head?.any p = cs.head?.any p := by
  cases cs using byChars with
  | nil => rfl
  | newline cs => exact hp
  | other c cs hc => rw [withReturns_cons hc]; rfl

theorem some?_withReturns (cs : Text) :
    some? p (withReturns cs) =
      (some? p cs).map fun r => (withReturns r.1, withReturns r.2) := by
  rw [some?, some?, head?_withReturns hp, takeWhile_withReturns hp, dropWhile_withReturns hp]
  split <;> rfl

end Alike

theorem after?_withReturns {k : Text} (hk : '\r' ∉ k ∧ '\n' ∉ k) (cs : Text) :
    after? k (withReturns cs) = (after? k cs).map withReturns := by
  induction k generalizing cs with
  | nil => rfl
  | cons d k ih =>
      simp only [List.mem_cons, not_or] at hk
      cases cs using byChars with
      | nil => rfl
      | newline cs =>
          rw [withReturns_newline, after?, after?, if_neg (Ne.symm hk.1.1), if_neg (Ne.symm hk.2.1)]
          rfl
      | other c cs hc =>
          rw [withReturns_cons hc, after?, after?]
          split
          · exact ih ⟨hk.1.2, hk.2.2⟩ cs
          · rfl

theorem name?_withReturns (cs : Text) :
    name? (withReturns cs) = (name? cs).map fun r => (r.1, withReturns r.2) := by
  cases cs using byChars with
  | nil => rfl
  | newline cs => rfl
  | other c cs hc =>
      have hname : withReturns (cs.takeWhile isNameContinue) = cs.takeWhile isNameContinue :=
        withReturns_of_not_mem fun h => absurd (List.mem_takeWhile_imp h) (by decide)
      rw [withReturns_cons hc, name?, name?, takeWhile_withReturns (by decide),
        dropWhile_withReturns (by decide), hname]
      split <;> rfl

theorem named?_withReturns (keyword : Text) (hk : '\r' ∉ keyword ∧ '\n' ∉ keyword)
    (cs : Text) :
    named? keyword (withReturns cs) =
      (named? keyword cs).map fun r => ((withReturns r.1.1, r.1.2), withReturns r.2) := by
  simp only [named?, bind, Option.bind, after?_withReturns hk]
  cases after? keyword cs with
  | none => rfl
  | some r =>
      simp only [Option.map_some, blanks?, some?_withReturns (p := isBlank) rfl]
      cases some? isBlank r with
      | none => rfl
      | some g =>
          simp only [Option.map_some, name?_withReturns]
          cases name? g.2 with
          | none => rfl
          | some n =>
              simp only [Option.map_some, pure, withReturns_append, withReturns_of_not_mem hk.2]

namespace Quoting

def Plain : Quoting → Prop
  | .code => True
  | .within q => isQuote q = true
  | .hidden _ => False

theorem Plain.next {q : Quoting} (h : q.Plain) {c : Char} (hc : c ≠ '\\') : (q.next c).Plain := by
  cases q with
  | code =>
      rw [Quoting.next]
      split
      · next hquote => exact hquote
      · trivial
  | within quote =>
      rw [Quoting.next, if_neg hc]
      split
      · trivial
      · exact h
  | hidden quote => exact h.elim

/-- A carriage return ends no string. -/
theorem Plain.next_return {q : Quoting} (h : q.Plain) : q.next '\r' = q := by
  cases q with
  | code => rfl
  | within quote =>
      have hne : '\r' ≠ quote := by
        intro heq
        rw [Plain, ← heq] at h
        cases h
      simp [Quoting.next, hne]
  | hidden quote => exact h.elim

end Quoting

theorem untilClosed_withReturns {q : Quoting} (hq : q.Plain) (depth : Nat) {cs : Text}
    (hcs : '\\' ∉ cs) :
    untilClosed q depth (withReturns cs) = withReturns (untilClosed q depth cs) := by
  induction cs using byChars generalizing q depth with
  | nil => rfl
  | newline cs ih =>
      have hrest : '\\' ∉ cs := fun h => hcs (List.mem_cons_of_mem _ h)
      have hreturn := untilClosed_append (a := ['\r', '\n']) (by decide) (by decide) q depth
        (withReturns cs)
      have hnewline := untilClosed_append (a := ['\n']) (by decide) (by decide) q depth cs
      have hplain : (q.after ['\n']).Plain := hq.next (by decide)
      rw [Quoting.after_cons, hq.next_return] at hreturn
      rw [List.singleton_append] at hnewline
      rw [hnewline, withReturns_append, ← ih hplain depth hrest]
      exact hreturn
  | other c cs hc ih =>
      have hrest : '\\' ∉ cs := fun h => hcs (List.mem_cons_of_mem _ h)
      have hnext : (q.next c).Plain := hq.next fun h => hcs (h ▸ List.mem_cons_self)
      rw [withReturns_cons hc, untilClosed, untilClosed]
      split
      · split
        · rfl
        · rw [withReturns_cons hc, ih hnext _ hrest]
      · split <;> rw [withReturns_cons hc, ih hnext _ hrest]

def moved (cs : Text) (n : Nat) : Nat :=
  width (withReturns (takeBytes n cs))

@[simp] theorem moved_width (a b : Text) : moved (a ++ b) (width a) = width (withReturns a) := by
  rw [moved, takeBytes_width_append]

theorem moved_add (a b c : Text) :
    moved (a ++ (b ++ c)) (width a + width b) =
      width (withReturns a) + width (withReturns b) := by
  rw [← width_append, ← List.append_assoc, moved_width, withReturns_append, width_append]

theorem takeBytes_moved (cs : Text) (n : Nat) :
    takeBytes (moved cs n) (withReturns cs) = withReturns (takeBytes n cs) := by
  have htake := takeBytes_width_append (withReturns (takeBytes n cs)) (withReturns (dropBytes n cs))
  rwa [← withReturns_append, takeBytes_append_dropBytes] at htake

theorem closersFrom_withReturns {q : Quoting} (hq : q.Plain) (a : Text) {cs : Text}
    (hcs : '\\' ∉ cs) :
    closersFrom q (width (withReturns a)) (withReturns cs) =
      (closersFrom q (width a) cs).map (moved (a ++ cs)) := by
  induction cs generalizing q a with
  | nil => rfl
  | cons c cs ih =>
      rw [List.mem_cons, not_or] at hcs
      have hafter : q.after (withReturns [c]) = q.next c := by
        by_cases hc : c = '\n'
        · rw [hc, withReturns_newline, Quoting.after_cons, hq.next_return]
          rfl
        · rw [withReturns_cons hc]
          rfl
      have hfirst : closersFrom q (width (withReturns a)) (withReturns [c]) =
          (closersFrom q (width a) [c]).map (moved (a ++ c :: cs)) := by
        by_cases hc : c = '\n'
        · rw [hc, closersFrom_eq_nil (by decide), closersFrom_eq_nil (by decide)]
          rfl
        · rw [withReturns_cons hc, withReturns_nil]
          simp only [closersFrom, codeCharsFrom]
          split
          · simp only [List.filter_cons]
            split
            · simp
            · rfl
          · rfl
      have hrest := ih (hq.next (Ne.symm hcs.1)) (a ++ [c]) hcs.2
      simp only [withReturns_append, width_append, List.append_assoc,
        List.singleton_append] at hrest
      rw [← List.singleton_append, withReturns_append, closersFrom_append, closersFrom_append,
        List.map_append, hafter, hrest]
      exact congrArg (· ++ _) hfirst

theorem width_lt_withReturns_iff (a m : Text) :
    width (withReturns a) < width (withReturns (a ++ m)) ↔ width a < width (a ++ m) := by
  by_cases hm : m = []
  · simp [hm]
  · have hpos := width_pos hm
    have hpos' := width_pos fun h => hm (withReturns_eq_nil_iff.1 h)
    simp only [withReturns_append, width_append]
    omega

/-- Places between characters keep their order. -/
theorem moved_lt_moved_iff {cs : Text} {m n : Nat} (hm : isBoundary m cs = true)
    (hn : isBoundary n cs = true) : moved cs m < moved cs n ↔ m < n := by
  have hm : width (takeBytes m cs) = m := eq_of_beq hm
  have hn : width (takeBytes n cs) = n := eq_of_beq hn
  have hfront : ∀ k, takeBytes k cs <+: cs :=
    fun k => ⟨dropBytes k cs, takeBytes_append_dropBytes k cs⟩
  cases List.prefix_or_prefix_of_prefix (hfront m) (hfront n) with
  | inl h =>
      obtain ⟨more, hmore⟩ := h
      have hiff := width_lt_withReturns_iff (takeBytes m cs) more
      rw [hmore, hm, hn] at hiff
      exact hiff
  | inr h =>
      obtain ⟨more, hmore⟩ := h
      have hwidth := congrArg width hmore
      have hwidth' := congrArg (fun t => width (withReturns t)) hmore
      simp only [withReturns_append, width_append] at hwidth hwidth'
      simp only [moved]
      omega

theorem withReturns_append_newline {l : Text} (hl : '\n' ∉ l) (below : Text) :
    withReturns (l ++ '\n' :: below) = (l ++ ['\r']) ++ '\n' :: withReturns below := by
  rw [withReturns_append, withReturns_of_not_mem hl, withReturns_newline]
  simp

theorem lines_withReturns_append_newline {l : Text} (hl : '\n' ∉ l) (below : Text) :
    lines (withReturns (l ++ '\n' :: below)) = (l ++ ['\r']) :: lines (withReturns below) := by
  have hreturn : '\n' ∉ l ++ ['\r'] := by simp [hl]
  rw [withReturns_append_newline hl, lines_append_newline hreturn]

/-- Every line but the last gets a carriage return. -/
theorem exists_lines_withReturns (cs : Text) :
    ∃ init last, lines cs = init ++ [last] ∧
      lines (withReturns cs) = init.map (· ++ ['\r']) ++ [last] := by
  induction cs using byLines with
  | last l hl =>
      exact ⟨[], l, lines_of_not_mem hl, by
        rw [withReturns_of_not_mem hl]
        exact lines_of_not_mem hl⟩
  | line l below hl ih =>
      obtain ⟨init, last, hlines, hreturns⟩ := ih
      refine ⟨l :: init, last, ?_, ?_⟩
      · rw [lines_append_newline hl, hlines]
        rfl
      · rw [lines_withReturns_append_newline hl, hreturns]
        rfl

def Hit.returned {α : Type} (f : α → α) (cs : Text) (h : Hit α) : Hit α :=
  ⟨moved cs h.start, f h.value, withReturns h.rest⟩

/-- A pattern that reads carriage returns as it reads newlines, `f` putting them into what it
captures, and that answers neither at a newline nor at the end. -/
structure Returning {α : Type} (p : Pattern α) (f : α → α) : Prop where
  returns : ∀ prev cs, p prev (withReturns cs) =
    (p prev cs).map fun r => (f r.1, withReturns r.2)
  nil : ∀ prev, p prev [] = none
  newline : ∀ prev cs, p prev ('\n' :: cs) = none
  suffix : ∀ {prev c cs a rest}, p prev (c :: cs) = some (a, rest) → rest <:+ cs

namespace Returning

variable {α : Type} {p : Pattern α} {f : α → α}

theorem hitsFrom_newline (h : Returning p f) (prev : Option Char) (offset n : Nat) (cs : Text) :
    hitsFrom p prev offset n ('\n' :: cs) =
      hitsFrom p (some '\n') (offset + width ['\n']) (n - 1) cs := by
  cases n with
  | zero => exact hitsFrom_cons_of_none (h.newline prev cs)
  | succ n => rfl

/-- A search reads nothing at a line break with its carriage return, and passes over it in two
steps. -/
theorem hitsFrom_return (h : Returning p f) (prev : Option Char) (offset n : Nat) (cs : Text) :
    hitsFrom p prev offset (withReturns (('\n' :: cs).take n)).length (withReturns ('\n' :: cs)) =
      hitsFrom p (some '\n') (offset + width ['\r', '\n']) (withReturns (cs.take (n - 1))).length
        (withReturns cs) := by
  have hnone := h.returns prev ('\n' :: cs)
  rw [h.newline, Option.map_none, withReturns_newline] at hnone
  rw [withReturns_newline]
  cases n with
  | zero =>
      rw [List.take_zero, withReturns_nil, List.length_nil, hitsFrom_cons_of_none hnone,
        hitsFrom_cons_of_none (h.newline _ _)]
      rfl
  | succ n => rfl

theorem returned_here (f : α → α) (a cs : Text) (x : α) (rest : Text) :
    Hit.returned f (a ++ cs) ⟨width a, x, rest⟩ = ⟨width (withReturns a), f x, withReturns rest⟩ := by
  rw [Hit.returned, moved_width]

theorem hitsFrom_withReturns (h : Returning p f) (prev : Option Char) (a : Text) (n : Nat)
    (cs : Text) :
    hitsFrom p prev (width (withReturns a)) (withReturns (cs.take n)).length (withReturns cs) =
      (hitsFrom p prev (width a) n cs).map (Hit.returned f (a ++ cs)) := by
  induction cs generalizing prev a n with
  | nil =>
      have hnone : ∀ offset, hitsFrom p prev offset 0 [] = [] :=
        fun offset => hitsFrom_nil_of_none (h.nil prev)
      rw [List.take_nil, withReturns_nil, List.length_nil, hnone]
      cases n with
      | zero => rw [hnone, List.map_nil]
      | succ n => rfl
  | cons c cs ih =>
      have hrest := fun n => ih (some c) (a ++ [c]) n
      simp only [withReturns_append, width_append, List.append_assoc,
        List.singleton_append] at hrest
      by_cases hc : c = '\n'
      · cases hc
        rw [h.hitsFrom_return, h.hitsFrom_newline]
        exact hrest (n - 1)
      · have hhere := h.returns prev (c :: cs)
        rw [withReturns_cons hc] at hhere hrest ⊢
        cases n with
        | zero =>
            rw [List.take_zero, withReturns_nil, List.length_nil]
            cases hp : p prev (c :: cs) with
            | none =>
                rw [hp, Option.map_none] at hhere
                rw [hitsFrom_cons_of_none hhere, hitsFrom_cons_of_none hp]
                exact hrest 0
            | some r =>
                obtain ⟨x, rest⟩ := r
                obtain ⟨m, rfl⟩ := h.suffix hp
                rw [hp, Option.map_some] at hhere
                have hlater := hrest m.length
                rw [List.take_left] at hlater
                rw [hitsFrom_cons_of_some hhere, hitsFrom_cons_of_some hp, withReturns_append,
                  List.length_append, List.length_append, Nat.add_sub_cancel, Nat.add_sub_cancel,
                  List.map_cons, returned_here, ← withReturns_append]
                exact congrArg _ hlater
        | succ n =>
            rw [List.take_succ_cons, withReturns_cons hc]
            exact hrest n

theorem hits_withReturns (h : Returning p f) (cs : Text) :
    hits p (withReturns cs) = (hits p cs).map (Hit.returned f cs) :=
  h.hitsFrom_withReturns none [] 0 cs

end Returning
end Text

namespace LineMap

open Text

/-- Carriage returns move no position. -/
theorem position_withReturns (a b : Text) :
    (ofText (withReturns (a ++ b))).position (width (withReturns a)) =
      (ofText (a ++ b)).position (width a) := by
  obtain ⟨init, last, hlines, hreturns⟩ := exists_lines_withReturns a
  rw [withReturns_append, position_of_lines hreturns, position_of_lines hlines, List.length_map]

end LineMap
end ProcedureIndex
