import ProcedureIndex.Proofs.Text.Hits
import ProcedureIndex.Proofs.Text.Names

/-!
Searching for patterns that start with a keyword. Such a pattern answers only at the
start of a word, and only if that word is one of its keywords, so a search passes over
every other word and over everything between words.
-/

namespace ProcedureIndex
namespace Text

def Edge (cs : Text) : Prop :=
  cs.head?.any isWordChar = false

theorem edge_nil : Edge [] := rfl

theorem edge_cons {c : Char} {cs : Text} (h : isWordChar c = false) : Edge (c :: cs) := h

theorem Edge.takeWhile_append {w cs : Text} (hcs : Edge cs) (hw : ∀ c ∈ w, isWordChar c = true) :
    (w ++ cs).takeWhile isWordChar = w :=
  takeWhile_append_of_head? hw hcs

/-- The pattern answers at the start of a word and nowhere else, and the word is a key. -/
structure Keyed {α : Type} (keys : List Text) (p : Pattern α) : Prop where
  gate : ∀ prev cs, p prev cs = if inWord prev then none else p none cs
  key : ∀ {cs r}, p none cs = some r → cs.takeWhile isWordChar ∈ keys
  nonempty : [] ∉ keys

namespace Keyed

variable {α : Type} {keys : List Text} {p : Pattern α} {offset : Nat} {cs : Text}

theorem of_guard {q : Text → Option (α × Text)}
    (hp : ∀ prev cs, p prev cs = if inWord prev then none else q cs)
    (hkey : ∀ {cs r}, q cs = some r → cs.takeWhile isWordChar ∈ keys) (hkeys : [] ∉ keys) :
    Keyed keys p where
  gate prev cs := by
    rw [hp prev, hp none]
    rfl
  key {cs r} h := by
    rw [hp none] at h
    exact hkey h
  nonempty := hkeys

theorem outside (h : Keyed keys p) {prev : Option Char} {r : α × Text} (hp : p prev cs = some r) :
    inWord prev = false := by
  rw [h.gate] at hp
  by_contra hprev
  rw [if_pos (by simpa using hprev)] at hp
  cases hp

theorem eq_none_of_edge (h : Keyed keys p) (prev : Option Char) (hcs : Edge cs) :
    p prev cs = none := by
  rw [h.gate]
  split
  · rfl
  · rw [Option.eq_none_iff_forall_ne_some]
    intro r hr
    have hkey := h.key hr
    rw [show cs = [] ++ cs from rfl, hcs.takeWhile_append (by simp)] at hkey
    exact h.nonempty hkey

theorem hitsFrom_of_edge (h : Keyed keys p) (prev : Option Char) (hcs : Edge cs) :
    hitsFrom p prev offset 0 cs = hitsFrom p none offset 0 cs := by
  apply hitsFrom_congr
  rw [h.eq_none_of_edge prev hcs, h.eq_none_of_edge none hcs]

theorem hitsFrom_nil (h : Keyed keys p) : hitsFrom p none offset 0 [] = [] :=
  hitsFrom_nil_of_none (h.eq_none_of_edge none edge_nil)

theorem hitsFrom_of_not_inWord (h : Keyed keys p) {prev : Option Char}
    (hprev : inWord prev = false) :
    hitsFrom p prev offset 0 cs = hitsFrom p none offset 0 cs := by
  apply hitsFrom_congr
  simp [h.gate prev, hprev]

theorem hitsFrom_mark (h : Keyed keys p) {c : Char} (hc : isWordChar c = false) :
    hitsFrom p none offset 0 (c :: cs) = hitsFrom p none (offset + c.utf8Size) 0 cs := by
  rw [hitsFrom_cons_of_none (h.eq_none_of_edge none (edge_cons hc))]
  exact h.hitsFrom_of_not_inWord hc

theorem hitsFrom_marks (h : Keyed keys p) {m : Text} (hm : ∀ c ∈ m, isWordChar c = false) :
    hitsFrom p none offset 0 (m ++ cs) = hitsFrom p none (offset + width m) 0 cs := by
  induction m generalizing offset with
  | nil => rfl
  | cons c m ih =>
      rw [List.cons_append, h.hitsFrom_mark (hm c (by simp)), ih fun d hd => hm d (by simp [hd]),
        width_cons, Nat.add_assoc]

/-- From the middle of a word a search comes to its end. -/
theorem hitsFrom_inWord (h : Keyed keys p) {w : Text} (hw : ∀ c ∈ w, isWordChar c = true)
    {prev : Option Char} (hprev : inWord prev = true) (hcs : Edge cs) :
    hitsFrom p prev offset 0 (w ++ cs) = hitsFrom p none (offset + width w) 0 cs := by
  induction w generalizing prev offset with
  | nil => exact h.hitsFrom_of_edge prev hcs
  | cons c w ih =>
      have hnone : p prev (c :: (w ++ cs)) = none := by simp [h.gate prev, hprev]
      have hc : inWord (some c) = true := hw c (by simp)
      rw [List.cons_append, hitsFrom_cons_of_none hnone, ih (fun d hd => hw d (by simp [hd])) hc,
        width_cons, Nat.add_assoc]

theorem hitsFrom_word (h : Keyed keys p) {w : Text} (hw : ∀ c ∈ w, isWordChar c = true)
    (hfree : w ∉ keys) (hcs : Edge cs) :
    hitsFrom p none offset 0 (w ++ cs) = hitsFrom p none (offset + width w) 0 cs := by
  cases w with
  | nil => rfl
  | cons c w =>
      have hnone : p none (c :: w ++ cs) = none := by
        rw [Option.eq_none_iff_forall_ne_some]
        intro r hr
        have hkey := h.key hr
        rw [hcs.takeWhile_append hw] at hkey
        exact hfree hkey
      have hc : inWord (some c) = true := hw c (by simp)
      have hrest : ∀ d ∈ w, isWordChar d = true := fun d hd => hw d (by simp [hd])
      rw [List.cons_append] at hnone ⊢
      rw [hitsFrom_cons_of_none hnone, h.hitsFrom_inWord hrest hc hcs, width_cons, Nat.add_assoc]

end Keyed

/-- Behind a hit the search goes on with what the pattern left. -/
theorem Keyed.hitsFrom_hit {α : Type} {keys : List Text} {p : Pattern α} (h : Keyed keys p)
    {offset : Nat} {m cs : Text} {a : α} (hm : m ≠ []) (hp : p none (m ++ cs) = some (a, cs))
    (hcs : Edge cs) :
    hitsFrom p none offset 0 (m ++ cs) =
      ⟨offset, a, cs⟩ :: hitsFrom p none (offset + width m) 0 cs := by
  cases m with
  | nil => exact absurd rfl hm
  | cons c m =>
      rw [List.cons_append] at hp ⊢
      rw [hitsFrom_cons_of_some hp, List.length_append, Nat.add_sub_cancel, hitsFrom_covered,
        h.hitsFrom_of_edge _ hcs, width_cons, Nat.add_assoc]

theorem edge_append {m cs : Text} (hm : ∀ c ∈ m, isWordChar c = false) (hcs : Edge cs) :
    Edge (m ++ cs) := by
  cases m with
  | nil => exact hcs
  | cons c m => exact edge_cons (hm c (by simp))

theorem Keyed.hitsFrom_between {α : Type} {keys : List Text} {p : Pattern α} (h : Keyed keys p)
    {pre m post b : Text} {a : α} (hpre : ∀ c ∈ pre, isWordChar c = false) (hm : m ≠ [])
    (hpost : ∀ c ∈ post, isWordChar c = false) (hb : Edge b)
    (hp : p none (m ++ (post ++ b)) = some (a, post ++ b)) (offset : Nat) :
    hitsFrom p none offset 0 (pre ++ (m ++ (post ++ b))) =
      ⟨offset + width pre, a, post ++ b⟩ ::
        hitsFrom p none (offset + width (pre ++ (m ++ post))) 0 b := by
  rw [h.hitsFrom_marks hpre, h.hitsFrom_hit hm hp (edge_append hpost hb), h.hitsFrom_marks hpost,
    width_append, width_append, Nat.add_assoc, Nat.add_assoc]

/-- Is every word of a text, of which `run` has been read, none of the keys, and does the text end
outside a word? -/
def idleFrom (keys : List Text) : Text → Text → Bool
  | run, [] => run.isEmpty
  | run, c :: cs =>
      if isWordChar c then idleFrom keys (run ++ [c]) cs
      else !keys.contains run && idleFrom keys [] cs

theorem Keyed.hitsFrom_idle {α : Type} {keys : List Text} {p : Pattern α} (h : Keyed keys p)
    (offset : Nat) {run cs : Text} (hrun : ∀ c ∈ run, isWordChar c = true)
    (hcs : idleFrom keys run cs = true) (b : Text) :
    hitsFrom p none offset 0 (run ++ (cs ++ b)) =
      hitsFrom p none (offset + width (run ++ cs)) 0 b := by
  induction cs generalizing offset run with
  | nil =>
      have hempty : run = [] := List.isEmpty_iff.1 hcs
      cases hempty
      rfl
  | cons c cs ih =>
      rw [idleFrom] at hcs
      split at hcs
      · next hc =>
          have hlonger : ∀ d ∈ run ++ [c], isWordChar d = true := by
            intro d hd
            rcases List.mem_append.1 hd with hd | hd
            · exact hrun d hd
            · rw [List.mem_singleton.1 hd, hc]
          have hgo := ih offset hlonger hcs
          simpa only [List.append_assoc, List.cons_append, List.nil_append] using hgo
      · next hc =>
          have hc : isWordChar c = false := by simpa using hc
          rw [Bool.and_eq_true] at hcs
          have hfree : run ∉ keys := by simpa using hcs.1
          rw [List.cons_append, h.hitsFrom_word hrun hfree (edge_cons hc), h.hitsFrom_mark hc]
          have hgo := ih (offset + width run + c.utf8Size) (List.forall_mem_nil _) hcs.2
          rw [List.nil_append, List.nil_append] at hgo
          rw [hgo, width_append, width_cons]
          congr 1
          omega

end Text
end ProcedureIndex
