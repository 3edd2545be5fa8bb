import Mathlib.Data.List.TakeWhile
import ProcedureIndex.Document.Header

/-!
Names in a text. A recogniser of headers answers with the text that leads up to a
name, the name, and what it left; here it is said what such an answer means for the
text: the name is whole, and a blank stands in front of it.
-/

namespace ProcedureIndex
namespace Text

theorem head?_dropWhile_any {p : Char → Bool} (cs : Text) :
    (cs.dropWhile p).head?.any p = false := by
  have h := List.head?_dropWhile_not p cs
  cases hd : (cs.dropWhile p).head? with
  | none => rfl
  | some c => simpa [hd] using h

theorem takeWhile_append_of_head? {p : Char → Bool} {a b : Text} (ha : ∀ c ∈ a, p c = true)
    (hb : b.head?.any p = false) : (a ++ b).takeWhile p = a := by
  rw [List.takeWhile_append_of_pos ha]
  cases b with
  | nil => simp
  | cons d ds => simpa using hb

def apart (rs ss : List (Nat × Nat)) : Bool :=
  rs.all fun r => ss.all fun s => r.2 < s.1 || s.2 < r.1

theorem covers_eq_false_of_apart {rs ss : List (Nat × Nat)} (h : apart rs ss = true) {n : Nat}
    (hn : covers rs n = true) : covers ss n = false := by
  rw [Bool.eq_false_iff]
  intro hs
  obtain ⟨r, hr, hrn⟩ := List.any_eq_true.1 hn
  obtain ⟨s, hs, hsn⟩ := List.any_eq_true.1 hs
  have hrs := List.all_eq_true.1 (List.all_eq_true.1 h r hr) s hs
  simp only [Bool.and_eq_true, Bool.or_eq_true, decide_eq_true_eq] at hrn hsn hrs
  omega

theorem of_ascii {P : Char → Bool}
    (hall : (List.range 0x80).all (fun n => P (Char.ofNat n)) = true) {c : Char}
    (hc : c.toNat < 0x80) : P c = true := by
  have hn := List.all_eq_true.1 hall c.toNat (List.mem_range.2 hc)
  rwa [Char.ofNat_toNat] at hn

/-- Blanks separate identifiers: none of them belongs to one. -/
theorem isIdentContinue_of_isBlank {c : Char} (h : isBlank c = true) :
    isIdentContinue c = false := by
  by_cases hc : c.toNat < 0x80
  · have hascii := of_ascii (P := fun c => !isBlank c || !isIdentContinue c) (by decide +kernel) hc
    simpa [h] using hascii
  · have houtside : ∀ ranges, apart blankRanges ranges = true → covers ranges c.toNat = false :=
      fun _ hapart => covers_eq_false_of_apart hapart h
    have hstart := houtside nameStartRanges (by decide +kernel)
    have hextend := houtside nameExtendRanges (by decide +kernel)
    have hlater := houtside laterStartRanges (by decide +kernel)
    have hlater' := houtside laterExtendRanges (by decide +kernel)
    simp [isIdentContinue, isIdentStart, isNameContinue, isNameStart, hc, hstart, hextend, hlater,
      hlater']

theorem isNameContinue_of_isBlank {c : Char} (h : isBlank c = true) :
    isNameContinue c = false := by
  rw [Bool.eq_false_iff]
  intro hc
  exact absurd (isIdentContinue_of_isNameContinue hc) (by simp [isIdentContinue_of_isBlank h])

theorem isWordChar_of_isBlank {c : Char} (h : isBlank c = true) : isWordChar c = false := by
  have hother : covers nonNameWordRanges c.toNat = false :=
    covers_eq_false_of_apart (by decide +kernel) h
  rw [isWordChar, isNameContinue_of_isBlank h, hother]
  rfl

theorem isBlank_of_isSpacing {c : Char} (h : isSpacing c = true) : isBlank c = true := by
  rcases (by simpa [isSpacing] using h : c = ' ' ∨ c = '\t') with rfl | rfl <;> decide

theorem trimEnd_append_blanks {gap : Text} (h : ∀ c ∈ gap, isBlank c = true) (cs : Text) :
    trimEnd (cs ++ gap) = trimEnd cs := by
  rw [trimEnd, List.reverse_append, List.dropWhile_append_of_pos (by simpa using h), trimEnd]

theorem exists_blanks (cs : Text) :
    ∃ gap, cs = trimEnd cs ++ gap ∧ ∀ c ∈ gap, isBlank c = true := by
  refine ⟨(cs.reverse.takeWhile isBlank).reverse, ?_, ?_⟩
  · rw [trimEnd, ← List.reverse_append, List.takeWhile_append_dropWhile, List.reverse_reverse]
  · intro c hc
    exact List.mem_takeWhile_imp (List.mem_reverse.1 hc)

structure IsName (name : Text) : Prop where
  start : name.head?.any isNameStart = true
  all : ∀ c ∈ name, isNameContinue c = true

theorem IsName.ne_nil {name : Text} (h : IsName name) : name ≠ [] := by
  rintro rfl
  exact absurd h.start (by decide)

theorem name?_eq_some {cs name rest : Text} (h : name? cs = some (name, rest)) :
    cs = name ++ rest ∧ IsName name ∧ rest.head?.any isNameContinue = false := by
  cases cs with
  | nil => cases h
  | cons c cs =>
      rw [name?] at h
      split at h
      · next hc =>
          cases h
          refine ⟨?_, ⟨hc, ?_⟩, head?_dropWhile_any cs⟩
          · rw [List.cons_append, List.takeWhile_append_dropWhile]
          · intro d hd
            rcases List.mem_cons.1 hd with rfl | hd
            · exact isNameContinue_of_isNameStart hc
            · exact List.mem_takeWhile_imp hd
      · cases h

/-- A text holds a whole name between what leads up to it, which ends in a blank, and what stands
behind it. -/
structure NameAt (cs lead name behind : Text) : Prop where
  split : cs = lead ++ (name ++ behind)
  gap : lead.getLast?.any isBlank = true
  whole : IsName name
  edge : behind.head?.any isNameContinue = false

namespace NameAt

variable {cs lead name behind : Text}

theorem append_left (h : NameAt cs lead name behind) (pre : Text) :
    NameAt (pre ++ cs) (pre ++ lead) name behind := by
  refine ⟨by rw [h.split, List.append_assoc], ?_, h.whole, h.edge⟩
  rw [List.getLast?_append]
  cases hl : lead.getLast? with
  | none => exact absurd h.gap (by simp [hl])
  | some b => simpa [hl] using h.gap

/-- More text behind a name does no harm unless it would go on with the name. -/
theorem append_right (h : NameAt cs lead name behind) {post : Text}
    (hpost : behind ≠ [] ∨ post.head?.any isNameContinue = false) :
    NameAt (cs ++ post) lead name (behind ++ post) := by
  refine ⟨by rw [h.split, List.append_assoc, List.append_assoc], h.gap, h.whole, ?_⟩
  cases behind with
  | nil => exact hpost.resolve_left (fun hne => hne rfl)
  | cons c cs => exact h.edge

end NameAt

theorem some?_eq_some {p : Char → Bool} {cs taken rest : Text}
    (h : some? p cs = some (taken, rest)) :
    cs = taken ++ rest ∧ taken.getLast?.any p = true := by
  rw [some?] at h
  split at h
  · next hc =>
      cases h
      refine ⟨List.takeWhile_append_dropWhile.symm, ?_⟩
      cases hl : (cs.takeWhile p).getLast? with
      | none =>
          cases cs with
          | nil => cases hc
          | cons c cs => simp_all
      | some c =>
          change p c = true
          exact List.mem_takeWhile_imp (List.mem_of_getLast? hl)
  · cases h

theorem named?_eq_some {keyword cs lead name rest : Text}
    (h : named? keyword cs = some ((lead, name), rest)) :
    NameAt cs lead name rest ∧ ∃ gap, lead = keyword ++ gap := by
  simp only [named?, bind, Option.bind_eq_some_iff] at h
  obtain ⟨r, hk, ⟨gap, r'⟩, hb, ⟨n, r''⟩, hn, he⟩ := h
  cases he
  have hk := after?_eq_some_iff.1 hk
  obtain ⟨rfl, hgap⟩ := some?_eq_some hb
  obtain ⟨rfl, hname, hedge⟩ := name?_eq_some hn
  refine ⟨⟨by rw [hk, List.append_assoc], ?_, hname, hedge⟩, gap, rfl⟩
  rw [List.getLast?_append]
  cases hl : gap.getLast? with
  | none => simp [hl] at hgap
  | some c => simpa [hl] using hgap

end Text
end ProcedureIndex
