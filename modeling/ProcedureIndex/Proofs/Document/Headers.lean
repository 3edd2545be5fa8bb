import ProcedureIndex.Proofs.Text.Names

/-!
What a recognised header says of the text. In each family the captured lead and
name stand at the front of the text, the name whole; what the recogniser left is an
end of the text.
-/

namespace ProcedureIndex

open Text

theorem ClassHeader.pattern_eq_some {prev : Option Char} {cs rest : Text} {h : ClassHeader}
    (hp : pattern prev cs = some (h, rest)) :
    (∃ behind, NameAt cs h.lead h.name behind) ∧ ∃ taken, cs = taken ++ rest := by
  rw [pattern] at hp
  split at hp
  · cases hp
  · simp only [bind, Option.bind_eq_some_iff] at hp
    obtain ⟨⟨⟨lead, name⟩, behind⟩, hn, hp⟩ := hp
    obtain ⟨hname, -⟩ := named?_eq_some hn
    cases hparent : parent? behind with
    | none =>
        simp only [hparent] at hp
        cases hp
        exact ⟨⟨_, hname⟩, lead ++ name, by rw [hname.split, List.append_assoc]⟩
    | some r =>
        obtain ⟨parent, after⟩ := r
        simp only [hparent] at hp
        cases hp
        refine ⟨⟨_, hname⟩, ?_⟩
        simp only [parent?, bind, Option.bind_eq_some_iff] at hparent
        obtain ⟨⟨gap, r⟩, hgap, ⟨⟨lead', name'⟩, r'⟩, hn', he⟩ := hparent
        cases he
        have hafter : r = lead' ++ (name' ++ r') := (named?_eq_some hn').1.split
        refine ⟨lead ++ (name ++ (gap ++ (lead' ++ name'))), ?_⟩
        rw [hname.split, (some?_eq_some hgap).1, hafter]
        simp only [List.append_assoc]

theorem FnHeader.plain?_eq_some {cs rest : Text} {h : FnHeader}
    (hp : plain? cs = some (h, rest)) :
    ∃ behind, NameAt cs h.lead h.name behind ∧ behind ≠ [] := by
  simp only [plain?, bind, Option.bind_eq_some_iff] at hp
  obtain ⟨⟨⟨lead, name⟩, behind⟩, hn, r, hopen, he⟩ := hp
  cases he
  refine ⟨behind, (named?_eq_some hn).1, ?_⟩
  rintro rfl
  have hparen := after?_eq_some_iff.1 hopen
  cases hparen

theorem FnHeader.pattern_eq_some {prev : Option Char} {cs rest : Text} {h : FnHeader}
    (hp : pattern prev cs = some (h, rest)) :
    ∃ behind, NameAt cs h.lead h.name behind ∧ behind ≠ [] := by
  rw [pattern] at hp
  split at hp
  · cases hp
  · split at hp
    · next hs =>
        obtain ⟨⟨h', rest'⟩, hplain, he⟩ := Option.map_eq_some_iff.1 hp
        cases he
        obtain ⟨behind, hname, hne⟩ := plain?_eq_some hplain
        simp only [static?, bind, Option.bind_eq_some_iff] at hs
        obtain ⟨r, hk, ⟨gap, r'⟩, hgap, he⟩ := hs
        cases he
        refine ⟨behind, ?_, hne⟩
        have hcs : cs = (staticKeyword ++ gap) ++ r' := by
          rw [after?_eq_some_iff.1 hk, (some?_eq_some hgap).1, List.append_assoc]
        rw [hcs]
        exact hname.append_left (staticKeyword ++ gap)
    · exact plain?_eq_some hp

theorem PipelineHeader.pattern_eq_some {prev : Option Char} {cs rest : Text} {h : PipelineHeader}
    (hp : pattern prev cs = some (h, rest)) : NameAt cs h.lead h.name rest := by
  rw [pattern] at hp
  split at hp
  · cases hp
  · obtain ⟨⟨⟨lead, name⟩, behind⟩, hn, he⟩ := Option.map_eq_some_iff.1 hp
    cases he
    exact (named?_eq_some hn).1

namespace LineHeader

theorem named?_eq_some {keyword line lead name rest : Text}
    (h : named? keyword line = some ((lead, name), rest)) : NameAt line lead name rest := by
  simp only [named?, bind, Option.bind_eq_some_iff] at h
  obtain ⟨r, hk, ⟨gap, r'⟩, hgap, ⟨n, r''⟩, hn, he⟩ := h
  cases he
  have hk := after?_eq_some_iff.1 hk
  obtain ⟨rfl, hlast⟩ := some?_eq_some hgap
  obtain ⟨rfl, hname, hedge⟩ := name?_eq_some hn
  refine ⟨?_, ?_, hname, hedge⟩
  · have hline : line.takeWhile isSpacing ++ line.dropWhile isSpacing = line :=
      List.takeWhile_append_dropWhile
    rw [hk] at hline
    simpa only [List.append_assoc] using hline.symm
  · rw [List.getLast?_append]
    cases hl : gap.getLast? with
    | none => simp [hl] at hlast
    | some c =>
        rw [hl] at hlast
        exact isBlank_of_isSpacing hlast

theorem assigned?_eq_some {keyword line : Text} {h : LineHeader}
    (hp : assigned? keyword line = some h) : ∃ behind, NameAt line h.lead h.name behind := by
  simp only [assigned?, bind, Option.bind_eq_some_iff] at hp
  obtain ⟨⟨⟨lead, name⟩, rest⟩, hn, value, -, he⟩ := hp
  cases he
  exact ⟨rest, named?_eq_some hn⟩

theorem spaced?_eq_some {keyword line : Text} {h : LineHeader}
    (hp : spaced? keyword line = some h) : ∃ behind, NameAt line h.lead h.name behind := by
  simp only [spaced?, bind, Option.bind_eq_some_iff] at hp
  obtain ⟨⟨⟨lead, name⟩, rest⟩, hn, hp⟩ := hp
  refine ⟨rest, ?_⟩
  cases rest with
  | nil =>
      cases hp
      exact named?_eq_some hn
  | cons c cs =>
      simp only at hp
      split at hp
      · cases hp
        exact named?_eq_some hn
      · cases hp

end LineHeader
end ProcedureIndex
