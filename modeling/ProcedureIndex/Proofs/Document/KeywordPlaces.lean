import ProcedureIndex.Proofs.Document.LinesBelow

/-!
The keyword in front of a declared name. In every family the text up to the name ends in
the keyword of the family and blanks, and the keyword is a word of its own there: behind
the mark or the blank that the header starts at, behind the `static` of a function, at the
start of a class's body or at the start of a line.
-/

namespace ProcedureIndex

open Text

namespace Text

variable {keyword cs : Text} {prev : Option Char}

/-- The text, behind the character `prev`, ends in a keyword that no word runs into, and blanks. -/
def EndsInWord (keyword : Text) (prev : Option Char) (cs : Text) : Prop :=
  ∃ front gap, cs = front ++ (keyword ++ gap) ∧ inWord (front.getLast?.or prev) = false ∧
    ∀ c ∈ gap, isBlank c = true

theorem EndsInWord.append_left {pre : Text} (h : EndsInWord keyword (pre.getLast?.or prev) cs) :
    EndsInWord keyword prev (pre ++ cs) := by
  obtain ⟨front, gap, rfl, hword, hgap⟩ := h
  refine ⟨pre ++ front, gap, by rw [List.append_assoc], ?_, hgap⟩
  rwa [List.getLast?_append, Option.or_assoc]

theorem EndsInWord.of_outside (h : EndsInWord keyword none cs) (hprev : inWord prev = false) :
    EndsInWord keyword prev cs := by
  obtain ⟨front, gap, rfl, hword, hgap⟩ := h
  refine ⟨front, gap, rfl, ?_, hgap⟩
  cases hlast : front.getLast? with
  | none => exact hprev
  | some c => rwa [hlast] at hword

/-- Every header of a pattern leads up to its name with the keyword, as a word. -/
def LeadsWith {α : Type} (keyword : Text) (lead : α → Text) (p : Pattern α) : Prop :=
  ∀ {prev cs a rest}, p prev cs = some (a, rest) → EndsInWord keyword prev (lead a)

/-- The keyword that a pattern starts with is a word, since no word runs into the pattern. -/
theorem Keyed.leadsWith {α : Type} {lead : α → Text} {p : Pattern α} (h : Keyed [keyword] p)
    (hlead : ∀ {prev cs a rest}, p prev cs = some (a, rest) →
      ∃ gap more, lead a = keyword ++ gap ∧ (∀ c ∈ gap, isBlank c = true) ∧
        cs = keyword ++ (gap ++ more)) : LeadsWith keyword lead p := by
  intro prev cs a rest hp
  obtain ⟨gap, -, heq, hgap, -⟩ := hlead hp
  exact ⟨[], gap, heq, h.outside hp, hgap⟩

end Text

theorem FnHeader.leadsWith : LeadsWith keyword lead pattern := by
  intro prev cs h rest hp
  have hprev := keyed.outside hp
  rcases pattern_cases hp with hplain | ⟨gap, cs', h', -, hlast, -, hplain, rfl⟩
  · rw [unmarked, hprev, if_neg (by simp)] at hplain
    obtain ⟨gap, -, hlead, hgap, -⟩ := exists_lead_of_plain? hplain
    exact ⟨[], gap, hlead, hprev, hgap⟩
  · obtain ⟨gap', -, hlead, hgap', -⟩ := exists_lead_of_plain? hplain
    refine ⟨staticKeyword ++ gap, gap', by rw [hlead], ?_, hgap'⟩
    rw [List.getLast?_append]
    cases hl : gap.getLast? with
    | none => simp [hl] at hlast
    | some c =>
        rw [hl] at hlast
        exact isWordChar_of_isBlank hlast

theorem ClassHeader.leadsWith : LeadsWith keyword lead pattern :=
  keyed.leadsWith exists_lead

theorem PipelineHeader.leadsWith : LeadsWith keyword lead pattern :=
  keyed.leadsWith exists_lead

namespace LineHeader

variable {keyword line : Text}

theorem endsInWord_of_named? {lead name rest : Text}
    (h : named? keyword line = some ((lead, name), rest)) : EndsInWord keyword none lead := by
  simp only [named?, bind, Option.bind_eq_some_iff] at h
  obtain ⟨r, -, ⟨gap, r'⟩, hgap, ⟨n, r''⟩, -, he⟩ := h
  cases he
  refine ⟨line.takeWhile isSpacing, gap, List.append_assoc _ _ _, ?_, ?_⟩
  · cases hl : (line.takeWhile isSpacing).getLast? with
    | none => rfl
    | some c =>
        have hspacing := List.mem_takeWhile_imp (List.mem_of_getLast? hl)
        exact isWordChar_of_isBlank (isBlank_of_isSpacing hspacing)
  · intro c hc
    exact isBlank_of_isSpacing (all_of_some? hgap c hc)

theorem endsInWord_of_assigned? {h : LineHeader} (hp : assigned? keyword line = some h) :
    EndsInWord keyword none h.lead := by
  simp only [assigned?, bind, Option.bind_eq_some_iff] at hp
  obtain ⟨⟨⟨lead, name⟩, rest⟩, hn, value, -, he⟩ := hp
  cases he
  exact endsInWord_of_named? hn

theorem endsInWord_of_spaced? {h : LineHeader} (hp : spaced? keyword line = some h) :
    EndsInWord keyword none h.lead := by
  simp only [spaced?, bind, Option.bind_eq_some_iff] at hp
  obtain ⟨⟨⟨lead, name⟩, rest⟩, hn, hp⟩ := hp
  cases rest with
  | nil =>
      cases hp
      exact endsInWord_of_named? hn
  | cons c cs =>
      simp only at hp
      split at hp
      · cases hp
        exact endsInWord_of_named? hn
      · cases hp

end LineHeader

def SymbolKind.keyword : SymbolKind → Text
  | .function | .method => FnHeader.keyword
  | .pipeline => PipelineHeader.keyword
  | .classType => ClassHeader.keyword
  | .typeAlias => "alias".toList
  | .macroText => "macro".toList
  | .constant => "const".toList

namespace Site

variable {cs : Text} {site : Site}

/-- The text up to the name of a site ends in the keyword of its kind, as a word. -/
def Introduced (cs : Text) (site : Site) : Prop :=
  EndsInWord site.form.kind.keyword none (takeBytes site.start cs)

theorem introduced_of_split (before behind : Text) (hcs : cs = before ++ behind)
    (hwidth : width before = site.start) (h : EndsInWord site.form.kind.keyword none before) :
    site.Introduced cs := by
  rw [Introduced, hcs, ← hwidth, takeBytes_width_append]
  exact h

theorem exists_split_of_hit {α : Type} {keyword : Text} {lead : α → Text} {p : Pattern α}
    (hl : Leads keyword lead p) (hw : LeadsWith keyword lead p) {h : Hit α} (hm : h ∈ hits p cs) :
    ∃ before behind, cs = before ++ behind ∧ width before = h.start + width (lead h.value) ∧
      EndsInWord keyword none before := by
  obtain ⟨pre, suf, hcs, hstart, hp⟩ := mem_hits hm
  obtain ⟨taken, -, hsuf⟩ := hl.split hp
  refine ⟨pre ++ lead h.value, taken ++ h.rest, ?_, by rw [width_append, hstart], ?_⟩
  · rw [hcs, hsuf, List.append_assoc]
  · apply EndsInWord.append_left
    rw [Option.or_none]
    exact hw hp

theorem introduced_of_mem_functions (h : site ∈ functions cs) : site.Introduced cs := by
  rw [functions_eq] at h
  obtain ⟨hit, hhit, rfl⟩ := List.mem_map.1 h
  obtain ⟨before, behind, hcs, hwidth, hends⟩ :=
    exists_split_of_hit FnHeader.leads FnHeader.leadsWith (List.mem_of_mem_filter hhit)
  exact introduced_of_split before behind hcs hwidth hends

theorem introduced_of_mem_pipelines (h : site ∈ pipelines cs) : site.Introduced cs := by
  obtain ⟨hit, hhit, rfl⟩ := List.mem_map.1 h
  obtain ⟨before, behind, hcs, hwidth, hends⟩ :=
    exists_split_of_hit PipelineHeader.leads PipelineHeader.leadsWith hhit
  exact introduced_of_split before behind hcs hwidth hends

theorem introduced_of_mem_methodsOf {k : Hit ClassHeader} (hk : k ∈ classes cs)
    (h : site ∈ methodsOf cs k) : site.Introduced cs := by
  rw [methodsOf] at h
  split at h
  · next base body hbody =>
      obtain ⟨front, back, hsplit, hbase, hbrace⟩ := exists_split_of_classBody hk hbody
      obtain ⟨hit, hhit, rfl⟩ := List.mem_map.1 h
      obtain ⟨before, behind, rfl, hwidth, hends⟩ :=
        exists_split_of_hit FnHeader.leads FnHeader.leadsWith hhit
      refine introduced_of_split (front ++ before) (behind ++ back) ?_ ?_ ?_
      · rw [hsplit, List.append_assoc, List.append_assoc]
      · rw [width_append, hbase, hwidth, Nat.add_assoc]
      · apply EndsInWord.append_left
        rw [hbrace]
        exact hends.of_outside (by decide)
  · cases h

theorem introduced_of_mem_types (h : site ∈ types cs) : site.Introduced cs := by
  rw [types_eq] at h
  obtain ⟨k, hk, h⟩ := List.mem_flatMap.1 h
  rcases List.mem_cons.1 h with rfl | h
  · obtain ⟨before, behind, hcs, hwidth, hends⟩ :=
      exists_split_of_hit ClassHeader.leads ClassHeader.leadsWith hk
    exact introduced_of_split before behind hcs hwidth hends
  · exact introduced_of_mem_methodsOf hk h

theorem introduced_of_mem_onLines {keyword : Text} {recognise : Text → Option LineHeader}
    {form : String → SymbolForm} (h : site ∈ onLines recognise form cs)
    (hl : LineHeader.Leads keyword recognise)
    (hw : ∀ {line h}, recognise line = some h → EndsInWord keyword none h.lead)
    (hform : ∀ value, (form value).kind.keyword = keyword) : site.Introduced cs := by
  simp only [onLines, LineHeader.all, List.mem_map, List.mem_filterMap] at h
  obtain ⟨⟨o, header⟩, ⟨⟨o', line⟩, hline, hsome⟩, rfl⟩ := h
  obtain ⟨header', hheader, heq⟩ := Option.map_eq_some_iff.1 hsome
  cases heq
  obtain ⟨front, back, hjoin, hoffset, -, hstarts⟩ := exists_split_of_mem_linesFrom hline
  rw [intercalate_lines] at hjoin
  obtain ⟨behind, -, hsplit⟩ : ∃ behind, behind ≠ [] ∧ line = header.lead ++ behind :=
    hl.split hheader
  have houtside : inWord (front.getLast?.or none) = false := by
    rcases hstarts with rfl | hlast
    · rfl
    · rw [hlast]
      decide
  refine introduced_of_split (front ++ header.lead) (behind ++ back) ?_ ?_ ?_
  · rw [hjoin, hsplit, List.append_assoc, List.append_assoc]
  · rw [width_append, ← hoffset, Nat.zero_add]
  · rw [hform]
    exact ((hw hheader).of_outside houtside).append_left

/-- Every declaration stands behind the keyword of its kind. -/
theorem introduced_of_mem_all (h : site ∈ all cs) : site.Introduced cs := by
  simp only [all, List.mem_append] at h
  rcases h with ((((h | h) | h) | h) | h) | h
  · exact introduced_of_mem_functions h
  · exact introduced_of_mem_pipelines h
  · exact introduced_of_mem_types h
  · exact introduced_of_mem_onLines h (LineHeader.leads_assigned? _)
      LineHeader.endsInWord_of_assigned? fun _ => rfl
  · exact introduced_of_mem_onLines h (LineHeader.leads_spaced? _)
      LineHeader.endsInWord_of_spaced? fun _ => rfl
  · exact introduced_of_mem_onLines h (LineHeader.leads_assigned? _)
      LineHeader.endsInWord_of_assigned? fun _ => rfl

end Site
end ProcedureIndex
