import ProcedureIndex.Document.Parse
import ProcedureIndex.Proofs.Document.Headers
import ProcedureIndex.Proofs.Symbol.Groups
import ProcedureIndex.Proofs.Text.Hits
import ProcedureIndex.Proofs.Text.Positions

/-!
Where symbols stand. Every declaration that is found in a text has its name, whole,
at the place that it records, in all families: those found in the text at large,
those found in the body of a class and counted from its start, and those found on a
line.
-/

namespace ProcedureIndex

open Text

namespace Site

/-- The name of a site stands at its place in the text. -/
def Named (cs : Text) (site : Site) : Prop :=
  ∃ lead behind, NameAt cs lead site.name behind ∧ width lead = site.start

theorem named_of_mem_functions {cs : Text} {site : Site} (h : site ∈ functions cs) :
    site.Named cs := by
  simp only [functions, List.mem_map, List.mem_filter] at h
  obtain ⟨hit, ⟨hhit, -⟩, rfl⟩ := h
  obtain ⟨pre, suf, rfl, hstart, hp⟩ := mem_hits hhit
  obtain ⟨behind, hname, -⟩ := FnHeader.pattern_eq_some hp
  exact ⟨pre ++ hit.value.lead, behind, hname.append_left pre, by rw [width_append, hstart]⟩

theorem named_of_mem_pipelines {cs : Text} {site : Site} (h : site ∈ pipelines cs) :
    site.Named cs := by
  simp only [pipelines, List.mem_map] at h
  obtain ⟨hit, hhit, rfl⟩ := h
  obtain ⟨pre, suf, rfl, hstart, hp⟩ := mem_hits hhit
  have hname := PipelineHeader.pattern_eq_some hp
  exact ⟨pre ++ hit.value.lead, hit.rest, hname.append_left pre, by rw [width_append, hstart]⟩

theorem untilClosed_isPrefix (q : Quoting) (depth : Nat) (cs : Text) :
    untilClosed q depth cs <+: cs := by
  induction cs generalizing q depth with
  | nil => exact List.prefix_refl _
  | cons c cs ih =>
      rw [untilClosed]
      split
      · split
        · exact List.nil_prefix
        · exact (List.prefix_cons_inj c).2 (ih _ _)
      · split <;> exact (List.prefix_cons_inj c).2 (ih _ _)

/-- The body of a class is a stretch of the text that starts where it is said to start, behind the
opening brace. -/
theorem exists_split_of_body? {cs taken rest body : Text} {base : Nat} (hcs : cs = taken ++ rest)
    (h : body? (width cs) rest = some (base, body)) :
    ∃ front back, cs = front ++ (body ++ back) ∧ width front = base ∧
      front.getLast? = some '{' := by
  rw [body?] at h
  split at h
  · next inner hdrop =>
      cases h
      obtain ⟨back, hback⟩ := untilClosed_isPrefix .code 1 inner
      have hrest : rest.takeWhile isBlank ++ '{' :: inner = rest := by
        rw [← hdrop, List.takeWhile_append_dropWhile]
      refine ⟨taken ++ (rest.takeWhile isBlank ++ ['{']), back, ?_, ?_, ?_⟩
      · rw [hback, hcs]
        conv => lhs; rw [← hrest]
        simp only [List.append_assoc, List.singleton_append]
      · rw [hcs, ← hrest]
        simp only [width_append, width_cons, width_nil]
        have hblank : (rest.takeWhile isBlank ++ '{' :: inner).takeWhile isBlank =
            rest.takeWhile isBlank := by rw [hrest]
        rw [hblank]
        omega
      · rw [← List.append_assoc, List.getLast?_concat]
  · cases h

theorem exists_split_of_classBody {cs body : Text} {base : Nat} {k : Hit ClassHeader}
    (hk : k ∈ classes cs) (h : body? (width cs) k.rest = some (base, body)) :
    ∃ front back, cs = front ++ (body ++ back) ∧ width front = base ∧
      front.getLast? = some '{' := by
  obtain ⟨pre, suf, hcs, -, hp⟩ := mem_hits hk
  obtain ⟨-, taken, htaken⟩ := ClassHeader.pattern_eq_some hp
  have hrest : cs = (pre ++ taken) ++ k.rest := by rw [hcs, htaken, List.append_assoc]
  exact exists_split_of_body? hrest h

theorem named_of_mem_methods {cs owner body front back : Text} {base : Nat} {site : Site}
    (hcs : cs = front ++ (body ++ back)) (hbase : width front = base)
    (h : site ∈ methods owner base body) : site.Named cs := by
  simp only [methods, List.mem_map] at h
  obtain ⟨hit, hhit, rfl⟩ := h
  obtain ⟨pre, suf, rfl, hstart, hp⟩ := mem_hits hhit
  obtain ⟨behind, hname, hne⟩ := FnHeader.pattern_eq_some hp
  -- The header goes on behind its name, so the end of the body cannot cut the name short.
  refine ⟨front ++ (pre ++ hit.value.lead), behind ++ back, ?_, ?_⟩
  · rw [hcs]
    exact ((hname.append_left pre).append_right (.inl hne)).append_left front
  · rw [width_append, width_append, hbase, hstart, Nat.add_assoc]

theorem named_of_mem_types {cs : Text} {site : Site} (h : site ∈ types cs) : site.Named cs := by
  obtain ⟨hit, hhit, hsite⟩ := List.mem_flatMap.1 h
  rcases List.mem_cons.1 hsite with rfl | hsite
  · obtain ⟨pre, suf, hcs, hstart, hp⟩ := mem_hits hhit
    obtain ⟨⟨behind, hname⟩, -⟩ := ClassHeader.pattern_eq_some hp
    refine ⟨pre ++ hit.value.lead, behind, ?_, by rw [width_append, hstart]⟩
    rw [hcs]
    exact hname.append_left pre
  · split at hsite
    · next base body hbody =>
        obtain ⟨front, back, hsplit, hbase, -⟩ := exists_split_of_classBody hhit hbody
        exact named_of_mem_methods hsplit hbase hsite
    · cases hsite

theorem exists_split_of_mem_linesFrom {offset : Nat} {ls : List Text} {o : Nat} {line : Text}
    (h : (o, line) ∈ LineHeader.linesFrom offset ls) :
    ∃ front back, ['\n'].intercalate ls = front ++ (line ++ back) ∧ offset + width front = o ∧
      back.head?.any isNameContinue = false ∧ (front = [] ∨ front.getLast? = some '\n') := by
  induction ls generalizing offset with
  | nil => cases h
  | cons l ls ih =>
      rcases List.mem_cons.1 h with heq | h
      · cases heq
        cases ls with
        | nil => exact ⟨[], [], by simp, rfl, rfl, .inl rfl⟩
        | cons m ms =>
            exact ⟨[], '\n' :: ['\n'].intercalate (m :: ms),
              by simp [List.intercalate_cons_cons], rfl,
              show isNameContinue '\n' = false by decide, .inl rfl⟩
      · cases ls with
        | nil => cases h
        | cons m ms =>
            obtain ⟨front, back, hjoin, hoffset, hback, hstarts⟩ := ih h
            refine ⟨l ++ ('\n' :: front), back, ?_, ?_, hback, .inr ?_⟩
            · rw [List.intercalate_cons_cons, hjoin]
              simp
            · rw [width_append, width_cons, ← hoffset, show ('\n' : Char).utf8Size = 1 from rfl]
              omega
            · rcases hstarts with rfl | hstarts
              · exact List.getLast?_concat
              · rw [List.getLast?_append, List.getLast?_cons, hstarts]
                rfl

theorem named_of_mem_onLines {cs : Text} {recognise : Text → Option LineHeader}
    {form : String → SymbolForm}
    (hrec : ∀ {line h}, recognise line = some h → ∃ behind, NameAt line h.lead h.name behind)
    {site : Site} (h : site ∈ onLines recognise form cs) : site.Named cs := by
  simp only [onLines, LineHeader.all, List.mem_map, List.mem_filterMap] at h
  obtain ⟨⟨o, header⟩, ⟨⟨o', line⟩, hline, hsome⟩, rfl⟩ := h
  obtain ⟨header', hheader, heq⟩ := Option.map_eq_some_iff.1 hsome
  cases heq
  obtain ⟨front, back, hjoin, hoffset, hback, -⟩ := exists_split_of_mem_linesFrom hline
  rw [intercalate_lines] at hjoin
  obtain ⟨behind, hname⟩ := hrec hheader
  refine ⟨front ++ header.lead, behind ++ back, ?_, ?_⟩
  · rw [hjoin]
    exact (hname.append_right (.inr hback)).append_left front
  · rw [width_append, ← hoffset, Nat.zero_add]

theorem named_of_mem_all {cs : Text} {site : Site} (h : site ∈ all cs) : site.Named cs := by
  simp only [all, List.mem_append] at h
  rcases h with ((((h | h) | h) | h) | h) | h
  · exact named_of_mem_functions h
  · exact named_of_mem_pipelines h
  · exact named_of_mem_types h
  · exact named_of_mem_onLines LineHeader.assigned?_eq_some h
  · exact named_of_mem_onLines LineHeader.spaced?_eq_some h
  · exact named_of_mem_onLines LineHeader.assigned?_eq_some h

theorem exists_site_of_mem_parse {file : FileId} {cs : Text} {s : Symbol}
    (h : s ∈ (parse file cs).all) : ∃ site ∈ all cs, s = site.symbol file cs := by
  rw [parse, Declarations.mem_all_ofSymbols, List.mem_map] at h
  obtain ⟨site, hsite, rfl⟩ := h
  exact ⟨site, hsite, rfl⟩

/-- Every symbol of a text that 32-bit counts can address has its name at its place, the position of
that place, and a position that leads back to the place; and if the letters of identifiers are in
this text the letters of names, its name is the identifier at its position. -/
theorem symbol_positions_exact (file : FileId) (cs : Text) (hlimit : width cs < countLimit)
    (s : Symbol) (hs : s ∈ (parse file cs).all) :
    s.file = file ∧
      isBoundary s.start cs = true ∧ isBoundary s.stop cs = true ∧ s.stop ≤ width cs ∧
      takeBytes (s.stop - s.start) (dropBytes s.start cs) = s.name.toList ∧
      s.position = (LineMap.ofText cs).position s.start ∧
      (LineMap.ofText cs).offset s.position = .ok (some s.start) ∧
      ((∀ c ∈ cs, isIdentContinue c = isNameContinue c) →
        ∃ line, (LineMap.ofText cs).lineText s.position.line = some line ∧
          identAt line s.position.col = some (s.position.col, s.name.toList)) := by
  obtain ⟨site, hsite, rfl⟩ := exists_site_of_mem_parse hs
  obtain ⟨lead, behind, hname, hstart⟩ := named_of_mem_all hsite
  have hname_eq : (site.symbol file cs).name.toList = site.name := String.toList_ofList
  have hstart_eq : (site.symbol file cs).start = width lead := hstart.symm
  have hstop_eq : (site.symbol file cs).stop = width (lead ++ site.name) := by
    rw [Symbol.stop, hname_eq, hstart_eq, width_append]
  have hpos : (site.symbol file cs).position = (LineMap.ofText cs).position (width lead) :=
    congrArg _ hstart_eq
  have hsplit : cs = (lead ++ site.name) ++ behind := by rw [hname.split, List.append_assoc]
  rw [hname_eq, hpos, hstop_eq, hstart_eq]
  refine ⟨rfl, ?_, ?_, ?_, ?_, rfl, ?_, ?_⟩
  · rw [hname.split, isBoundary, takeBytes_width_append, beq_self_eq_true]
  · rw [hsplit, isBoundary, takeBytes_width_append, beq_self_eq_true]
  · conv => rhs; rw [hsplit]
    rw [width_append (lead ++ site.name)]
    omega
  · rw [hname.split, dropBytes_width_append, width_append, Nat.add_sub_cancel_left,
      takeBytes_width_append]
  · obtain ⟨-, -, -, -, hback⟩ := LineMap.exists_line_at lead (site.name ++ behind)
    rw [← hname.split] at hback
    apply hback
    have hle : width lead ≤ width cs := by
      rw [hname.split, width_append]
      omega
    omega
  · intro hagree
    apply hname.identAt_lineText
    cases behind with
    | nil => rfl
    | cons c rest =>
        change isIdentContinue c = false
        rw [hagree c (by rw [hname.split]; simp)]
        exact hname.edge

def openBody : Text := "class Größe \x7b\r\n  static fn maß(".toList

def openMethod : Symbol :=
  { name := "maß", form := .method "Größe" none true, file := ⟨3⟩, start := 29,
    position := ⟨1, 12⟩, labels := [], doc := none }

theorem symbol_positions_exact_openBody :
    openMethod ∈ (parse ⟨3⟩ openBody).all ∧ isBoundary 29 openBody = true ∧
      takeBytes 4 (dropBytes 29 openBody) = "maß".toList ∧
      (LineMap.ofText openBody).offset ⟨1, 12⟩ = .ok (some 29) ∧
      ∃ line, (LineMap.ofText openBody).lineText 1 = some line ∧
        identAt line 12 = some (12, "maß".toList) := by
  have hmem : openMethod ∈ (parse ⟨3⟩ openBody).all := by decide +kernel
  have hagree : openBody.all (fun c => isIdentContinue c == isNameContinue c) = true := by
    decide +kernel
  obtain ⟨-, hstart, -, -, htext, -, hoffset, hident⟩ :=
    symbol_positions_exact ⟨3⟩ openBody (by decide +kernel) openMethod hmem
  refine ⟨hmem, hstart, htext, hoffset, hident ?_⟩
  intro c hc
  simpa using List.all_eq_true.1 hagree c hc

end Site
end ProcedureIndex
