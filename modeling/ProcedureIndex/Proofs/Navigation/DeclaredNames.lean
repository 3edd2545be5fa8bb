import ProcedureIndex.Navigation.Resolve
import ProcedureIndex.Proofs.Document.KeywordPlaces
import ProcedureIndex.Proofs.Text.Identifiers

/-!
Names that are looked up and names that are declared. Whether a name is declared where it
stands is judged by its line alone: by a keyword in front of it and blanks between the two.
So the look-up is refused on a declared name just where the declaration has its keyword on
the line of the name, and where it is not refused it is for the longest identifier there.
-/

namespace ProcedureIndex

open Text

def Text.declares (left : Text) : Bool :=
  (trimEnd left).length < left.length &&
    Keyword.declaring.contains (String.ofList (trailingIdent (trimEnd left)))

/-- The text ends in a keyword that introduces a name, as a whole identifier, and blanks. -/
def Text.EndsInKeyword (left : Text) : Prop :=
  ∃ keyword ∈ Keyword.declaring, ∃ front gap, left = front ++ (keyword.toList ++ gap) ∧
    front.getLast?.any isIdentContinue = false ∧ gap ≠ [] ∧ ∀ c ∈ gap, isBlank c = true

section Declares

variable {front keyword gap left last : Text}

theorem Keyword.isName_declaring : ∀ keyword ∈ declaring, IsName keyword.toList := by
  decide

theorem Text.declares_iff : declares left = true ↔ EndsInKeyword left := by
  rw [declares, Bool.and_eq_true, decide_eq_true_eq, List.contains_iff_mem]
  constructor
  · rintro ⟨hshorter, hkeyword⟩
    have hne := (Keyword.isName_declaring _ hkeyword).ne_nil
    rw [String.toList_ofList] at hne
    obtain ⟨-, front, hfront, hedge⟩ := (trailingIdent_eq_iff hne).1 rfl
    obtain ⟨gap, hgap, hblank⟩ := exists_blanks left
    refine ⟨_, hkeyword, front, gap, ?_, hedge, ?_, hblank⟩
    · rw [String.toList_ofList, ← List.append_assoc, ← hfront, ← hgap]
    · rintro rfl
      rw [List.append_nil] at hgap
      rw [← hgap] at hshorter
      omega
  · rintro ⟨keyword, hkeyword, front, gap, rfl, hfront, hne, hgap⟩
    have hname := Keyword.isName_declaring keyword hkeyword
    have htrim : trimEnd (front ++ (keyword.toList ++ gap)) = front ++ keyword.toList := by
      rw [← List.append_assoc, trimEnd_append_blanks hgap, hname.trimEnd_append]
    have hident : trailingIdent (front ++ keyword.toList) = keyword.toList :=
      (trailingIdent_eq_iff hname.ne_nil).2 ⟨hname.isIdent, front, rfl, hfront⟩
    rw [htrim, hident, String.ofList_toList]
    refine ⟨?_, hkeyword⟩
    have hpos := List.length_pos_of_ne_nil hne
    simp only [List.length_append]
    omega

theorem Text.declares_of_blank (h : ∀ c ∈ left, isBlank c = true) : declares left = false := by
  have htrim : trimEnd left = [] := trimEnd_append_blanks h []
  rw [declares, htrim, Bool.and_eq_false_iff]
  exact .inr (by decide)

/-- The last line of a text that ends in blanks with a newline among them is blank. -/
theorem Text.isBlank_of_mem_last {init : List Text} (hgap : ∀ c ∈ gap, isBlank c = true)
    (hnewline : '\n' ∈ gap) (hlines : lines (front ++ gap) = init ++ [last]) :
    ∀ c ∈ last, isBlank c = true := by
  obtain ⟨init', last', hlines', hsuffix, -⟩ := exists_lines_append (front ++ gap)
  rw [hlines] at hlines'
  rw [← List.singleton_inj.1 (List.append_inj' hlines' rfl).2] at hsuffix
  have hline : '\n' ∉ last := by
    apply newline_not_mem_of_mem_lines
    rw [hlines]
    exact List.mem_concat_self
  rcases List.suffix_or_suffix_of_suffix hsuffix (List.suffix_append front gap) with hpart | hpart
  · exact fun c hc => hgap c (hpart.subset hc)
  · exact absurd (hpart.subset hnewline) hline

/-- What stands at the end of a text without a newline is the end of its last line. -/
theorem Text.exists_last_append {part : Text} {init : List Text} (hpart : '\n' ∉ part)
    (hlines : lines (front ++ part) = init ++ [last]) :
    ∃ before, before <:+ front ∧ last = before ++ part := by
  obtain ⟨init', before, -, hsuffix, -, hmore⟩ := exists_lines_append front
  have hone := lines_of_not_mem hpart
  rw [lines_eq_firstLine_cons] at hone
  obtain ⟨hfirst, htail⟩ := List.cons.inj hone
  have hjoined := hmore part
  rw [hfirst, htail, hlines] at hjoined
  exact ⟨before, hsuffix, List.singleton_inj.1 (List.append_inj' hjoined rfl).2⟩

theorem SymbolKind.declaring_keyword (k : SymbolKind) :
    String.ofList k.keyword ∈ Keyword.declaring := by
  cases k <;> decide

theorem SymbolKind.isName_keyword (k : SymbolKind) : IsName k.keyword := by
  have hname := Keyword.isName_declaring _ k.declaring_keyword
  rwa [String.toList_ofList] at hname

/-- Where a text ends in a keyword and blanks, its last line declares the name behind it unless the
blanks leave the line of the keyword. -/
theorem Text.declares_last_iff {init : List Text} (k : SymbolKind)
    (hfront : front.getLast?.any isIdentContinue = false) (hne : gap ≠ [])
    (hgap : ∀ c ∈ gap, isBlank c = true)
    (hlines : lines (front ++ (k.keyword ++ gap)) = init ++ [last]) :
    declares last = true ↔ '\n' ∉ gap := by
  constructor
  · intro h hmem
    rw [← List.append_assoc] at hlines
    rw [declares_of_blank (isBlank_of_mem_last hgap hmem hlines)] at h
    cases h
  · intro hmem
    have hpart : '\n' ∉ k.keyword ++ gap := by
      rw [List.mem_append, not_or]
      exact ⟨fun hc => absurd (k.isName_keyword.all _ hc) (by decide), hmem⟩
    obtain ⟨before, ⟨more, hmore⟩, rfl⟩ := exists_last_append hpart hlines
    refine declares_iff.2 ⟨_, k.declaring_keyword, before, gap, ?_, ?_, hne, hgap⟩
    · rw [String.toList_ofList]
    · cases hl : before.getLast? with
      | none => rfl
      | some c => rwa [← hmore, List.getLast?_append, hl] at hfront

end Declares

namespace NameUse

/-- The use of a word between the two parts of its line. -/
def between (left word right : Text) : NameUse :=
  let usage := if (trimStart right).head? = some '(' then UseForm.call else UseForm.name
  let owner := if left.getLast? = some '.' then trailingIdent left.dropLast else []
  { name := String.ofList word
    usage := usage
    owner := if owner.isEmpty then none else some (String.ofList owner)
    version := if usage = .call then versionIn (right.takeWhile (· != ')')) else none }

variable {cs left word right : Text} {p : Position}

theorem at?_of_line
    (hline : (LineMap.ofText cs).lineText p.line = some (left ++ (word ++ right)))
    (hident : identAt (left ++ (word ++ right)) p.col = some (width left, word)) :
    at? cs p = if declares left then none else some (between left word right) := by
  have hbehind : dropBytes (width left + width word) (left ++ (word ++ right)) = right := by
    rw [← width_append, ← List.append_assoc, dropBytes_width_append]
  simp only [at?, hline, hident, bind, Option.bind, takeBytes_width_append, hbehind]
  rfl

/-- A look-up is for the identifier around its position, which is not declared there. -/
theorem exists_between {q : NameUse} (h : at? cs p = some q) :
    ∃ line left word right, (LineMap.ofText cs).lineText p.line = some line ∧
      IdentAround line p.col left word right ∧ declares left = false ∧
      q = between left word right := by
  have hquery := h
  simp only [at?, bind, Option.bind_eq_some_iff] at h
  obtain ⟨line, hline, ⟨start, word⟩, hident, -⟩ := h
  obtain ⟨left, right, haround, rfl⟩ := exists_identAround hident
  refine ⟨line, left, word, right, hline, haround, ?_⟩
  rw [haround.split] at hline hident
  rw [at?_of_line hline hident] at hquery
  split at hquery
  · cases hquery
  · next hdeclares => exact ⟨by simpa using hdeclares, (Option.some.inj hquery).symm⟩

/-- In an ASCII text the look-up is refused where there is no identifier and where the identifier is
being declared, and nowhere else. -/
theorem refused_iff_of_ascii (hcs : ∀ c ∈ cs, c.toNat < 0x80) :
    at? cs p = none ↔ ∀ line left word right, (LineMap.ofText cs).lineText p.line = some line →
      IdentAround line p.col left word right → EndsInKeyword left := by
  constructor
  · intro h line left word right hline haround
    have hident := haround.identAt_eq fun c hc =>
      hcs c (subset_of_lineText hline (by rw [haround.split]; simp [hc]))
    rw [haround.split] at hline hident
    rw [at?_of_line hline hident] at h
    split at h
    · next hdeclares => exact declares_iff.1 hdeclares
    · cases h
  · intro h
    cases hq : at? cs p with
    | none => rfl
    | some q =>
        obtain ⟨line, left, word, right, hline, haround, hfalse, -⟩ := exists_between hq
        rw [declares_iff.2 (h line left word right hline haround)] at hfalse
        cases hfalse

theorem owner_between_eq_some_iff {o : String} :
    (between left word right).owner = some o ↔
      ∃ front, left = front ++ (o.toList ++ ['.']) ∧ IsIdent o.toList ∧
        front.getLast?.any isIdentContinue = false := by
  rw [between]
  by_cases hdot : left.getLast? = some '.'
  · obtain ⟨before, rfl⟩ := List.getLast?_eq_some_iff.1 hdot
    simp only [hdot, if_true, List.dropLast_concat]
    constructor
    · intro h
      split at h
      · cases h
      · next hne =>
          cases h
          rw [String.toList_ofList]
          have hnonempty : trailingIdent before ≠ [] := by simpa using hne
          obtain ⟨hword, front, hbefore, hfront⟩ := (trailingIdent_eq_iff hnonempty).1 rfl
          refine ⟨front, ?_, hword, hfront⟩
          conv => lhs; rw [hbefore]
          rw [List.append_assoc]
    · rintro ⟨front, hsplit, hword, hfront⟩
      rw [← List.append_assoc, List.append_cancel_right_eq] at hsplit
      rw [(trailingIdent_eq_iff hword.ne_nil).2 ⟨hword, front, hsplit, hfront⟩,
        if_neg (by simpa using hword.ne_nil), String.ofList_toList]
  · simp only [hdot, if_false, List.isEmpty_nil, if_true]
    constructor
    · intro h
      cases h
    · rintro ⟨front, rfl, -, -⟩
      rw [← List.append_assoc, List.getLast?_concat] at hdot
      exact absurd rfl hdot

theorem usage_of_version (h : (between left word right).version ≠ none) :
    (between left word right).usage = .call := by
  simp only [between] at h ⊢
  split
  · rfl
  · next hparen => simp [hparen] at h

end NameUse

/-- The keyword of a declaration stands on the line of its name: between the two are blanks only, and
no newline. -/
def Symbol.KeywordOnLine (cs : Text) (s : Symbol) : Prop :=
  ∃ front gap, takeBytes s.start cs = front ++ (s.kind.keyword ++ gap) ∧
    (∀ c ∈ gap, isBlank c = true) ∧ '\n' ∉ gap

namespace Site

variable {cs : Text} {site : Site}

/-- What leads up to a declared name ends in the keyword of its kind and blanks. The keyword stands
on the line of the name unless a newline is among them. -/
theorem exists_keyword_split {lead name behind : Text} (hname : NameAt cs lead name behind)
    (hstart : width lead = site.start) (hintroduced : site.Introduced cs) (file : FileId) :
    ∃ front gap, lead = front ++ (site.form.kind.keyword ++ gap) ∧
      inWord front.getLast? = false ∧ gap ≠ [] ∧ (∀ c ∈ gap, isBlank c = true) ∧
      ((site.symbol file cs).KeywordOnLine cs ↔ '\n' ∉ gap) := by
  have hlead : takeBytes site.start cs = lead := by
    rw [hname.split, ← hstart, takeBytes_width_append]
  obtain ⟨front, gap, hsplit, hword, hgap⟩ := hintroduced
  rw [hlead] at hsplit
  rw [Option.or_none] at hword
  have hkeyword := site.form.kind.isName_keyword
  refine ⟨front, gap, hsplit, hword, ?_, hgap, ?_⟩
  · rintro rfl
    have hlast := hname.gap
    rw [hsplit, List.append_nil, List.getLast?_append_of_ne_nil _ hkeyword.ne_nil,
      List.getLast?_eq_some_getLast hkeyword.ne_nil] at hlast
    have hletter := hkeyword.all _ (List.getLast_mem hkeyword.ne_nil)
    rw [isNameContinue_of_isBlank hlast] at hletter
    cases hletter
  · constructor
    · rintro ⟨front', gap', hsplit', hgap', hnewline⟩
      have hsame : front ++ (site.form.kind.keyword ++ gap) =
          front' ++ (site.form.kind.keyword ++ gap') := by
        rw [← hsplit, ← hlead]
        exact hsplit'
      rwa [(hkeyword.append_blanks_inj hkeyword hgap hgap' hsame).2]
    · intro hnewline
      exact ⟨front, gap, hlead.trans hsplit, hgap, hnewline⟩

theorem at?_eq_none_iff (hcs : ∀ c ∈ cs, c.toNat < 0x80) (h : site ∈ all cs) (file : FileId)
    {col : Nat} (hbegun : (site.symbol file cs).position.col ≤ col)
    (hpassed : col ≤ (site.symbol file cs).position.col + width site.name) :
    NameUse.at? cs ⟨(site.symbol file cs).position.line, col⟩ = none ↔
      (site.symbol file cs).KeywordOnLine cs := by
  obtain ⟨lead, behind, hname, hstart⟩ := named_of_mem_all h
  obtain ⟨front, gap, hlead, hword, hne, hgap, hiff⟩ :=
    exists_keyword_split hname hstart (introduced_of_mem_all h) file
  have hfront : front.getLast?.any isIdentContinue = false := by
    rw [← any_isWordChar_eq]
    · exact hword
    · intro c hc
      exact hcs c (by rw [hname.split, hlead]; simp [List.mem_of_getLast? hc])
  obtain ⟨init, last, right, hlines, hpos, hline, hident⟩ := hname.exists_line_of_ascii hcs
  have hposition : (site.symbol file cs).position = ⟨init.length, width last⟩ := by
    rw [← hpos, hstart]
    rfl
  rw [hposition] at hbegun hpassed ⊢
  rw [hlead] at hlines
  have hdeclares := declares_last_iff site.form.kind hfront hne hgap hlines
  rw [NameUse.at?_of_line hline (hident col hbegun hpassed), hiff, ← hdeclares]
  cases declares last <;> simp

end Site

/-- In an ASCII text the look-up is refused at every column in a declared name and at its end, if and
only if the keyword of the declaration stands on the line of the name. Elsewhere it is refused only
where there is no identifier and behind a keyword of the line that introduces a name. A look-up that
is not refused is for the identifier around its position, its owner is the identifier in front of a
point that touches the identifier, and only a call has a version. -/
theorem NameUse.refused_on_declared_names (file : FileId) {cs : Text}
    (hcs : ∀ c ∈ cs, c.toNat < 0x80) :
    (∀ s ∈ (parse file cs).all, ∀ col, s.position.col ≤ col →
        col ≤ s.position.col + width s.name.toList →
        (at? cs ⟨s.position.line, col⟩ = none ↔ s.KeywordOnLine cs)) ∧
      (∀ p, at? cs p = none ↔ ∀ line left word right,
        (LineMap.ofText cs).lineText p.line = some line →
        IdentAround line p.col left word right → EndsInKeyword left) ∧
      ∀ p q, at? cs p = some q →
        ∃ line left word right, (LineMap.ofText cs).lineText p.line = some line ∧
          IdentAround line p.col left word right ∧ q.name = String.ofList word ∧
          (∀ o, q.owner = some o ↔ ∃ front, left = front ++ (o.toList ++ ['.']) ∧
            IsIdent o.toList ∧ front.getLast?.any isIdentContinue = false) ∧
          (q.version ≠ none → q.usage = .call) := by
  refine ⟨?_, fun p => refused_iff_of_ascii hcs, ?_⟩
  · intro s hs col hbegun hpassed
    obtain ⟨site, hsite, rfl⟩ := Site.exists_site_of_mem_parse hs
    have hname : (site.symbol file cs).name.toList = site.name := String.toList_ofList
    rw [hname] at hpassed
    exact Site.at?_eq_none_iff hcs hsite file hbegun hpassed
  · intro p q hq
    obtain ⟨line, left, word, right, hline, haround, -, rfl⟩ := exists_between hq
    exact ⟨line, left, word, right, hline, haround, rfl, fun _ => owner_between_eq_some_iff,
      usage_of_version⟩

def deck : Text := "class Deck\x7b\nstatic fn  draw()\x7b\x7d\x7d\nfn\nnext()\nDeck.draw()".toList

theorem NameUse.refused_on_declared_names_deck :
    (∀ col, 11 ≤ col → col ≤ 15 → at? deck ⟨1, col⟩ = none) ∧
      (∃ next ∈ (parse ⟨0⟩ deck).all, next.position = ⟨3, 0⟩ ∧ ¬ next.KeywordOnLine deck) ∧
      ∃ q left right, at? deck ⟨4, 7⟩ = some q ∧ q.owner = some "Deck" ∧
        IdentAround "Deck.draw()".toList 7 left "draw".toList right := by
  have hascii : ∀ c ∈ deck, c.toNat < 0x80 := by
    have hall : deck.all (fun c => decide (c.toNat < 0x80)) = true := by decide +kernel
    exact fun c hc => of_decide_eq_true (List.all_eq_true.1 hall c hc)
  let draw : Symbol := ⟨"draw", .method "Deck" none true, ⟨0⟩, 23, ⟨1, 11⟩, [], none⟩
  let next : Symbol := ⟨"next", .function none, ⟨0⟩, 36, ⟨3, 0⟩, [], none⟩
  have hmem : draw ∈ (parse ⟨0⟩ deck).all ∧ next ∈ (parse ⟨0⟩ deck).all := by decide +kernel
  obtain ⟨hdeclared, -, hlooked⟩ := refused_on_declared_names ⟨0⟩ hascii
  refine ⟨?_, ⟨next, hmem.2, rfl, ?_⟩, ?_⟩
  · intro col hbegun hpassed
    have hend : draw.position.col + width draw.name.toList = 15 := by decide
    refine (hdeclared draw hmem.1 col hbegun (by rwa [hend])).2 ?_
    refine ⟨"class Deck\x7b\nstatic ".toList, "  ".toList, by decide +kernel, ?_, by decide +kernel⟩
    exact List.all_eq_true.1 (by decide +kernel)
  · rw [← hdeclared next hmem.2 0 (Nat.le_refl _) (Nat.zero_le _)]
    decide +kernel
  · have hq : at? deck ⟨4, 7⟩ = some ⟨"draw", .call, some "Deck", none⟩ := by decide +kernel
    obtain ⟨line, left, word, right, hline, haround, hname, -⟩ := hlooked _ _ hq
    have hown : (LineMap.ofText deck).lineText 4 = some "Deck.draw()".toList := by decide +kernel
    have hword : word = "draw".toList :=
      String.toList_ofList.symm.trans (congrArg String.toList hname.symm)
    rw [Option.some.inj (hline.symm.trans hown), hword] at haround
    exact ⟨_, left, right, hq, rfl, haround⟩

end ProcedureIndex
