import Mathlib.Data.List.DropRight
import ProcedureIndex.Document.Annotations
import ProcedureIndex.Proofs.Text.Keywords

/-!
Which texts are recognised as headers. Every family has its keywords, and a keyword,
one blank and a name are always enough, whatever stands behind the name as long as it
does not go on with it.
-/

namespace ProcedureIndex

open Text

namespace Text

theorem name?_append {name rest : Text} (hname : IsName name)
    (hrest : rest.head?.any isNameContinue = false) : name? (name ++ rest) = some (name, rest) := by
  cases name with
  | nil => exact absurd hname.start (by simp)
  | cons c cs =>
      have hstart : isNameStart c = true := hname.start
      have hall : ∀ d ∈ cs, isNameContinue d = true := fun d hd => hname.all d (by simp [hd])
      have hstop : rest.takeWhile isNameContinue = [] ∧ rest.dropWhile isNameContinue = rest := by
        cases rest with
        | nil => exact ⟨rfl, rfl⟩
        | cons d ds =>
            have hd : isNameContinue d = false := hrest
            simp [hd]
      rw [List.cons_append, name?, if_pos hstart, List.takeWhile_append_of_pos hall,
        List.dropWhile_append_of_pos hall, hstop.1, hstop.2, List.append_nil]

theorem IsName.isBlank_head {name : Text} (hname : IsName name) (rest : Text) :
    (name ++ rest).head?.any isBlank = false := by
  cases name with
  | nil => exact absurd hname.start (by simp)
  | cons c cs =>
      have hc := hname.all c (by simp)
      change isBlank c = false
      rw [Bool.eq_false_iff]
      intro hb
      rw [isNameContinue_of_isBlank hb] at hc
      exact absurd hc (by decide)

/-- One character of the class is taken if the next is not of the class. -/
theorem some?_cons {p : Char → Bool} {c : Char} {cs : Text} (hc : p c = true)
    (hcs : cs.head?.any p = false) : some? p (c :: cs) = some ([c], cs) := by
  cases cs with
  | nil => simp [some?, hc]
  | cons d ds =>
      have hd : p d = false := hcs
      simp [some?, hc, hd]

theorem after?_append (k cs : Text) : after? k (k ++ cs) = some cs :=
  after?_eq_some_iff.2 rfl

theorem named?_append (keyword : Text) {name : Text} (hname : IsName name) (rest : Text)
    (hrest : rest.head?.any isNameContinue = false) :
    named? keyword (keyword ++ ' ' :: (name ++ rest)) = some ((keyword ++ [' '], name), rest) := by
  have hgap : blanks? (' ' :: (name ++ rest)) = some ([' '], name ++ rest) :=
    some?_cons (by decide) (hname.isBlank_head rest)
  simp [named?, after?_append, hgap, name?_append hname hrest]

theorem edge_of_blanks? {cs : Text} {r : Text × Text} (h : blanks? cs = some r) : Edge cs := by
  rw [blanks?, some?] at h
  split at h
  · next hb =>
      cases cs with
      | nil => exact edge_nil
      | cons c cs => exact edge_cons (isWordChar_of_isBlank hb)
  · cases h

theorem key_of_named? {keyword cs : Text} {r : (Text × Text) × Text}
    (hkey : keyword.all isWordChar = true) (h : named? keyword cs = some r) :
    cs.takeWhile isWordChar = keyword := by
  simp only [named?, bind, Option.bind_eq_some_iff] at h
  obtain ⟨rest, hk, g, hb, -⟩ := h
  rw [after?_eq_some_iff.1 hk]
  exact (edge_of_blanks? hb).takeWhile_append (List.all_eq_true.1 hkey)

end Text

namespace ClassHeader

theorem keyword_eq : keyword = ['c', 'l', 'a', 's', 's'] := rfl

theorem keyed : Keyed [keyword] pattern := by
  refine Keyed.of_guard (fun _ _ => rfl) ?_ (by decide)
  intro cs r h
  simp only [bind, Option.bind_eq_some_iff] at h
  obtain ⟨named, hnamed, -⟩ := h
  rw [key_of_named? (by decide) hnamed]
  exact List.mem_singleton_self _

theorem pattern_plain {name : Text} (hname : IsName name) (rest : Text) :
    pattern none (keyword ++ ' ' :: (name ++ (' ' :: '{' :: rest))) =
      some (⟨keyword ++ [' '], name, none⟩, ' ' :: '{' :: rest) := by
  have hparent : parent? (' ' :: '{' :: rest) = none := by
    have hgap : blanks? (' ' :: '{' :: rest) = some ([' '], '{' :: rest) :=
      some?_cons (by decide) (by rfl)
    simp [parent?, hgap, named?, after?]
  have hnamed := named?_append keyword hname (' ' :: '{' :: rest) (by rfl)
  simp [pattern, inWord, hnamed, hparent]

theorem pattern_extends {name parent : Text} (hname : IsName name) (hparent : IsName parent)
    (rest : Text) (hrest : rest.head?.any isNameContinue = false) :
    pattern none
        (keyword ++ ' ' :: (name ++ (' ' :: ("extends".toList ++ ' ' :: (parent ++ rest))))) =
      some (⟨keyword ++ [' '], name, some parent⟩, rest) := by
  have hext : parent? (' ' :: ("extends".toList ++ ' ' :: (parent ++ rest))) =
      some (parent, rest) := by
    have hgap : blanks? (' ' :: ("extends".toList ++ ' ' :: (parent ++ rest))) =
        some ([' '], "extends".toList ++ ' ' :: (parent ++ rest)) :=
      some?_cons (by decide) (by rfl)
    simp only [parent?, hgap, Option.bind_eq_bind, Option.bind_some,
      named?_append _ hparent rest hrest]
    rfl
  have hnamed := named?_append keyword hname
    (' ' :: ("extends".toList ++ ' ' :: (parent ++ rest))) (by rfl)
  simp only [pattern, inWord, Option.any_none, Bool.false_eq_true, if_false, hnamed,
    Option.bind_eq_bind, Option.bind_some, hext]
  rfl

end ClassHeader

namespace PipelineHeader

theorem keyword_eq : keyword = ['p', 'i', 'p', 'e', 'l', 'i', 'n', 'e'] := rfl

theorem keyed : Keyed [keyword] pattern := by
  refine Keyed.of_guard (fun _ _ => rfl) ?_ (by decide)
  intro cs r h
  obtain ⟨named, hnamed, -⟩ := Option.map_eq_some_iff.1 h
  rw [key_of_named? (by decide) hnamed]
  exact List.mem_singleton_self _

theorem pattern_append {name rest : Text} (hname : IsName name)
    (hrest : rest.head?.any isNameContinue = false) :
    pattern none (keyword ++ ' ' :: (name ++ rest)) = some (⟨keyword ++ [' '], name⟩, rest) := by
  simp [pattern, inWord, named?_append keyword hname rest hrest]

end PipelineHeader

namespace FnHeader

theorem keyword_eq : keyword = ['f', 'n'] := rfl

theorem staticKeyword_eq : staticKeyword = ['s', 't', 'a', 't', 'i', 'c'] := rfl

theorem key_of_plain? {cs : Text} {r : FnHeader × Text} (h : plain? cs = some r) :
    cs.takeWhile isWordChar = keyword := by
  simp only [plain?, bind, Option.bind_eq_some_iff] at h
  obtain ⟨named, hnamed, -⟩ := h
  exact key_of_named? (by decide) hnamed

theorem key_of_static? {cs : Text} {r : Text × Text} (h : static? cs = some r) :
    cs.takeWhile isWordChar = staticKeyword := by
  simp only [static?, bind, Option.bind_eq_some_iff] at h
  obtain ⟨rest, hk, g, hb, -⟩ := h
  rw [after?_eq_some_iff.1 hk]
  have hkey : staticKeyword.all isWordChar = true := by decide
  exact (edge_of_blanks? hb).takeWhile_append (List.all_eq_true.1 hkey)

theorem keyed : Keyed [keyword, staticKeyword] pattern := by
  refine Keyed.of_guard (fun _ _ => rfl) ?_ (by decide)
  intro cs r h
  split at h
  · next hs => simp [key_of_static? hs]
  · simp [key_of_plain? h]

theorem plain?_append {name params : Text} (hname : IsName name) (hparams : ')' ∉ params)
    (rest : Text) :
    plain? (keyword ++ ' ' :: (name ++ '(' :: (params ++ ')' :: rest))) =
      some (⟨false, keyword ++ [' '], name, params⟩, ')' :: rest) := by
  have hnamed := named?_append keyword hname ('(' :: (params ++ ')' :: rest)) (by rfl)
  have hall : ∀ c ∈ params, (c != ')') = true := by
    intro c hc
    rw [bne_iff_ne]
    rintro rfl
    exact hparams hc
  simp [plain?, hnamed, show isBlank '(' = false by decide, after?,
    List.takeWhile_append_of_pos hall, List.dropWhile_append_of_pos hall]

theorem pattern_plain {name params : Text} (hname : IsName name) (hparams : ')' ∉ params)
    (rest : Text) :
    pattern none (keyword ++ ' ' :: (name ++ '(' :: (params ++ ')' :: rest))) =
      some (⟨false, keyword ++ [' '], name, params⟩, ')' :: rest) := by
  have hstatic : static? (keyword ++ ' ' :: (name ++ '(' :: (params ++ ')' :: rest))) = none := by
    rfl
  simp [pattern, inWord, hstatic, plain?_append hname hparams]

theorem pattern_static {name params : Text} (hname : IsName name) (hparams : ')' ∉ params)
    (rest : Text) :
    pattern none
        (staticKeyword ++ ' ' :: (keyword ++ ' ' :: (name ++ '(' :: (params ++ ')' :: rest)))) =
      some (⟨true, staticKeyword ++ [' '] ++ (keyword ++ [' ']), name, params⟩, ')' :: rest) := by
  have hgap : blanks? (' ' :: (keyword ++ ' ' :: (name ++ '(' :: (params ++ ')' :: rest)))) =
      some ([' '], keyword ++ ' ' :: (name ++ '(' :: (params ++ ')' :: rest))) :=
    some?_cons (by decide) (by rfl)
  have hstatic : static? (staticKeyword ++
        ' ' :: (keyword ++ ' ' :: (name ++ '(' :: (params ++ ')' :: rest)))) =
      some (staticKeyword ++ [' '],
        keyword ++ ' ' :: (name ++ '(' :: (params ++ ')' :: rest))) := by
    simp only [static?, after?_append, Option.bind_eq_bind, Option.bind_some, hgap]
    rfl
  simp [pattern, inWord, hstatic, plain?_append hname hparams]

end FnHeader

namespace LineHeader

theorem named?_append {keyword name : Text} (hkey : keyword.head?.any isSpacing = false)
    (hne : keyword ≠ []) (hname : IsName name) (rest : Text)
    (hrest : rest.head?.any isNameContinue = false) :
    named? keyword (keyword ++ ' ' :: (name ++ rest)) = some ((keyword ++ [' '], name), rest) := by
  cases keyword with
  | nil => exact absurd rfl hne
  | cons k ks =>
      have hk : isSpacing k = false := hkey
      have hhead : (name ++ rest).head?.any isSpacing = false := by
        have hblank := hname.isBlank_head rest
        cases hc : (name ++ rest).head? with
        | none => rfl
        | some c =>
            rw [hc] at hblank
            change isSpacing c = false
            rw [Bool.eq_false_iff]
            intro hs
            rw [Option.any_some, isBlank_of_isSpacing hs] at hblank
            exact absurd hblank (by decide)
      have hgap : some? isSpacing (' ' :: (name ++ rest)) = some ([' '], name ++ rest) :=
        some?_cons (by decide) hhead
      have hafter := after?_append (k :: ks) (' ' :: (name ++ rest))
      rw [List.cons_append] at hafter
      simp [named?, hk, hafter, hgap, name?_append hname hrest]

theorem assigned?_append {keyword name : Text} (hkey : keyword.head?.any isSpacing = false)
    (hne : keyword ≠ []) (hname : IsName name) (value : Text) :
    assigned? keyword (keyword ++ ' ' :: (name ++ ' ' :: '=' :: value)) =
      some ⟨keyword ++ [' '], name, value⟩ := by
  have hnamed := named?_append hkey hne hname (' ' :: '=' :: value) (by rfl)
  simp [assigned?, hnamed, show isSpacing ' ' = true by decide,
    show isSpacing '=' = false by decide, after?]

theorem spaced?_append {keyword name : Text} (hkey : keyword.head?.any isSpacing = false)
    (hne : keyword ≠ []) (hname : IsName name) (value : Text) :
    spaced? keyword (keyword ++ ' ' :: (name ++ ' ' :: value)) =
      some ⟨keyword ++ [' '], name, value⟩ := by
  have hnamed := named?_append hkey hne hname (' ' :: value) (by rfl)
  simp [spaced?, hnamed, show isSpacing ' ' = true by decide]

end LineHeader

theorem versionIn_append {value : Text} (hvalue : '"' ∉ value) (rest : Text) :
    versionIn ("version: \"".toList ++ (value ++ '"' :: rest)) = some (String.ofList value) := by
  have hall : ∀ c ∈ value, (c != '"') = true := by
    intro c hc
    rw [bne_iff_ne]
    rintro rfl
    exact hvalue hc
  have hp : versionPattern none ("version: \"".toList ++ (value ++ '"' :: rest)) =
      some (value, rest) := by
    simp [versionPattern, inWord, after?, show isBlank ':' = false by decide,
      show isBlank ' ' = true by decide, show isBlank '"' = false by decide,
      List.takeWhile_append_of_pos hall, List.dropWhile_append_of_pos hall]
  rw [versionIn, firstHit?_of_some hp]
  rfl

/-- A version is written between two quotes. -/
theorem versionIn_eq_none {cs : Text} (h : cs.count '"' ≤ 1) : versionIn cs = none := by
  rw [versionIn, Option.map_eq_none_iff, Option.eq_none_iff_forall_ne_some]
  intro hit hfirst
  obtain ⟨pre, suf, rfl, -, hp⟩ := mem_hits (List.mem_of_head? hfirst)
  rw [versionPattern] at hp
  split at hp
  · cases hp
  · simp only [bind, Option.bind_eq_some_iff] at hp
    obtain ⟨a, ha, b, hb, c, hc, d, hd, -⟩ := hp
    have hcount : ∀ {p : Char → Bool} {cs k rest : Text}, after? k (cs.dropWhile p) = some rest →
        (k ++ rest).count '"' ≤ cs.count '"' := fun hafter =>
      after?_eq_some_iff.1 hafter ▸ (List.dropWhile_sublist _).count_le _
    have hsuf := after?_eq_some_iff.1 ha
    have hcolon := hcount hb
    have hopen := hcount hc
    have hclose := hcount hd
    rw [List.singleton_append, List.count_cons_of_ne (by decide)] at hcolon
    rw [List.singleton_append, List.count_cons_self] at hopen hclose
    rw [hsuf, List.count_append, List.count_append] at h
    omega

namespace Text

theorem trimEnd_of_getLast? {cs : Text} (h : cs.getLast?.any isBlank = false) :
    trimEnd cs = cs := by
  change cs.rdropWhile isBlank = cs
  rw [List.rdropWhile_eq_self_iff]
  intro hne
  rw [List.getLast?_eq_some_getLast hne] at h
  simpa using h

theorem trimEnd_cons {c : Char} (hc : isBlank c = false) (cs : Text) :
    trimEnd (c :: cs) = c :: trimEnd cs := by
  rw [trimEnd, trimEnd, List.reverse_cons, List.dropWhile_append]
  split
  · next he =>
      rw [List.isEmpty_iff.1 he]
      simp [hc]
  · simp

namespace IsName

variable {name : Text}

theorem getLast?_any (h : IsName name) {p : Char → Bool}
    (hp : ∀ c, isNameContinue c = true → p c = false) (pre : Text) :
    (pre ++ name).getLast?.any p = false := by
  have hs := h.start
  rw [List.getLast?_append]
  cases hl : name.getLast? with
  | none => simp [List.getLast?_eq_none_iff.1 hl] at hs
  | some c => exact hp c (h.all c (List.mem_of_getLast? hl))

theorem isBlank_eq_false {c : Char} (h : isNameContinue c = true) : isBlank c = false := by
  rw [Bool.eq_false_iff]
  intro hb
  rw [isNameContinue_of_isBlank hb] at h
  exact absurd h (by decide)

theorem trimEnd_append (h : IsName name) (pre : Text) : trimEnd (pre ++ name) = pre ++ name :=
  trimEnd_of_getLast? (h.getLast?_any (fun _ => isBlank_eq_false) pre)

/-- Two names that end where the blanks at the end of a text start. -/
theorem append_blanks_inj (h : IsName name) {other : Text} (hother : IsName other)
    {pre pre' gap gap' : Text} (hgap : ∀ c ∈ gap, isBlank c = true)
    (hgap' : ∀ c ∈ gap', isBlank c = true) (heq : pre ++ (name ++ gap) = pre' ++ (other ++ gap')) :
    pre ++ name = pre' ++ other ∧ gap = gap' := by
  rw [← List.append_assoc, ← List.append_assoc] at heq
  have htrim := congrArg trimEnd heq
  rw [trimEnd_append_blanks hgap, trimEnd_append_blanks hgap', h.trimEnd_append,
    hother.trimEnd_append] at htrim
  rw [htrim] at heq
  exact ⟨htrim, List.append_cancel_left heq⟩

theorem trimStart_eq (h : IsName name) : trimStart name = name := by
  have hb := h.isBlank_head []
  cases name with
  | nil => rfl
  | cons c cs => exact List.dropWhile_cons_of_neg (by simpa using hb)

theorem trim_eq (h : IsName name) : trim name = name := by
  rw [trim, h.trimStart_eq]
  exact h.trimEnd_append []

theorem trim_space (h : IsName name) : trim (' ' :: name) = name := by
  rw [trim, trimStart, List.dropWhile_cons_of_pos (by decide)]
  exact h.trim_eq

theorem literal_of_trim (h : IsName name) {value : Text} (hv : trim value = name) :
    LineHeader.literal value = name := by
  have hsemi : trimEndOf ';' name = name := by
    change name.rdropWhile (· == ';') = name
    rw [List.rdropWhile_eq_self_iff]
    intro hne hlast
    have hc := h.all _ (List.getLast_mem hne)
    rw [beq_iff_eq.1 hlast] at hc
    exact absurd hc (by decide)
  rw [LineHeader.literal, hv, hsemi]
  exact h.trimEnd_append []

end IsName
end Text

namespace Annotations

theorem label?_append {value : Text} (hvalue : '"' ∉ value) :
    label? ("@label(\"".toList ++ (value ++ ['"', ')'])) = some value := by
  have hall : ∀ c ∈ value, (c != '"') = true := by
    intro c hc
    rw [bne_iff_ne]
    rintro rfl
    exact hvalue hc
  simp [label?, after?, show isBlank ')' = false by decide, show isBlank '"' = false by decide,
    List.takeWhile_append_of_pos hall, List.dropWhile_append_of_pos hall]

theorem ofLine_label {value : Text} (hvalue : '"' ∉ value) :
    LineNote.ofLine ("@label(\"".toList ++ (value ++ ['"', ')'])) = .label value := by
  have htrim : trim ("@label(\"".toList ++ (value ++ ['"', ')'])) =
      "@label(\"".toList ++ (value ++ ['"', ')']) := by
    rw [trim, show trimStart ("@label(\"".toList ++ (value ++ ['"', ')'])) =
      "@label(\"".toList ++ (value ++ ['"', ')']) from rfl]
    apply trimEnd_of_getLast?
    rw [← List.append_assoc, List.getLast?_append]
    rfl
  simp only [LineNote.ofLine, htrim, label?_append hvalue]
  rfl

theorem ofLine_doc {name : Text} (hname : IsName name) :
    LineNote.ofLine ("/// ".toList ++ name) = .doc name := by
  have htrim : trim ("/// ".toList ++ name) = "/// ".toList ++ name := by
    rw [trim, show trimStart ("/// ".toList ++ name) = "/// ".toList ++ name from rfl]
    exact hname.trimEnd_append _
  have hlabel : label? ("/// ".toList ++ name) = none := rfl
  have hdoc : after? "///".toList ("/// ".toList ++ name) = some (' ' :: name) := rfl
  simp only [LineNote.ofLine, htrim, hlabel, hdoc, hname.trim_space]
  rfl

/-- A line whose first character is of no annotation is something else. -/
theorem ofLine_other {line cs : Text} {c : Char} (hline : trimStart line = c :: cs)
    (hc : isBlank c = false) (hlabel : c ≠ '@') (hdoc : c ≠ '/') :
    LineNote.ofLine line = .other := by
  have htrim : trim line = c :: trimEnd cs := by rw [trim, hline, trimEnd_cons hc]
  simp [LineNote.ofLine, htrim, label?, after?, Ne.symm hlabel, Ne.symm hdoc]

end Annotations

end ProcedureIndex
