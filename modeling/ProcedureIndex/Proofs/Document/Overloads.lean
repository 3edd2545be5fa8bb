import ProcedureIndex.Proofs.Document.ClassReach

/-!
Functions of one name that differ in their versions, one to a line. The version is written
between double quotes, but a header ends its parameters at the first closing parenthesis,
in a string or not, and the search for classes looks into strings as well.
-/

namespace ProcedureIndex

open Text

namespace Text

/-- What can be written between double quotes on one line. -/
structure Quotable (v : Text) : Prop where
  noQuote : '"' ∉ v
  noNewline : '\n' ∉ v

instance (v : Text) : Decidable (Quotable v) :=
  decidable_of_iff ('"' ∉ v ∧ '\n' ∉ v) ⟨fun h => ⟨h.1, h.2⟩, fun h => ⟨h.noQuote, h.noNewline⟩⟩

namespace Quotable

variable {v : Text}

theorem of_cons {c : Char} (h : Quotable (c :: v)) : Quotable v where
  noQuote hc := h.noQuote (List.mem_cons_of_mem c hc)
  noNewline hc := h.noNewline (List.mem_cons_of_mem c hc)

/-- Nothing in a string that can be quoted leads out of the string, or closes a body. -/
theorem untilClosed_append (hv : Quotable v) {q : Quoting}
    (hq : q = .within '"' ∨ q = .hidden '"') (depth : Nat) (b : Text) :
    (q.after v = .within '"' ∨ q.after v = .hidden '"') ∧
      untilClosed q depth (v ++ b) = v ++ untilClosed (q.after v) depth b := by
  induction v generalizing q with
  | nil => exact ⟨hq, rfl⟩
  | cons c v ih =>
      have hcode : q.isCode c = false := by
        rcases hq with rfl | rfl
        · rfl
        · rfl
      have hnext : q.next c = .within '"' ∨ q.next c = .hidden '"' := by
        have hquote : c ≠ '"' := fun hc => hv.noQuote (hc ▸ List.mem_cons_self)
        have hnewline : c ≠ '\n' := fun hc => hv.noNewline (hc ▸ List.mem_cons_self)
        rcases hq with rfl | rfl
        · by_cases hslash : c = '\\'
          · simp [Quoting.next, hslash]
          · simp [Quoting.next, hslash, hquote, hnewline]
        · exact .inl rfl
      obtain ⟨hafter, hgo⟩ := ih hv.of_cons hnext
      refine ⟨hafter, ?_⟩
      rw [List.cons_append, untilClosed, hcode]
      simp only [Bool.false_and, Bool.false_eq_true, if_false, hgo]
      rfl

end Quotable

end Text

def overloadLead (n : Text) : Text :=
  "fn ".toList ++ (n ++ "(version: \"".toList)

def overloadBack : Text :=
  "\") \x7b\x7d\n".toList

def overload (n v : Text) : Text :=
  (overloadLead n ++ v) ++ overloadBack

def overloads (n : Text) (vs : List Text) : Text :=
  vs.flatMap (overload n)

section Overloads

variable {n v : Text} {vs us ws : List Text}

theorem overloadLead_eq (n : Text) :
    overloadLead n = "fn ".toList ++ (n ++ "(version: \"".toList) := rfl

theorem overloadBack_eq : overloadBack = "\") \x7b\x7d\n".toList := rfl

theorem overload_append_ne_nil (n v b : Text) : overload n v ++ b ≠ [] := by
  simp [overload, overloadBack_eq]

@[simp] theorem overloads_nil (n : Text) : overloads n [] = [] := rfl

@[simp] theorem overloads_cons (n v : Text) (vs : List Text) :
    overloads n (v :: vs) = overload n v ++ overloads n vs := rfl

@[simp] theorem overloads_append (n : Text) (us vs : List Text) :
    overloads n (us ++ vs) = overloads n us ++ overloads n vs :=
  List.flatMap_append

theorem isHeaderChar_of_name (hn : IsName n) : ∀ c ∈ "fn ".toList ++ n, isHeaderChar c = true := by
  intro c hc
  rcases List.mem_append.1 hc with hc | hc
  · exact List.all_eq_true.1 (show "fn ".toList.all isHeaderChar = true by decide) c hc
  · simp [isHeaderChar, hn.all c hc]

theorem after_overloadLead (hn : IsName n) :
    Quoting.code.after (overloadLead n) = .within '"' := by
  rw [overloadLead_eq, ← List.append_assoc, Quoting.after_append,
    after_header (isHeaderChar_of_name hn)]
  rfl

theorem not_mem_overloadLead (hn : IsName n) {c : Char} (hc : isNameContinue c = false)
    (hmark : c ∉ "fn (version: \"".toList) : c ∉ overloadLead n := by
  have hname : c ∉ n := by
    intro hmem
    rw [hn.all c hmem] at hc
    cases hc
  simpa [overloadLead_eq, hname] using hmark

/-- Whatever stands before it, the end of a line ends every string. -/
theorem after_overloadBack (q : Quoting) (a : Text) :
    q.after (a ++ overloadBack) = .code := by
  have hback : a ++ overloadBack = (a ++ "\") \x7b".toList) ++ ['}', '\n'] := by
    simp [overloadBack_eq]
  rw [hback, Quoting.after_append]
  exact Quoting.next_next_newline _ (by decide)

theorem untilClosed_overload (hn : IsName n) (hv : Quotable v) {depth : Nat} (hdepth : 1 ≤ depth)
    (b : Text) :
    untilClosed .code depth (overload n v ++ b) = overload n v ++ untilClosed .code depth b := by
  have hopen : '{' ∉ overloadLead n := not_mem_overloadLead hn (by decide) (by decide)
  have hclose : '}' ∉ overloadLead n := not_mem_overloadLead hn (by decide) (by decide)
  obtain ⟨hafter, hgo⟩ := hv.untilClosed_append (.inl rfl) depth (overloadBack ++ b)
  rw [overload, List.append_assoc, List.append_assoc, Text.untilClosed_append hopen hclose,
    after_overloadLead hn, hgo, List.append_assoc, List.append_assoc]
  -- The quote closes the string, unless a backslash stands before it; then the line end does.
  obtain ⟨depth, rfl⟩ := Nat.exists_eq_add_of_le' hdepth
  rcases hafter with hafter | hafter
  · rw [hafter]
    rfl
  · rw [hafter]
    rfl

theorem untilClosed_overloads (hn : IsName n) (hvs : ∀ v ∈ vs, Quotable v) {depth : Nat}
    (hdepth : 1 ≤ depth) : untilClosed .code depth (overloads n vs) = overloads n vs := by
  induction vs with
  | nil => rfl
  | cons v vs ih =>
      rw [overloads_cons, untilClosed_overload hn (hvs v List.mem_cons_self) hdepth,
        ih fun u hu => hvs u (List.mem_cons_of_mem v hu)]

namespace Site

theorem closing_overloadBack : Closing overloadBack where
  nonempty := by decide
  stop := stop_cons (by decide) _
  marks := by simpa using show overloadBack.all (fun c => !isWordChar c) = true by decide +kernel

theorem whole_overload (n v : Text) : Whole (overload n v) :=
  closing_overloadBack.whole (after_overloadBack .code _)

theorem whole_overloads (n : Text) (vs : List Text) : Whole (overloads n vs) := by
  induction vs with
  | nil => exact whole_nil
  | cons v vs ih => exact (whole_overload n v).append ih

end Site

namespace FnHeader

/-- The header of a line, if its version has no closing parenthesis. -/
def ofOverload (n v : Text) : FnHeader :=
  ⟨false, keyword ++ [' '], n, "version: \"".toList ++ (v ++ ['"'])⟩

theorem pattern_overload (hn : IsName n) (hv : ')' ∉ v) (b : Text) :
    pattern none (overload n v ++ b) =
      some (ofOverload n v, ") \x7b\x7d\n".toList ++ b) := by
  have hparams : ')' ∉ "version: \"".toList ++ (v ++ ['"']) := by simp [hv]
  have hplain := pattern_plain hn hparams (" \x7b\x7d\n".toList ++ b)
  simpa [overload, overloadLead_eq, overloadBack_eq, ofOverload, keyword_eq] using hplain

/-- The search of the document finds the header at the start of each line. -/
theorem hitsFrom_overload (hn : IsName n) (hv : ')' ∉ v) (offset : Nat) (b : Text) :
    hitsFrom pattern none offset 0 (overload n v ++ b) =
      ⟨offset, ofOverload n v, ") \x7b\x7d\n".toList ++ b⟩ ::
        hitsFrom pattern none (offset + width (overload n v)) 0 b := by
  have hmarks : ∀ c ∈ ") \x7b\x7d\n".toList, isWordChar c = false :=
    fun c hc => Site.closing_overloadBack.marks c (List.mem_cons_of_mem '"' hc)
  have hline : overload n v = (overloadLead n ++ (v ++ ['"'])) ++ ") \x7b\x7d\n".toList := by
    simp [overload, overloadBack_eq]
  have hhere := pattern_overload hn hv b
  rw [hline, List.append_assoc] at hhere
  rw [hline, List.append_assoc, keyed.hitsFrom_hit (by simp) hhere (edge_cons (by decide)),
    keyed.hitsFrom_marks hmarks, Nat.add_assoc, ← width_append]

theorem exists_hitsFrom_overloads (hn : IsName n) (hvs : ∀ v ∈ vs, ')' ∉ v) (offset : Nat)
    (rest : Text) :
    ∃ first, hitsFrom pattern none offset 0 (overloads n vs ++ rest) =
        first ++ hitsFrom pattern none (offset + width (overloads n vs)) 0 rest ∧
      ∀ h ∈ first, ∃ us v ws, vs = us ++ v :: ws ∧ h.start = offset + width (overloads n us) ∧
        h.value = ofOverload n v := by
  induction vs generalizing offset with
  | nil => exact ⟨[], rfl, List.forall_mem_nil _⟩
  | cons v vs ih =>
      obtain ⟨first, heq, hfirst⟩ := ih (fun u hu => hvs u (List.mem_cons_of_mem v hu))
        (offset + width (overload n v))
      rw [overloads_cons, List.append_assoc, hitsFrom_overload hn (hvs v List.mem_cons_self), heq,
        width_append, ← Nat.add_assoc, ← List.cons_append]
      refine ⟨_, rfl, ?_⟩
      intro h hh
      rcases List.mem_cons.1 hh with rfl | hh
      · exact ⟨[], v, vs, rfl, rfl, rfl⟩
      · obtain ⟨us, u, ws, rfl, hstart, hvalue⟩ := hfirst h hh
        refine ⟨v :: us, u, ws, rfl, ?_, hvalue⟩
        rw [hstart, overloads_cons, width_append, Nat.add_assoc]

theorem exists_of_mem_hits_overloads (hn : IsName n) (hvs : ∀ v ∈ vs, ')' ∉ v) {h : Hit FnHeader}
    (hh : h ∈ hits pattern (overloads n vs)) :
    ∃ us v ws, vs = us ++ v :: ws ∧ h.start = width (overloads n us) ∧
      h.value = ofOverload n v := by
  obtain ⟨first, heq, hfirst⟩ := exists_hitsFrom_overloads hn hvs 0 []
  rw [List.append_nil, keyed.hitsFrom_nil, List.append_nil] at heq
  rw [hits, heq] at hh
  simpa only [Nat.zero_add] using hfirst h hh

theorem mem_hits_overloads (hn : IsName n) (hus : ∀ u ∈ us, ')' ∉ u)
    {rest more : Text} {h : FnHeader} (hne : rest ≠ []) (hp : pattern none rest = some (h, more)) :
    (⟨width (overloads n us), h, more⟩ : Hit FnHeader) ∈
      hits pattern (overloads n us ++ rest) := by
  obtain ⟨first, heq, -⟩ := exists_hitsFrom_overloads hn hus 0 rest
  obtain ⟨c, cs, rfl⟩ := List.exists_cons_of_ne_nil hne
  rw [hits, heq, hitsFrom_cons_of_some hp, Nat.zero_add]
  exact List.mem_append_right _ List.mem_cons_self

theorem versionIn_ofOverload (hv : Quotable v) :
    versionIn (ofOverload n v).params = some (String.ofList v) :=
  versionIn_append hv.noQuote []

/-- A version with a closing parenthesis is not read. -/
theorem exists_pattern_of_paren (hn : IsName n) (hv : Quotable v) (hparen : ')' ∈ v)
    (b : Text) :
    ∃ h more, pattern none (overload n v ++ b) = some (h, more) ∧ h.lead = keyword ++ [' '] ∧
      versionIn h.params = none := by
  obtain ⟨v₁, v₂, rfl, hv₁⟩ := List.eq_append_cons_of_mem hparen
  have hparams : ')' ∉ "version: \"".toList ++ v₁ := by simp [hv₁]
  have hplain := pattern_plain hn hparams (v₂ ++ (overloadBack ++ b))
  have hquote : '"' ∉ v₁ := fun hmem => hv.noQuote (List.mem_append_left _ hmem)
  refine ⟨⟨false, keyword ++ [' '], n, "version: \"".toList ++ v₁⟩,
    ')' :: (v₂ ++ (overloadBack ++ b)), ?_, rfl, versionIn_eq_none ?_⟩
  · simpa [overload, overloadLead_eq, keyword_eq] using hplain
  · rw [List.count_append, List.count_eq_zero_of_not_mem hquote]
    rfl

theorem mem_hits_overload (hn : IsName n) (hparen : ∀ u ∈ us ++ v :: ws, ')' ∉ u) :
    (⟨width (overloads n us), ofOverload n v,
        ") \x7b\x7d\n".toList ++ overloads n ws⟩ : Hit FnHeader) ∈
      hits pattern (overloads n (us ++ v :: ws)) := by
  rw [overloads_append, overloads_cons]
  exact mem_hits_overloads hn (fun u hu => hparen u (List.mem_append_left _ hu))
    (overload_append_ne_nil n v _) (pattern_overload hn (hparen v (by simp)) _)

end FnHeader

def overloadLine (n v : Text) : Text :=
  overloadLead n ++ (v ++ "\") \x7b\x7d".toList)

theorem overload_eq (n v : Text) : overload n v = overloadLine n v ++ ['\n'] := by
  simp [overload, overloadLine, overloadBack_eq]

theorem lines_overload (hn : IsName n) (hv : Quotable v) (rest : Text) :
    lines (overload n v ++ rest) = overloadLine n v :: lines rest := by
  have hlead : '\n' ∉ overloadLead n := not_mem_overloadLead hn (by decide) (by decide)
  have hline : '\n' ∉ overloadLine n v := by simp [overloadLine, hlead, hv.noNewline]
  rw [overload_eq, List.append_assoc, List.singleton_append, lines_append_newline hline]

theorem lines_overloads (hn : IsName n) (hvs : ∀ v ∈ vs, Quotable v) (rest : Text) :
    lines (overloads n vs ++ rest) = vs.map (overloadLine n) ++ lines rest := by
  induction vs with
  | nil => rfl
  | cons v vs ih =>
      rw [overloads_cons, List.append_assoc, lines_overload hn (hvs v List.mem_cons_self),
        ih fun u hu => hvs u (List.mem_cons_of_mem v hu)]
      rfl

theorem spanOf_overloads (n : Text) (vs : List Text) :
    LineMap.spanOf (vs.map (overloadLine n)) = width (overloads n vs) := by
  induction vs with
  | nil => rfl
  | cons v vs ih =>
      rw [List.map_cons, LineMap.spanOf, ih, overloads_cons, width_append, overload_eq,
        width_append (overloadLine n v)]
      rfl

/-- The function that the line behind the versions `us` declares, as long as its version is read to
its end. -/
def overloadSymbol (file : FileId) (n : Text) (us : List Text) (v : Text) : Symbol where
  name := String.ofList n
  form := .function (some (String.ofList v))
  file := file
  start := width (overloads n us) + 3
  position := ⟨us.length, 3⟩
  labels := []
  doc := none

theorem above_overloads (hn : IsName n) (hvs : ∀ v ∈ vs, Quotable v) :
    Annotations.above (overloads n vs) = ([], none) := by
  have hlines : (lines (overloads n vs)).reverse = [] :: (vs.map (overloadLine n)).reverse := by
    have hall := lines_overloads hn hvs []
    rw [List.append_nil] at hall
    rw [hall, List.reverse_append]
    rfl
  have hread : Annotations.read (vs.map (overloadLine n)).reverse = ([], none) := by
    rcases List.eq_nil_or_concat vs with rfl | ⟨us, v, rfl⟩
    · rfl
    · have hother : Annotations.LineNote.ofLine (overloadLine n v) = .other :=
        Annotations.ofLine_other rfl (by decide) (by decide) (by decide)
      rw [List.map_concat, List.concat_eq_append, List.reverse_concat, Annotations.read, hother]
  simp only [Annotations.above, hlines, hread]
  rfl

theorem symbol_overload (hn : IsName n) (hus : ∀ u ∈ us, Quotable u)
    (hv : Quotable v) (file : FileId) (more rest : Text) :
    (Site.ofFn ⟨width (overloads n us), FnHeader.ofOverload n v, more⟩).symbol file
        (overloads n us ++ (overload n v ++ rest)) = overloadSymbol file n us v := by
  have habove : Annotations.above (takeBytes (width (overloads n us))
      (overloads n us ++ (overload n v ++ rest))) = ([], none) := by
    rw [takeBytes_width_append, above_overloads hn hus]
  have hversion := FnHeader.versionIn_ofOverload (n := n) hv
  have hposition : (LineMap.ofText (overloads n us ++ (overload n v ++ rest))).position
      (width (overloads n us) + 3) = ⟨us.length, 3⟩ := by
    have hcol : 3 ≤ width (overloadLine n v) := by
      rw [overloadLine, overloadLead_eq, width_append, width_append, Nat.add_assoc]
      exact Nat.le_add_right 3 _
    rw [LineMap.position, LineMap.ofText, lines_overloads hn hus, lines_overload hn hv,
      ← spanOf_overloads, LineMap.locate_spanOf_add _ _ _ hcol, List.length_map]
  have hstart : (Site.ofFn ⟨width (overloads n us), FnHeader.ofOverload n v, more⟩).start =
      width (overloads n us) + 3 := rfl
  simp only [Site.symbol, hstart, hposition, overloadSymbol]
  simp only [Site.ofFn, habove, hversion]
  rfl

end Overloads
end ProcedureIndex
