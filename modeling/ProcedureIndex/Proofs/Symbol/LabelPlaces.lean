import ProcedureIndex.Document.Parse
import ProcedureIndex.Proofs.Symbol.Groups
import ProcedureIndex.Workspace.Snapshot

/-!
Labels against the symbols that carry them. A place is noted under a label while symbols
are still being added; it stays good because a symbol never leaves its place. So the places
under a label are those of the symbols that carry it, each once.
-/

namespace ProcedureIndex

theorem Symbol.hasLabel_iff {s : Symbol} {label : String} :
    s.hasLabel label = true ↔ label ∈ s.labels := by
  simp [hasLabel]

namespace Declarations

variable {symbols : List Symbol} {label : String}

def nextPlace (d : Declarations) (name : String) : SymbolPlace :=
  ⟨name, (d.symbols.bucket name).length⟩

theorem bucket_labels_add (d : Declarations) {s : Symbol} (h : s.labels.Nodup) (label : String) :
    (d.add s).labels.bucket label =
      d.labels.bucket label ++ if s.hasLabel label then [d.nextPlace s.name] else [] := by
  rw [labels_add, Grouping.bucket_foldl_push, h.count]
  simp only [Symbol.hasLabel_iff]
  split <;> rfl

theorem get?_add {d : Declarations} {s x : Symbol} {r : SymbolPlace} :
    (d.add s).symbols.get? r.name r.index = some x ↔
      d.symbols.get? r.name r.index = some x ∨ (r = d.nextPlace s.name ∧ x = s) := by
  have hplace : r = d.nextPlace s.name ↔
      r.name = s.name ∧ r.index = (d.symbols.bucket s.name).length := by
    cases r
    simp [nextPlace]
  rw [hplace, and_assoc]
  exact Grouping.get?_push_eq_some_iff

/-- The places under a label are those that have a symbol with the label. -/
theorem mem_places_iff (h : ∀ s ∈ symbols, s.labels.Nodup) {r : SymbolPlace} :
    r ∈ (ofSymbols symbols).labels.bucket label ↔
      ∃ s, (ofSymbols symbols).symbols.get? r.name r.index = some s ∧ s.hasLabel label = true := by
  induction symbols using List.reverseRecOn with
  | nil =>
      constructor
      · intro hr
        cases hr
      · rintro ⟨s, hs, -⟩
        cases hs
  | append_singleton symbols s ih =>
      obtain ⟨hsymbols, hs⟩ := List.forall_mem_append.1 h
      rw [ofSymbols_append_singleton, bucket_labels_add _ (hs s List.mem_cons_self),
        List.mem_append, ih hsymbols]
      simp only [get?_add, or_and_right, exists_or]
      refine or_congr_right ?_
      cases hlabel : s.hasLabel label <;> simp [hlabel]

/-- The place of a symbol that comes next is under no label yet. -/
theorem nextPlace_not_mem (h : ∀ s ∈ symbols, s.labels.Nodup) (name label : String) :
    (ofSymbols symbols).nextPlace name ∉ (ofSymbols symbols).labels.bucket label := by
  intro hmem
  obtain ⟨s, hs, -⟩ := (mem_places_iff h).1 hmem
  rw [Grouping.get?, nextPlace, List.getElem?_eq_none (Nat.le_refl _)] at hs
  cases hs

theorem nodup_places (h : ∀ s ∈ symbols, s.labels.Nodup) (label : String) :
    ((ofSymbols symbols).labels.bucket label).Nodup := by
  induction symbols using List.reverseRecOn with
  | nil => exact List.nodup_nil
  | append_singleton symbols s ih =>
      obtain ⟨hsymbols, hs⟩ := List.forall_mem_append.1 h
      rw [ofSymbols_append_singleton, bucket_labels_add _ (hs s List.mem_cons_self)]
      split
      · apply (ih hsymbols).append (List.nodup_singleton _)
        simpa using nextPlace_not_mem hsymbols s.name label
      · rw [List.append_nil]
        exact ih hsymbols

/-- The symbols at the places under a label are those that carry it, in the order in which they
came. -/
theorem symbols_of_places (h : ∀ s ∈ symbols, s.labels.Nodup) (label : String) :
    ((ofSymbols symbols).labels.bucket label).map
        (fun r => (ofSymbols symbols).symbols.get? r.name r.index) =
      (symbols.filter (·.hasLabel label)).map some := by
  induction symbols using List.reverseRecOn with
  | nil => rfl
  | append_singleton symbols s ih =>
      obtain ⟨hsymbols, hs⟩ := List.forall_mem_append.1 h
      have hold : ∀ r ∈ (ofSymbols symbols).labels.bucket label,
          ((ofSymbols symbols).add s).symbols.get? r.name r.index =
            (ofSymbols symbols).symbols.get? r.name r.index := by
        intro r hr
        obtain ⟨x, hx, -⟩ := (mem_places_iff hsymbols).1 hr
        rw [hx]
        exact get?_add.2 (.inl hx)
      have hnew : ((ofSymbols symbols).add s).symbols.get?
          ((ofSymbols symbols).nextPlace s.name).name
          ((ofSymbols symbols).nextPlace s.name).index = some s := get?_add.2 (.inr ⟨rfl, rfl⟩)
      rw [ofSymbols_append_singleton, bucket_labels_add _ (hs s List.mem_cons_self),
        List.map_append, List.map_congr_left hold, ih hsymbols, List.filter_append, List.map_append]
      cases hlabel : s.hasLabel label <;> simp [hlabel, hnew]

theorem withLabel_ofSymbols (h : ∀ s ∈ symbols, s.labels.Nodup) (label : String) :
    (ofSymbols symbols).withLabel label = symbols.filter (·.hasLabel label) := by
  have hplaces := congrArg (List.filterMap id) (symbols_of_places h label)
  rw [List.filterMap_map, List.filterMap_map] at hplaces
  rw [withLabel]
  simpa [Function.comp_def] using hplaces

theorem count_ofSymbols (h : ∀ s ∈ symbols, s.labels.Nodup) (label : String) :
    (ofSymbols symbols).labels.count label = (symbols.filter (·.hasLabel label)).length := by
  have hlength := congrArg List.length (symbols_of_places h label)
  rwa [List.length_map, List.length_map] at hlength

theorem all_ofSymbols_perm (symbols : List Symbol) : (ofSymbols symbols).all.Perm symbols := by
  rw [all, symbols_ofSymbols]
  exact Grouping.values_collect_perm Symbol.name symbols

theorem nodup_labels_ofSymbols (symbols : List Symbol) :
    (ofSymbols symbols).labels.names.Nodup := by
  induction symbols using List.reverseRecOn with
  | nil => exact List.nodup_nil
  | append_singleton symbols s ih =>
      rw [ofSymbols_append_singleton, labels_add]
      exact Grouping.nodup_names_foldl_push ih s.labels _

end Declarations

theorem Annotations.nodup_above (before : Text) : (above before).1.Nodup := by
  rw [above]
  split
  · exact List.nodup_nil
  · split
    · exact nodup_eraseDups _
    · exact List.nodup_nil

namespace Site

theorem nodup_labels_symbol (file : FileId) (cs : Text) :
    ∀ s ∈ (all cs).map (symbol file cs), s.labels.Nodup := by
  intro s hs
  obtain ⟨site, -, rfl⟩ := List.mem_map.1 hs
  exact Annotations.nodup_above _

end Site

theorem filter_all_parse_perm (file : FileId) (cs : Text) (p : Symbol → Bool) :
    ((parse file cs).all.filter p).Perm (((Site.all cs).map (Site.symbol file cs)).filter p) :=
  (Declarations.all_ofSymbols_perm _).filter p

theorem count_parse (file : FileId) (cs : Text) (label : String) :
    (parse file cs).labels.count label =
      ((parse file cs).all.filter (·.hasLabel label)).length := by
  rw [(filter_all_parse_perm file cs _).length_eq]
  exact Declarations.count_ofSymbols (Site.nodup_labels_symbol file cs) label

theorem mem_labels_parse {file : FileId} {cs : Text} {label : String} :
    label ∈ (parse file cs).labels.names ↔
      ∃ s ∈ (parse file cs).all, s.hasLabel label = true := by
  simp only [parse, Declarations.mem_labels_ofSymbols, Declarations.mem_all_ofSymbols,
    Symbol.hasLabel_iff]

namespace Snapshot

variable {w : Snapshot}

def Parsed (w : Snapshot) : Prop :=
  ∀ t ∈ w.tables, ∃ file cs, t.declared = parse file cs

theorem Parsed.labelCount_eq (h : w.Parsed) (label : String) :
    w.labelCount label = (w.symbols.filter (·.hasLabel label)).length := by
  rw [labelCount, symbols, List.filter_flatMap, List.length_flatMap, List.length_flatMap]
  congr 1
  apply List.map_congr_left
  intro t ht
  obtain ⟨file, cs, hparse⟩ := h t ht
  rw [hparse]
  exact count_parse file cs label

theorem Parsed.mem_labels (h : w.Parsed) {label : String} :
    label ∈ w.labels ↔ ∃ s ∈ w.symbols, label ∈ s.labels := by
  have hfile : ∀ t ∈ w.tables, (label ∈ t.declared.labels.names ↔
      ∃ s ∈ t.declared.all, label ∈ s.labels) := by
    intro t ht
    obtain ⟨file, cs, hparse⟩ := h t ht
    rw [hparse, parse, Declarations.mem_labels_ofSymbols]
    simp only [Declarations.mem_all_ofSymbols]
  simp only [labels, symbols, List.mem_eraseDups, List.mem_flatMap]
  constructor
  · rintro ⟨t, ht, hlabel⟩
    obtain ⟨s, hs, hlabel⟩ := (hfile t ht).1 hlabel
    exact ⟨s, ⟨t, ht, hs⟩, hlabel⟩
  · rintro ⟨s, ⟨t, ht, hs⟩, hlabel⟩
    exact ⟨t, ht, (hfile t ht).2 ⟨s, hs, hlabel⟩⟩

theorem Parsed.mem_labels_iff (h : w.Parsed) (label : String) :
    label ∈ w.labels ↔ 0 < w.labelCount label := by
  rw [h.labelCount_eq, List.length_pos_iff_exists_mem, h.mem_labels]
  simp only [List.mem_filter, Symbol.hasLabel_iff]

end Snapshot

/-- In what a document declares, the places under a label are those of the symbols that carry it,
each once; the symbols found through them are those that carry it, and the labels are those that a
symbol carries. So in a snapshot the number for a label is the number of symbols that carry it in
all files, and the labels are those for which it is not zero. -/
theorem label_places_agree (file : FileId) (cs : Text) (label : String) :
    let d := parse file cs
    (∀ r, r ∈ d.labels.bucket label ↔
      ∃ s, d.symbols.get? r.name r.index = some s ∧ s.hasLabel label = true) ∧
    (d.labels.bucket label).Nodup ∧
    (d.withLabel label).Perm (d.all.filter (·.hasLabel label)) ∧
    d.labels.count label = (d.all.filter (·.hasLabel label)).length ∧
    d.labels.names.Nodup ∧
    (label ∈ d.labels.names ↔ ∃ s ∈ d.all, s.hasLabel label = true) ∧
    ∀ w : Snapshot, w.Parsed →
      w.labelCount label = (w.symbols.filter (·.hasLabel label)).length ∧
      (label ∈ w.labels ↔ 0 < w.labelCount label) := by
  intro d
  have hlabels := Site.nodup_labels_symbol file cs
  refine ⟨fun r => Declarations.mem_places_iff hlabels, Declarations.nodup_places hlabels label, ?_,
    count_parse file cs label, Declarations.nodup_labels_ofSymbols _, mem_labels_parse, ?_⟩
  · have hfound : d.withLabel label = _ := Declarations.withLabel_ofSymbols hlabels label
    rw [hfound]
    exact (filter_all_parse_perm file cs _).symm
  · exact fun w hw => ⟨hw.labelCount_eq label, hw.mem_labels_iff label⟩

def labelledAgain : Text :=
  ("@label(\"a\")\n@label(\"a\")\nfn one() \x7b\x7d\nclass C \x7b\nfn two() \x7b\x7d\n" ++
    "@label(\"a\")\nfn two() \x7b\x7d\n\x7d\n").toList

theorem label_places_agree_labelledAgain :
    let d := parse ⟨0⟩ labelledAgain
    let w : Snapshot := ⟨[⟨⟨0⟩, ⟨"/a.method"⟩, ⟨1⟩, d⟩]⟩
    d.labels.bucket "a" = [⟨"one", 0⟩, ⟨"two", 0⟩, ⟨"two", 2⟩] ∧
    (d.withLabel "a").Perm (d.all.filter (·.hasLabel "a")) ∧
    w.Parsed ∧ w.labelCount "a" = 3 ∧ "a" ∈ w.labels := by
  intro d w
  have hw : w.Parsed := by
    intro t ht
    refine ⟨⟨0⟩, labelledAgain, ?_⟩
    rw [List.mem_singleton.1 ht]
  have hplaces : d.labels.bucket "a" = [⟨"one", 0⟩, ⟨"two", 0⟩, ⟨"two", 2⟩] := by decide +kernel
  have hcount : w.labelCount "a" = 3 := by
    rw [Snapshot.labelCount, List.flatMap_singleton, hplaces]
    rfl
  obtain ⟨-, -, hfound, -, -, -, hshown⟩ := label_places_agree ⟨0⟩ labelledAgain "a"
  refine ⟨hplaces, hfound, hw, hcount, (hshown w hw).2.2 ?_⟩
  rw [hcount]
  exact Nat.succ_pos 2

end ProcedureIndex
