import ProcedureIndex.Diagnostic.Duplicates
import ProcedureIndex.Proofs.Document.Scans

/-!
Which declarations are reported as repeated. Each is reported against the first of its
key, and a key has an owner; a function header that several scans found has several
owners, so that headers in two classes can meet under an owner that is neither.
-/

namespace ProcedureIndex

open Text

namespace Duplicates

def ofKey (key : Key) (symbols : List Symbol) : List Symbol :=
  symbols.filter fun s => Key.ofSymbol s = key

theorem ofKey_append (key : Key) (a b : List Symbol) :
    ofKey key (a ++ b) = ofKey key a ++ ofKey key b :=
  List.filter_append a b

theorem ofKey_cons_of_eq {key : Key} {s : Symbol} (h : Key.ofSymbol s = key)
    (symbols : List Symbol) : ofKey key (s :: symbols) = s :: ofKey key symbols :=
  List.filter_cons_of_pos (by simpa using h)

theorem ofKey_cons_of_ne {key : Key} {s : Symbol} (h : Key.ofSymbol s ≠ key)
    (symbols : List Symbol) : ofKey key (s :: symbols) = ofKey key symbols :=
  List.filter_cons_of_neg (by simpa using h)

theorem ofKey_of_mem {firsts : List Symbol}
    (h : firsts.Pairwise fun a b => Key.ofSymbol a ≠ Key.ofSymbol b) {f : Symbol}
    (hf : f ∈ firsts) : ofKey (Key.ofSymbol f) firsts = [f] := by
  induction firsts with
  | nil => cases hf
  | cons a firsts ih =>
      obtain ⟨hne, hrest⟩ := List.pairwise_cons.1 h
      rcases List.mem_cons.1 hf with rfl | hf
      · have hnone : ofKey (Key.ofSymbol f) firsts = [] := by
          rw [ofKey, List.filter_eq_nil_iff]
          intro b hb hkey
          exact hne b hb (of_decide_eq_true hkey).symm
        rw [ofKey_cons_of_eq rfl, hnone]
      · rw [ofKey_cons_of_ne (hne f hf), ih hrest hf]

/-- A symbol of a new key is the first of it. -/
theorem pairwise_concat_of_find? {firsts : List Symbol}
    (h : firsts.Pairwise fun a b => Key.ofSymbol a ≠ Key.ofSymbol b) {x : Symbol}
    (hnone : firsts.find? (fun f => Key.ofSymbol f = Key.ofSymbol x) = none) :
    (firsts ++ [x]).Pairwise fun a b => Key.ofSymbol a ≠ Key.ofSymbol b := by
  refine List.pairwise_append.2 ⟨h, List.pairwise_singleton _ _, ?_⟩
  intro a ha b hb
  cases List.mem_singleton.1 hb
  simpa using List.find?_eq_none.1 hnone a ha

theorem ofKey_of_find? {firsts : List Symbol}
    (h : firsts.Pairwise fun a b => Key.ofSymbol a ≠ Key.ofSymbol b) {x g : Symbol}
    (hg : firsts.find? (fun f => Key.ofSymbol f = Key.ofSymbol x) = some g) :
    ofKey (Key.ofSymbol x) firsts = [g] := by
  have hkey : Key.ofSymbol g = Key.ofSymbol x := by simpa using List.find?_some hg
  exact hkey ▸ ofKey_of_mem h (List.mem_of_find?_eq_some hg)

/-- The symbols met so far have different keys; with them, a symbol repeats the first of its key
exactly when it comes behind it. -/
theorem mem_repeats {firsts : List Symbol}
    (h : firsts.Pairwise fun a b => Key.ofSymbol a ≠ Key.ofSymbol b) {symbols : List Symbol}
    {s f : Symbol} :
    (s, f) ∈ repeats firsts symbols ↔
      ∃ rest, ofKey (Key.ofSymbol s) (firsts ++ symbols) = f :: rest ∧ s ∈ rest := by
  induction symbols generalizing firsts with
  | nil =>
      rw [List.append_nil, repeats]
      refine ⟨fun hmem => absurd hmem List.not_mem_nil, ?_⟩
      rintro ⟨rest, hkey, hs⟩
      have hmem : s ∈ ofKey (Key.ofSymbol s) firsts := hkey ▸ List.mem_cons_of_mem f hs
      rw [ofKey_of_mem h (List.mem_filter.1 hmem).1] at hkey
      cases hkey
      cases hs
  | cons x symbols ih =>
      rw [repeats]
      split
      · next g hg =>
          rw [List.mem_cons, ih h, ofKey_append, ofKey_append]
          by_cases hx : Key.ofSymbol x = Key.ofSymbol s
          · rw [ofKey_cons_of_eq hx, ← hx, ofKey_of_find? h hg]
            constructor
            · rintro (he | ⟨rest, hrest, hs⟩)
              · cases he
                exact ⟨_, rfl, List.mem_cons_self⟩
              · cases hrest
                exact ⟨_, rfl, List.mem_cons_of_mem x hs⟩
            · rintro ⟨rest, hrest, hs⟩
              cases hrest
              rcases List.mem_cons.1 hs with rfl | hs
              · exact .inl rfl
              · exact .inr ⟨_, rfl, hs⟩
          · rw [ofKey_cons_of_ne hx]
            refine or_iff_right ?_
            intro he
            cases he
            exact hx rfl
      · next hnone =>
          rw [ih (pairwise_concat_of_find? h hnone), List.append_assoc, List.singleton_append]

theorem mem_repeats_nil {symbols : List Symbol} {s f : Symbol} :
    (s, f) ∈ repeats [] symbols ↔
      ∃ rest, ofKey (Key.ofSymbol s) symbols = f :: rest ∧ s ∈ rest :=
  mem_repeats List.Pairwise.nil

theorem considers_of_key (policy : DuplicatePolicy) {s t : Symbol}
    (h : Key.ofSymbol s = Key.ofSymbol t) : considers policy s = considers policy t := by
  have hversion : s.version = t.version := congrArg Key.version h
  cases policy with
  | off | all => rfl
  | versionedOnly => rw [considers, considers, hversion]

end Duplicates

namespace Site

open Duplicates

def version (x : Site) : Option String :=
  match x.form with
  | .function v | .method _ v _ => v
  | _ => none

def owner (x : Site) : Option String :=
  match x.form with
  | .method o _ _ => some o
  | _ => none

/-- What the symbol declared at a site shares with those that it repeats. -/
def key (x : Site) : Key :=
  ⟨Family.ofKind x.form.kind, String.ofList x.name, x.owner, x.version⟩

theorem ofSymbol_symbol (file : FileId) (cs : Text) (x : Site) :
    Key.ofSymbol (x.symbol file cs) = x.key := rfl

theorem ofKey_parse (file : FileId) (cs : Text) (policy : DuplicatePolicy) (s : Symbol) :
    ofKey (Key.ofSymbol s) ((parse file cs).all.filter (considers policy)) =
      if considers policy s then
        ((all cs).filter fun z => z.key = Key.ofSymbol s).map (symbol file cs)
      else [] := by
  have hname : ∀ t, (decide (Key.ofSymbol t = Key.ofSymbol s) && considers policy t) = true →
      t.name = s.name := by
    intro t ht
    simp only [Bool.and_eq_true, decide_eq_true_eq] at ht
    exact congrArg Key.name ht.1
  rw [ofKey, List.filter_filter, Declarations.all, parse, Declarations.symbols_ofSymbols,
    Grouping.filter_values_collect hname, List.filter_map]
  split
  · next hs =>
      congr 1
      apply List.filter_congr
      intro z _
      by_cases hz : Key.ofSymbol (z.symbol file cs) = Key.ofSymbol s
      · have hconsidered := (considers_of_key policy hz).trans hs
        simp [hz, hconsidered, ← ofSymbol_symbol file cs z]
      · simp [hz, ← ofSymbol_symbol file cs z]
  · next hs =>
      rw [List.map_eq_nil_iff, List.filter_eq_nil_iff]
      intro z _ hz
      simp only [Function.comp_apply, Bool.and_eq_true, decide_eq_true_eq] at hz
      exact hs ((considers_of_key policy hz.1).symm.trans hz.2)

/-- The warnings about a text: a declaration is reported against the first of its key if it stands
behind it. -/
theorem mem_check_parse {file : FileId} {cs : Text} {policy : DuplicatePolicy} {d : Diagnostic} :
    d ∈ Duplicates.check (parse file cs) policy ↔
      ∃ x y rest, considers policy (x.symbol file cs) = true ∧
        ((all cs).filter fun z => z.key = x.key) = y :: rest ∧ x ∈ rest ∧
        d = warning (x.symbol file cs) (y.symbol file cs) := by
  rw [Duplicates.check, List.mem_map]
  constructor
  · rintro ⟨⟨s, f⟩, hmem, rfl⟩
    obtain ⟨rest, hkey, hs⟩ := mem_repeats_nil.1 hmem
    rw [ofKey_parse] at hkey
    split at hkey
    · next hconsidered =>
        obtain ⟨y, ys, hfilter, rfl, rfl⟩ := List.map_eq_cons_iff.1 hkey
        obtain ⟨x, hx, rfl⟩ := List.mem_map.1 hs
        exact ⟨x, y, ys, hconsidered, hfilter, hx, rfl⟩
    · cases hkey
  · rintro ⟨x, y, rest, hconsidered, hfilter, hx, rfl⟩
    refine ⟨(x.symbol file cs, y.symbol file cs), mem_repeats_nil.2 ?_, rfl⟩
    rw [ofKey_parse, if_pos hconsidered, ofSymbol_symbol, hfilter]
    exact ⟨_, rfl, List.mem_map_of_mem hx⟩

/-- The function headers that were recorded under an owner, or under none. -/
def recordsOf (cs : Text) : Option Text → List Site
  | none => functions cs
  | some o => (classes cs).flatMap fun k => if k.value.name = o then methodsOf cs k else []

theorem form_of_mem_methodsOf {cs : Text} {k : Hit ClassHeader} {x : Site}
    (hx : x ∈ methodsOf cs k) : ∃ v b, x.form = .method (String.ofList k.value.name) v b := by
  rw [methodsOf] at hx
  split at hx
  · obtain ⟨h, -, rfl⟩ := List.mem_map.1 hx
    exact ⟨_, _, rfl⟩
  · cases hx

section Families

variable {cs : Text} {x : Site}

theorem callable_of_mem_free (h : x ∈ functions cs ++ pipelines cs) :
    Family.ofKind x.form.kind = .callable ∧ x.owner = none := by
  cases List.mem_append.1 h with
  | inl h =>
      obtain ⟨hit, -, rfl⟩ := List.mem_map.1 h
      exact ⟨rfl, rfl⟩
  | inr h =>
      obtain ⟨hit, -, rfl⟩ := List.mem_map.1 h
      exact ⟨rfl, rfl⟩

theorem callable_of_mem_methodsOf {k : Hit ClassHeader} (h : x ∈ methodsOf cs k) :
    Family.ofKind x.form.kind = .callable ∧ x.owner = some (String.ofList k.value.name) := by
  obtain ⟨v, b, hform⟩ := form_of_mem_methodsOf h
  rw [Site.owner, hform]
  exact ⟨rfl, rfl⟩

theorem family_ofClass (c : Hit ClassHeader) : Family.ofKind (ofClass c).form.kind = .type :=
  rfl

theorem family_of_mem_onLines {recognise : Text → Option LineHeader} {form : String → SymbolForm}
    {f : Family} (hform : ∀ v, Family.ofKind (form v).kind = f)
    (h : x ∈ onLines recognise form cs) : Family.ofKind x.form.kind = f := by
  obtain ⟨l, -, rfl⟩ := List.mem_map.1 h
  exact hform _

theorem family_of_mem_aliases (h : x ∈ aliases cs) : Family.ofKind x.form.kind = .type :=
  family_of_mem_onLines (fun _ => rfl) h

theorem family_of_mem_macros (h : x ∈ macros cs) : Family.ofKind x.form.kind = .value :=
  family_of_mem_onLines (fun _ => rfl) h

theorem family_of_mem_constants (h : x ∈ constants cs) : Family.ofKind x.form.kind = .value :=
  family_of_mem_onLines (fun _ => rfl) h

theorem class_or_method_of_mem_types (h : x ∈ types cs) :
    (∃ k ∈ classes cs, x = ofClass k) ∨ ∃ k ∈ classes cs, x ∈ methodsOf cs k := by
  rw [types_eq] at h
  obtain ⟨k, hk, h⟩ := List.mem_flatMap.1 h
  cases List.mem_cons.1 h with
  | inl h => exact .inl ⟨k, hk, h⟩
  | inr h => exact .inr ⟨k, hk, h⟩

end Families

theorem mem_recordsOf_of_mem_methodsOf {cs : Text} {k : Hit ClassHeader} (hk : k ∈ classes cs)
    {x : Site} (hx : x ∈ methodsOf cs k) : x ∈ recordsOf cs (some k.value.name) :=
  List.mem_flatMap.2 ⟨k, hk, by rwa [if_pos rfl]⟩

theorem exists_mem_recordsOf {cs : Text} {xs : List Site} (hxs : xs ∈ fnScans cs) {x : Site}
    (hx : x ∈ xs) : ∃ owner, x ∈ recordsOf cs owner := by
  rcases List.mem_cons.1 hxs with rfl | hxs
  · exact ⟨none, hx⟩
  · obtain ⟨k, hk, rfl⟩ := List.mem_map.1 hxs
    exact ⟨_, mem_recordsOf_of_mem_methodsOf hk hx⟩

theorem key_of_mem_recordsOf {cs : Text} {owner : Option Text} {x : Site}
    (hx : x ∈ recordsOf cs owner) :
    x.key = ⟨.callable, String.ofList x.name, owner.map String.ofList, x.version⟩ := by
  cases owner with
  | none =>
      obtain ⟨h, -, rfl⟩ := List.mem_map.1 hx
      rfl
  | some o =>
      obtain ⟨k, -, hx⟩ := List.mem_flatMap.1 hx
      split at hx
      · next hname =>
          obtain ⟨v, b, hform⟩ := form_of_mem_methodsOf hx
          rw [hname] at hform
          simp [key, Site.owner, hform, SymbolForm.kind, Family.ofKind]
      · cases hx

theorem owner_of_key {x : Site} {k : Key} (h : x.key = k) : x.owner = k.owner :=
  congrArg Key.owner h

theorem key_ne_of_family {x : Site} {k : Key} (h : Family.ofKind x.form.kind ≠ k.family) :
    x.key ≠ k :=
  fun hkey => h (congrArg Key.family hkey)

theorem key_ne_of_owner {x : Site} {k : Key} (h : x.owner ≠ k.owner) : x.key ≠ k :=
  fun hkey => h (owner_of_key hkey)

theorem filter_key_eq_nil {sites : List Site} {k : Key} (h : ∀ x ∈ sites, x.key ≠ k) :
    (sites.filter fun z => z.key = k) = [] := by
  rw [List.filter_eq_nil_iff]
  intro x hx hkey
  exact h x hx (of_decide_eq_true hkey)

theorem filter_key_of_family {sites : List Site} {k : Key} {f : Family}
    (h : ∀ x ∈ sites, Family.ofKind x.form.kind = f) (hne : f ≠ k.family) :
    (sites.filter fun z => z.key = k) = [] :=
  filter_key_eq_nil fun x hx => key_ne_of_family (h x hx ▸ hne)

theorem filter_key_of_owner {sites : List Site} {k : Key} {o : Option String}
    (h : ∀ x ∈ sites, x.owner = o) (hne : o ≠ k.owner) :
    (sites.filter fun z => z.key = k) = [] :=
  filter_key_eq_nil fun x hx => key_ne_of_owner (h x hx ▸ hne)

/-- A record has one owner. -/
theorem eq_of_mem_recordsOf {cs : Text} {o o' : Option Text} {x : Site} (h : x ∈ recordsOf cs o)
    (h' : x ∈ recordsOf cs o') : o = o' := by
  have howner : o.map String.ofList = o'.map String.ofList :=
    (owner_of_key (key_of_mem_recordsOf h)).symm.trans (owner_of_key (key_of_mem_recordsOf h'))
  exact Option.map_injective (fun _ _ => String.ofList_injective) howner

/-- Under an owner, a class declares the methods of its body if it is that owner. -/
theorem filter_key_class (cs : Text) {o : Text} {k : Key} (hk : k.family = .callable)
    (howner : k.owner = some (String.ofList o)) (c : Hit ClassHeader) :
    ((ofClass c :: methodsOf cs c).filter fun z => z.key = k) =
      (if c.value.name = o then methodsOf cs c else []).filter fun z => z.key = k := by
  have hclass : (ofClass c).key ≠ k := by
    apply key_ne_of_family
    rw [family_ofClass, hk]
    decide
  rw [List.filter_cons_of_neg (by simpa using hclass)]
  split
  · rfl
  · next hname =>
      refine filter_key_of_owner (fun x hx => (callable_of_mem_methodsOf hx).2) ?_
      rw [howner]
      exact fun h => hname (String.ofList_injective (Option.some.inj h))

theorem filter_key_types_of_free {cs : Text} {k : Key} (hk : k.family = .callable)
    (howner : k.owner = none) : ((types cs).filter fun z => z.key = k) = [] := by
  apply filter_key_eq_nil
  intro x hx
  rcases class_or_method_of_mem_types hx with ⟨c, -, rfl⟩ | ⟨c, -, hx⟩
  · refine key_ne_of_family ?_
    rw [family_ofClass, hk]
    decide
  · refine key_ne_of_owner ?_
    rw [(callable_of_mem_methodsOf hx).2, howner]
    exact Option.some_ne_none _

/-- Of the key of a function header, a text declares what was recorded under the owner, and behind
that at most pipelines. -/
theorem filter_key_all (cs : Text) {o : Option Text} {k : Key} (hk : k.family = .callable)
    (howner : k.owner = o.map String.ofList) :
    ∃ others, (∀ z ∈ others, z ∈ pipelines cs) ∧
      ((all cs).filter fun z => z.key = k) =
        ((recordsOf cs o).filter fun z => z.key = k) ++ others := by
  refine ⟨(pipelines cs).filter fun z => z.key = k, fun z hz => (List.mem_filter.1 hz).1, ?_⟩
  have haliases : ((aliases cs).filter fun z => z.key = k) = [] :=
    filter_key_of_family (fun x hx => family_of_mem_aliases hx) (by rw [hk]; decide)
  have hmacros : ((macros cs).filter fun z => z.key = k) = [] :=
    filter_key_of_family (fun x hx => family_of_mem_macros hx) (by rw [hk]; decide)
  have hconstants : ((constants cs).filter fun z => z.key = k) = [] :=
    filter_key_of_family (fun x hx => family_of_mem_constants hx) (by rw [hk]; decide)
  rw [all, List.filter_append, List.filter_append, List.filter_append, List.filter_append,
    haliases, hmacros, hconstants, List.append_nil, List.append_nil, List.append_nil]
  cases o with
  | none => rw [filter_key_types_of_free hk howner, List.append_nil, List.filter_append, recordsOf]
  | some o =>
      have hfree : ((functions cs ++ pipelines cs).filter fun z => z.key = k) = [] :=
        filter_key_of_owner (fun x hx => (callable_of_mem_free hx).2)
          (by rw [howner]; exact (Option.some_ne_none _).symm)
      have hpipelines : ((pipelines cs).filter fun z => z.key = k) = [] :=
        (List.append_eq_nil_iff.1 (List.filter_append .. ▸ hfree)).2
      rw [hfree, hpipelines, List.nil_append, List.append_nil, types_eq, recordsOf,
        List.filter_flatMap, List.filter_flatMap]
      exact List.flatMap_congr fun c _ => filter_key_class cs hk howner c

theorem start_eq_of_position_eq {cs : Text} {x y : Site} (hx : x.Named cs) (hy : y.Named cs)
    (h : (LineMap.ofText cs).position x.start = (LineMap.ofText cs).position y.start) :
    x.start = y.start := by
  obtain ⟨lead, behind, hname, hwidth⟩ := hx
  obtain ⟨lead', behind', hname', hwidth'⟩ := hy
  rw [← hwidth, ← hwidth'] at h ⊢
  rw [hname.split] at h
  exact LineMap.width_eq_of_position_eq (hname.split.symm.trans hname'.split) h

/-- What stands in the place of a function header was found by a scan for functions. -/
theorem mem_fnScans_of_start_eq {cs : Text} {x m : Site} (hx : x ∈ all cs)
    (hm : m ∈ (fnScans cs).flatten) (h : x.start = m.start) : x ∈ (fnScans cs).flatten := by
  rcases List.mem_append.1 ((all_perm cs).mem_iff.1 hx) with hx | hx
  · exact hx
  · obtain ⟨scan, hscan, hx⟩ := List.mem_flatMap.1 hx
    obtain ⟨xs, hxs, hm⟩ := List.mem_flatten.1 hm
    exact absurd h.symm ((scanned_of_mem_fnScans hxs).start_ne (scanned_of_mem_otherScans hscan)
      ((unlike_otherScans cs).1 scan hscan) hm hx)

theorem mem_all_of_mem_fnScans {cs : Text} {x : Site} (hx : x ∈ (fnScans cs).flatten) :
    x ∈ all cs :=
  (all_perm cs).mem_iff.2 (List.mem_append_left _ hx)

theorem mem_fnScans_of_mem_methodsOf {cs : Text} {k : Hit ClassHeader} (hk : k ∈ classes cs)
    {x : Site} (hx : x ∈ methodsOf cs k) : x ∈ (fnScans cs).flatten :=
  List.mem_flatten.2 ⟨_, List.mem_cons_of_mem _ (List.mem_map_of_mem hk), hx⟩

theorem mem_fnScans_of_mem_recordsOf {cs : Text} {o : Option Text} {x : Site}
    (hx : x ∈ recordsOf cs o) : x ∈ (fnScans cs).flatten := by
  cases o with
  | none => exact List.mem_append_left _ hx
  | some o =>
      obtain ⟨k, hk, hx⟩ := List.mem_flatMap.1 hx
      split at hx
      · exact mem_fnScans_of_mem_methodsOf hk hx
      · cases hx

theorem pipeline_not_mem_fnScans {cs : Text} {x : Site} (hx : x ∈ pipelines cs) :
    x ∉ (fnScans cs).flatten := by
  intro hm
  obtain ⟨xs, hxs, hm⟩ := List.mem_flatten.1 hm
  have hscan : (PipelineHeader.keyword, pipelines cs) ∈ otherScans cs := List.mem_cons_self
  exact (scanned_of_mem_fnScans hxs).start_ne (scanned_of_mem_otherScans hscan)
    ((unlike_otherScans cs).1 _ hscan) hm hx rfl

end Site

namespace Brackets

theorem code_ne_duplicate {file : FileId} {cs : Text} {d : Diagnostic}
    (hd : d ∈ Brackets.check file cs) : d.code ≠ some Diagnostic.duplicateCode := by
  rcases List.mem_append.1 hd with hd | hd
  · obtain ⟨b, -, rfl⟩ := List.mem_map.1 hd
    change some Diagnostic.unexpectedCloserCode ≠ _
    decide
  · obtain ⟨b, -, rfl⟩ := List.mem_map.1 hd
    change some Diagnostic.unclosedBracketCode ≠ _
    decide

end Brackets

namespace Site

open Duplicates

/-- Among some records, `y` is the first with the name and the version of `x`, and `x` comes behind
it. -/
def Repeats (records : List Site) (x y : Site) : Prop :=
  ∃ rest, (records.filter fun z => z.name = x.name ∧ z.version = x.version) = y :: rest ∧ x ∈ rest

theorem Repeats.mem {records : List Site} {x y : Site} (h : Repeats records x y) :
    x ∈ records ∧ y ∈ records := by
  obtain ⟨rest, hfilter, hrest⟩ := h
  have hmem : ∀ z ∈ y :: rest, z ∈ records := fun z hz => (List.mem_filter.1 (hfilter ▸ hz)).1
  exact ⟨hmem x (List.mem_cons_of_mem y hrest), hmem y List.mem_cons_self⟩

/-- A warning stands at the name of one site and points to the name of another as the first
declaration. -/
def Reported (file : FileId) (cs : Text) (policy : DuplicatePolicy) (x y : Site) : Prop :=
  ∃ d ∈ checkFile file cs (parse file cs) policy, d.code = some Diagnostic.duplicateCode ∧
    d.start = (LineMap.ofText cs).position x.start ∧
    d.related.map RelatedPlace.position = [(LineMap.ofText cs).position y.start]

theorem filter_key_recordsOf {cs : Text} {o : Option Text} {x : Site} (hx : x ∈ recordsOf cs o) :
    ((recordsOf cs o).filter fun z => z.key = x.key) =
      (recordsOf cs o).filter fun z => z.name = x.name ∧ z.version = x.version := by
  apply List.filter_congr
  intro z hz
  rw [key_of_mem_recordsOf hz, key_of_mem_recordsOf hx]
  simp [String.ofList_inj]

/-- Function headers repeat each other in a text when they do so among the records of an owner. -/
theorem repeats_all_iff {cs : Text} {o : Option Text} {x y : Site} (hx : x ∈ recordsOf cs o)
    (hy : y ∈ (fnScans cs).flatten) :
    (∃ rest, ((all cs).filter fun z => z.key = x.key) = y :: rest ∧ x ∈ rest) ↔
      Repeats (recordsOf cs o) x y := by
  have hkey := key_of_mem_recordsOf hx
  obtain ⟨others, hothers, hall⟩ := filter_key_all cs (o := o) (k := x.key)
    (by rw [hkey]) (by rw [hkey])
  rw [hall, filter_key_recordsOf hx, Repeats]
  constructor
  · rintro ⟨rest, hfilter, hrest⟩
    cases hrecords : (recordsOf cs o).filter fun z => z.name = x.name ∧ z.version = x.version with
    | nil =>
        rw [hrecords, List.nil_append] at hfilter
        exact absurd hy (pipeline_not_mem_fnScans (hothers y (hfilter ▸ List.mem_cons_self)))
    | cons z zs =>
        rw [hrecords, List.cons_append] at hfilter
        cases hfilter
        rcases List.mem_append.1 hrest with hrest | hrest
        · exact ⟨zs, rfl, hrest⟩
        · exact absurd (mem_fnScans_of_mem_recordsOf hx)
            (pipeline_not_mem_fnScans (hothers x hrest))
  · rintro ⟨rest, hfilter, hrest⟩
    rw [hfilter]
    exact ⟨rest ++ others, rfl, List.mem_append_left _ hrest⟩

/-- A function header is reported against another when both have records under one owner that
repeat each other. -/
theorem reported_iff (file : FileId) {cs : Text} (policy : DuplicatePolicy) {m m' : Site}
    (hm : m ∈ (fnScans cs).flatten) (hm' : m' ∈ (fnScans cs).flatten) :
    Reported file cs policy m m' ↔
      ∃ o x y, x.start = m.start ∧ y.start = m'.start ∧
        considers policy (x.symbol file cs) = true ∧ Repeats (recordsOf cs o) x y := by
  constructor
  · rintro ⟨d, hd, hcode, hstart, hrelated⟩
    have hcheck := (List.mem_append.1 hd).resolve_left
      fun hbracket => Brackets.code_ne_duplicate hbracket hcode
    obtain ⟨x, y, rest, hconsidered, hfilter, hrest, rfl⟩ := mem_check_parse.1 hcheck
    have hmem : ∀ z ∈ y :: rest, z ∈ all cs := fun z hz => (List.mem_filter.1 (hfilter ▸ hz)).1
    have hx := hmem x (List.mem_cons_of_mem y hrest)
    have hy := hmem y List.mem_cons_self
    have hxm : x.start = m.start := start_eq_of_position_eq (named_of_mem_all hx)
      (named_of_mem_all (mem_all_of_mem_fnScans hm)) hstart
    have hym : y.start = m'.start := start_eq_of_position_eq (named_of_mem_all hy)
      (named_of_mem_all (mem_all_of_mem_fnScans hm')) (List.singleton_inj.1 hrelated)
    obtain ⟨xs, hxs, hxin⟩ := List.mem_flatten.1 (mem_fnScans_of_start_eq hx hm hxm)
    obtain ⟨o, hxo⟩ := exists_mem_recordsOf hxs hxin
    exact ⟨o, x, y, hxm, hym, hconsidered,
      (repeats_all_iff hxo (mem_fnScans_of_start_eq hy hm' hym)).1 ⟨rest, hfilter, hrest⟩⟩
  · rintro ⟨o, x, y, hxm, hym, hconsidered, hrepeats⟩
    obtain ⟨hxo, hyo⟩ := hrepeats.mem
    obtain ⟨rest, hall, hrest⟩ :=
      (repeats_all_iff hxo (mem_fnScans_of_mem_recordsOf hyo)).2 hrepeats
    refine ⟨warning (x.symbol file cs) (y.symbol file cs), List.mem_append_right _
      (mem_check_parse.2 ⟨x, y, rest, hconsidered, hall, hrest, rfl⟩), rfl, ?_, ?_⟩
    · rw [← hxm]
      rfl
    · rw [← hym]
      rfl

/-- Two function headers in the bodies of classes with different names. One is reported as a
repetition of the other exactly when they have records under one owner, or both under none, that
repeat each other; then at least one of the headers has another record beside that of its class. -/
theorem method_reported_iff (file : FileId) {cs : Text} (policy : DuplicatePolicy)
    {k k' : Hit ClassHeader} (hk : k ∈ classes cs) (hk' : k' ∈ classes cs)
    (hne : k.value.name ≠ k'.value.name) {m m' : Site} (hm : m ∈ methodsOf cs k)
    (hm' : m' ∈ methodsOf cs k') :
    (Reported file cs policy m m' ↔
      ∃ o x y, x.start = m.start ∧ y.start = m'.start ∧
        considers policy (x.symbol file cs) = true ∧ Repeats (recordsOf cs o) x y) ∧
    (Reported file cs policy m m' →
      ∃ x ∈ (fnScans cs).flatten, (x.start = m.start ∧ x ≠ m) ∨ (x.start = m'.start ∧ x ≠ m')) := by
  have hscan := mem_fnScans_of_mem_methodsOf hk hm
  have hscan' := mem_fnScans_of_mem_methodsOf hk' hm'
  have hiff := reported_iff file policy hscan hscan'
  refine ⟨hiff, fun hreported => ?_⟩
  obtain ⟨o, x, y, hxm, hym, -, hrepeats⟩ := hiff.1 hreported
  obtain ⟨hxo, hyo⟩ := hrepeats.mem
  by_cases hx : x = m
  · refine ⟨y, mem_fnScans_of_mem_recordsOf hyo, .inr ⟨hym, ?_⟩⟩
    intro hy
    -- Otherwise the two methods have one owner, and it is the class of each.
    have howner := eq_of_mem_recordsOf (hx ▸ hxo) (mem_recordsOf_of_mem_methodsOf hk hm)
    have howner' := eq_of_mem_recordsOf (hy ▸ hyo) (mem_recordsOf_of_mem_methodsOf hk' hm')
    exact hne (Option.some.inj (howner.symm.trans howner'))
  · exact ⟨x, mem_fnScans_of_mem_recordsOf hxo, .inl ⟨hxm, hx⟩⟩

def runInTwoClasses : Text :=
  ("class A \x7b fn one() \x7b\x7d fn run() \x7b\x7d \x7d\n" ++
    "class B \x7b fn two() \x7b\x7d fn run() \x7b\x7d \x7d\n").toList

theorem method_reported_runInTwoClasses :
    ∃ k ∈ classes runInTwoClasses, ∃ k' ∈ classes runInTwoClasses,
      k.value.name ≠ k'.value.name ∧
      (body? (width runInTwoClasses) k'.rest).all (fun b => b.1 + width b.2 ≤ k.start) = true ∧
      ∃ m ∈ methodsOf runInTwoClasses k, ∃ m' ∈ methodsOf runInTwoClasses k',
        Reported ⟨0⟩ runInTwoClasses .all m m' := by
  obtain ⟨k, hk, k', hk', hne, hapart, m, hm, m', hm', x, -, y, -, hx, hy, hrepeats⟩ :
      ∃ k ∈ classes runInTwoClasses, ∃ k' ∈ classes runInTwoClasses,
        k.value.name ≠ k'.value.name ∧
        (body? (width runInTwoClasses) k'.rest).all (fun b => b.1 + width b.2 ≤ k.start) = true ∧
        ∃ m ∈ methodsOf runInTwoClasses k, ∃ m' ∈ methodsOf runInTwoClasses k',
          ∃ x ∈ functions runInTwoClasses, ∃ y ∈ functions runInTwoClasses,
            x.start = m.start ∧ y.start = m'.start ∧
            ((recordsOf runInTwoClasses none).filter fun z =>
              z.name = x.name ∧ z.version = x.version) = [y, x] := by
    decide +kernel
  refine ⟨k, hk, k', hk', hne, hapart, m, hm, m', hm', ?_⟩
  exact (method_reported_iff ⟨0⟩ .all hk hk' hne hm hm').1.2
    ⟨none, x, y, hx, hy, rfl, [x], hrepeats, List.mem_singleton.2 rfl⟩

end Site
end ProcedureIndex
