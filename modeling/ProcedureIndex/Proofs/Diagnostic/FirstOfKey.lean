import Mathlib.Data.Finset.Card
import Mathlib.Data.List.FinRange
import ProcedureIndex.Proofs.Diagnostic.Repetition

/-!
Repeated declarations by places. One pass over the declarations that remembers the first
of each key reports what a comparison of all pairs would: each declaration with an earlier
one of its key, against the first of them. What is left unreported is one declaration for
each key, and a policy that looks at fewer keys reports fewer repetitions of the same kind.
-/

namespace ProcedureIndex

open Text

namespace Duplicates

def lookedAt : DuplicatePolicy → List Symbol → List Symbol
  | .off, _ => []
  | .versionedOnly, symbols => symbols.filter (·.version.isSome)
  | .all, symbols => symbols

theorem filter_considers (policy : DuplicatePolicy) (symbols : List Symbol) :
    symbols.filter (considers policy) = lookedAt policy symbols := by
  cases policy with
  | off => exact List.filter_false symbols
  | versionedOnly => rfl
  | all => exact List.filter_true symbols

/-- Two declarations of one family with the same name, owner and version. -/
structure Clash (s t : Symbol) : Prop where
  family : Family.ofKind s.kind = Family.ofKind t.kind
  name : s.name = t.name
  owner : s.owner = t.owner
  version : s.version = t.version

theorem ofSymbol_eq_iff {s t : Symbol} : Key.ofSymbol s = Key.ofSymbol t ↔ Clash s t := by
  constructor
  · intro h
    simp only [Key.ofSymbol, Key.mk.injEq] at h
    exact ⟨h.1, h.2.1, h.2.2.1, h.2.2.2⟩
  · intro h
    simp only [Key.ofSymbol, h.family, h.name, h.owner, h.version]

/-- The declaration at place `i` was made before, for the first time at place `j`. -/
structure RepeatsFirst (symbols : List Symbol) (i j : Fin symbols.length) : Prop where
  earlier : j < i
  clash : Clash (symbols.get j) (symbols.get i)
  first : ∀ k < j, ¬ Clash (symbols.get k) (symbols.get i)

def firstLike (s : Symbol) (symbols : List Symbol) : Option Symbol :=
  symbols.find? fun f => Key.ofSymbol f = Key.ofSymbol s

theorem firstLike_append (s : Symbol) (a b : List Symbol) :
    firstLike s (a ++ b) = (firstLike s a).or (firstLike s b) :=
  List.find?_append

theorem firstLike_congr {s t : Symbol} (h : Key.ofSymbol s = Key.ofSymbol t)
    (symbols : List Symbol) :
    firstLike s symbols = firstLike t symbols := by
  simp only [firstLike, h]

theorem firstLike_singleton_of_ne {s t : Symbol} (h : Key.ofSymbol s ≠ Key.ofSymbol t) :
    firstLike t [s] = none := by
  simp [firstLike, h]

theorem repeats_cons_of_some {firsts : List Symbol} {s f : Symbol}
    (h : firstLike s firsts = some f) (symbols : List Symbol) :
    repeats firsts (s :: symbols) = (s, f) :: repeats firsts symbols := by
  rw [firstLike] at h
  simp only [repeats, h]

theorem repeats_cons_of_none {firsts : List Symbol} {s : Symbol}
    (h : firstLike s firsts = none) (symbols : List Symbol) :
    repeats firsts (s :: symbols) = repeats (firsts ++ [s]) symbols := by
  rw [firstLike] at h
  simp only [repeats, h]

/-- While the symbols remembered are the first of each key among those met, every symbol is paired
with the first of its key among all that stand before it. -/
theorem repeats_eq {firsts met : List Symbol} (h : ∀ s, firstLike s firsts = firstLike s met)
    (symbols : List Symbol) :
    repeats firsts symbols = (symbols.zipIdx met.length).filterMap fun p =>
      (firstLike p.1 ((met ++ symbols).take p.2)).map fun f => (p.1, f) := by
  induction symbols generalizing firsts met with
  | nil => rfl
  | cons s symbols ih =>
      have hnext : ∀ {firsts'}, (∀ t, firstLike t firsts' = firstLike t (met ++ [s])) →
          repeats firsts' symbols = (symbols.zipIdx (met.length + 1)).filterMap fun p =>
            (firstLike p.1 ((met ++ s :: symbols).take p.2)).map fun f => (p.1, f) := by
        intro firsts' h'
        have hrest := ih h'
        rwa [List.length_append, List.append_assoc] at hrest
      have hhere : firstLike s ((met ++ s :: symbols).take met.length) = firstLike s firsts := by
        rw [List.take_left, h]
      rw [List.zipIdx_cons, List.filterMap_cons, hhere]
      cases hs : firstLike s firsts with
      | none =>
          rw [repeats_cons_of_none hs]
          apply hnext
          intro t
          rw [firstLike_append, firstLike_append, h]
      | some f =>
          rw [repeats_cons_of_some hs]
          refine congrArg ((s, f) :: ·) (hnext ?_)
          intro t
          rw [firstLike_append, ← h]
          by_cases ht : Key.ofSymbol s = Key.ofSymbol t
          · rw [← firstLike_congr ht, hs]
            rfl
          · rw [firstLike_singleton_of_ne ht, Option.or_none]

def firstPlace (symbols : List Symbol) (i : Fin symbols.length) : Option (Fin symbols.length) :=
  Fin.find? fun j => j < i ∧ Key.ofSymbol (symbols.get j) = Key.ofSymbol (symbols.get i)

theorem firstPlace_eq_some_iff {symbols : List Symbol} {i j : Fin symbols.length} :
    firstPlace symbols i = some j ↔ RepeatsFirst symbols i j := by
  rw [firstPlace, Fin.find?_eq_some_iff]
  simp only [decide_eq_true_eq, decide_eq_false_iff_not, ofSymbol_eq_iff]
  constructor
  · intro h
    refine ⟨h.1.1, h.1.2, ?_⟩
    intro k hk hclash
    exact h.2 k hk ⟨hk.trans h.1.1, hclash⟩
  · intro h
    refine ⟨⟨h.earlier, h.clash⟩, ?_⟩
    intro k hk hearlier
    exact h.first k hk hearlier.2

theorem firstLike_take (symbols : List Symbol) (i : Fin symbols.length) :
    firstLike (symbols.get i) (symbols.take i) = (firstPlace symbols i).map symbols.get := by
  cases hplace : firstPlace symbols i with
  | none =>
      rw [Option.map_none, firstLike, List.find?_eq_none]
      intro f hf hkey
      obtain ⟨k, hk, rfl⟩ := List.mem_take_iff_getElem.1 hf
      rw [firstPlace, Fin.find?_eq_none_iff] at hplace
      have hnone := of_decide_eq_false (hplace ⟨k, by omega⟩)
      have hearlier : k < i.val := by omega
      exact hnone ⟨hearlier, of_decide_eq_true hkey⟩
  | some j =>
      have hfirst := firstPlace_eq_some_iff.1 hplace
      have hj : j.val < i.val := hfirst.earlier
      rw [Option.map_some, firstLike, List.find?_eq_some_iff_getElem]
      refine ⟨decide_eq_true (ofSymbol_eq_iff.2 hfirst.clash), j, by simp; omega, by simp, ?_⟩
      intro k hk
      have hearlier := hfirst.first ⟨k, by omega⟩ hk
      simpa [ofSymbol_eq_iff] using hearlier

theorem zipIdx_eq_map_finRange (symbols : List Symbol) :
    symbols.zipIdx = (List.finRange symbols.length).map fun i => (symbols.get i, i.val) := by
  apply List.ext_getElem
  · simp
  · simp

/-- The repetitions in a list of symbols: a place, and the first place of the same key. -/
def repetitions (symbols : List Symbol) : List (Fin symbols.length × Fin symbols.length) :=
  (List.finRange symbols.length).filterMap fun i => (firstPlace symbols i).map fun j => (i, j)

theorem mem_repetitions {symbols : List Symbol} {i j : Fin symbols.length} :
    (i, j) ∈ repetitions symbols ↔ RepeatsFirst symbols i j := by
  simp [repetitions, ← firstPlace_eq_some_iff]

theorem repetitions_pairwise (symbols : List Symbol) :
    (repetitions symbols).Pairwise fun p q => p.1 < q.1 := by
  refine (List.pairwise_lt_finRange symbols.length).filterMap _ ?_
  intro i i' hlt p hp q hq
  obtain ⟨j, -, rfl⟩ := Option.map_eq_some_iff.1 hp
  obtain ⟨j', -, rfl⟩ := Option.map_eq_some_iff.1 hq
  exact hlt

theorem repeats_eq_repetitions (symbols : List Symbol) :
    repeats [] symbols = (repetitions symbols).map fun p => (symbols.get p.1, symbols.get p.2) := by
  have hnone : ∀ s, firstLike s [] = firstLike s [] := fun _ => rfl
  rw [repeats_eq hnone, List.nil_append, List.length_nil,
    zipIdx_eq_map_finRange, List.filterMap_map, repetitions, List.map_filterMap]
  apply List.filterMap_congr
  intro i _
  simp only [Function.comp_apply, firstLike_take, Option.map_map]
  rfl

/-- Every symbol is reported or the first of its key. -/
theorem length_repeats (firsts symbols : List Symbol) (h : (firsts.map Key.ofSymbol).Nodup) :
    (repeats firsts symbols).length + ((firsts ++ symbols).map Key.ofSymbol).toFinset.card =
      firsts.length + symbols.length := by
  induction symbols generalizing firsts with
  | nil =>
      rw [List.append_nil, List.toFinset_card_of_nodup h, List.length_map]
      exact Nat.add_comm _ _
  | cons s symbols ih =>
      cases hs : firstLike s firsts with
      | some f =>
          have hkey : Key.ofSymbol s ∈ firsts.map Key.ofSymbol := by
            refine List.mem_map.2 ⟨f, List.mem_of_find?_eq_some hs, ?_⟩
            simpa using List.find?_some hs
          have hsame : ((firsts ++ s :: symbols).map Key.ofSymbol).toFinset =
              ((firsts ++ symbols).map Key.ofSymbol).toFinset := by
            ext key
            simp only [List.map_append, List.map_cons, List.mem_toFinset, List.mem_append,
              List.mem_cons]
            grind
          have hrest := ih firsts h
          rw [repeats_cons_of_some hs, hsame, List.length_cons, List.length_cons]
          omega
      | none =>
          have hfresh : ((firsts ++ [s]).map Key.ofSymbol).Nodup := by
            rw [List.map_append]
            refine h.append (List.nodup_singleton _) ?_
            intro key hkey hkey'
            obtain ⟨f, hf, rfl⟩ := List.mem_map.1 hkey
            simpa [List.mem_singleton.1 hkey'] using List.find?_eq_none.1 hs f hf
          have hrest := ih (firsts ++ [s]) hfresh
          rw [List.append_assoc, List.length_append, List.length_singleton] at hrest
          rw [repeats_cons_of_none hs, List.length_cons]
          exact hrest.trans (by omega)

/-- A condition on keys selects among the repetitions what it selects among the symbols. -/
theorem repeats_filter {p : Symbol → Bool}
    (hp : ∀ {s t}, Key.ofSymbol s = Key.ofSymbol t → p s = p t) (firsts symbols : List Symbol) :
    repeats (firsts.filter p) (symbols.filter p) =
      (repeats firsts symbols).filter fun r => p r.1 := by
  induction symbols generalizing firsts with
  | nil => rfl
  | cons s symbols ih =>
      by_cases hs : p s = true
      · have hsame : firstLike s (firsts.filter p) = firstLike s firsts := by
          rw [firstLike, List.find?_filter]
          congr 1
          funext f
          by_cases hf : Key.ofSymbol f = Key.ofSymbol s
          · simp [hf, hp hf, hs]
          · simp [hf]
        rw [List.filter_cons_of_pos hs]
        cases hfirst : firstLike s firsts with
        | some f =>
            rw [repeats_cons_of_some (hsame.trans hfirst), repeats_cons_of_some hfirst, ih,
              List.filter_cons_of_pos (p := fun r : Symbol × Symbol => p r.1) hs]
        | none =>
            rw [repeats_cons_of_none (hsame.trans hfirst), repeats_cons_of_none hfirst, ← ih,
              List.filter_append, List.filter_cons_of_pos hs, List.filter_nil]
      · rw [List.filter_cons_of_neg hs, ih]
        cases hfirst : firstLike s firsts with
        | some f =>
            rw [repeats_cons_of_some hfirst,
              List.filter_cons_of_neg (p := fun r : Symbol × Symbol => p r.1) hs]
        | none =>
            rw [repeats_cons_of_none hfirst, ← ih, ← ih, List.filter_append,
              List.filter_cons_of_neg hs, List.filter_nil, List.append_nil]

theorem check_versionedOnly_sublist (d : Declarations) :
    (check d .versionedOnly).Sublist (check d .all) := by
  have hfilter : repeats [] (d.all.filter (considers .versionedOnly)) =
      (repeats [] (d.all.filter (considers .all))).filter
        fun r => considers .versionedOnly r.1 := by
    rw [filter_considers .all]
    exact repeats_filter (considers_of_key .versionedOnly) [] d.all
  rw [check, check, hfilter]
  exact List.filter_sublist.map _

/-- A warning about `s` that points back to `first`. -/
structure Warns (s first : Symbol) (d : Diagnostic) : Prop where
  severity : d.severity = .warning
  code : d.code = some Diagnostic.duplicateCode
  file : d.file = s.file
  start : d.start = s.position
  stop : d.stop = ⟨s.position.line, s.position.col + Text.width s.name.toList % countLimit⟩
  related : d.related.map (fun r => (r.file, r.position)) = [(first.file, first.position)]

theorem warns_warning (s first : Symbol) : Warns s first (warning s first) where
  severity := rfl
  code := rfl
  file := rfl
  start := rfl
  stop := rfl
  related := rfl

def EndsAtColumn (s : Symbol) : Prop :=
  s.position.col + Text.width s.name.toList % countLimit < countLimit

instance (s : Symbol) : Decidable (EndsAtColumn s) :=
  inferInstanceAs (Decidable (_ < _))

theorem warningChecked_eq (s first : Symbol) :
    warningChecked s first =
      if EndsAtColumn s then .ok (warning s first) else .error .overflow := by
  rw [warningChecked, counted]
  by_cases h : EndsAtColumn s
  · have hcol : (warning s first).stop.col < countLimit := h
    rw [if_pos hcol, if_pos h]
    rfl
  · have hcol : ¬ (warning s first).stop.col < countLimit := h
    rw [if_neg hcol, if_neg h]
    rfl

/-- Warnings are reported one after the other until one of the names ends at no column. -/
theorem foldlM_warningChecked (c : Collector) (found : List (Symbol × Symbol)) :
    found.foldlM (fun c r => (warningChecked r.1 r.2).map c.add) c =
      if ∀ r ∈ found, EndsAtColumn r.1 then
        .ok ⟨c.held ++ found.map fun r => warning r.1 r.2⟩
      else .error .overflow := by
  induction found generalizing c with
  | nil => simp [pure, Except.pure]
  | cons r found ih =>
      rw [List.foldlM_cons, warningChecked_eq]
      by_cases hr : EndsAtColumn r.1
      · have hall : (∀ r' ∈ found, EndsAtColumn r'.1) ↔ ∀ r' ∈ r :: found, EndsAtColumn r'.1 := by
          rw [List.forall_mem_cons, and_iff_right hr]
        rw [if_pos hr]
        refine (ih (c.add (warning r.1 r.2))).trans (if_congr hall ?_ rfl)
        rw [Collector.add, List.append_assoc, List.map_cons, List.singleton_append]
      · rw [if_neg hr, if_neg fun h => hr (h r (List.mem_cons_self ..))]
        rfl

theorem report_eq (c : Collector) (d : Declarations) (policy : DuplicatePolicy) :
    report c d policy =
      if ∀ r ∈ repeats [] (d.all.filter (considers policy)), EndsAtColumn r.1 then
        .ok ⟨c.held ++ check d policy⟩
      else .error .overflow :=
  foldlM_warningChecked c _

/-- In a text that 32-bit counts can address, every name ends at a column. -/
theorem endsAtColumn_of_mem_parse {file : FileId} {cs : Text} (hlimit : width cs < countLimit)
    {s : Symbol} (hs : s ∈ (parse file cs).all) : EndsAtColumn s := by
  obtain ⟨site, hsite, rfl⟩ := Site.exists_site_of_mem_parse hs
  obtain ⟨lead, behind, hname, hstart⟩ := Site.named_of_mem_all hsite
  obtain ⟨init, last, -, hwidth, -, hposition⟩ :=
    LineMap.exists_position lead (site.name ++ behind)
  rw [← hname.split, hstart] at hposition
  have hcol : (site.symbol file cs).position.col = width last := congrArg Position.col hposition
  have hsplit : width cs = width lead + (width site.name + width behind) := by
    rw [hname.split, width_append, width_append]
  have hlength : width (site.symbol file cs).name.toList = width site.name :=
    congrArg width String.toList_ofList
  rw [EndsAtColumn, hcol, hlength, Nat.mod_eq_of_lt (by omega)]
  omega

/-- What is reported about a parsed text is what the check finds in it. -/
theorem report_parse (c : Collector) (file : FileId) {cs : Text} (hlimit : width cs < countLimit)
    (policy : DuplicatePolicy) :
    report c (parse file cs) policy = .ok ⟨c.held ++ check (parse file cs) policy⟩ := by
  rw [report_eq, if_pos]
  intro r hr
  obtain ⟨rest, hkey, hrest⟩ := mem_repeats_nil.1 hr
  have hmem : r.1 ∈ ofKey (Key.ofSymbol r.1) ((parse file cs).all.filter (considers policy)) :=
    hkey ▸ List.mem_cons_of_mem _ hrest
  exact endsAtColumn_of_mem_parse hlimit (List.mem_filter.1 (List.mem_filter.1 hmem).1).1

/-- Repeated declarations are reported to a collector behind what it holds: one warning for each
place in the list of declarations looked at where a declaration clashes with an earlier one, in the
order of these places, each at the declaration and pointing back to the first that it clashes with.
A name that ends at no column stops the report. So there are as many warnings as declarations looked
at, less the number of different keys; and looking at versioned declarations only, some of the
warnings about all declarations are left, in their order. -/
theorem repeated_declarations_by_places (c : Collector) (d : Declarations)
    (policy : DuplicatePolicy) :
    (∃ places : List (Fin (lookedAt policy d.all).length × Fin (lookedAt policy d.all).length),
      places.Pairwise (fun p q => p.1 < q.1) ∧
      (∀ i j, (i, j) ∈ places ↔ RepeatsFirst (lookedAt policy d.all) i j) ∧
      List.Forall₂ (fun p w => Warns ((lookedAt policy d.all).get p.1)
        ((lookedAt policy d.all).get p.2) w) places (check d policy) ∧
      ((∀ p ∈ places, EndsAtColumn ((lookedAt policy d.all).get p.1)) →
        report c d policy = .ok ⟨c.held ++ check d policy⟩) ∧
      ((∃ p ∈ places, ¬ EndsAtColumn ((lookedAt policy d.all).get p.1)) →
        report c d policy = .error .overflow)) ∧
    (check d policy).length + ((lookedAt policy d.all).map Key.ofSymbol).toFinset.card =
      (lookedAt policy d.all).length ∧
    (check d .versionedOnly).Sublist (check d .all) := by
  refine ⟨⟨repetitions _, repetitions_pairwise _, fun i j => mem_repetitions, ?_, ?_, ?_⟩, ?_,
    check_versionedOnly_sublist d⟩
  · rw [check, filter_considers, repeats_eq_repetitions, List.map_map, List.forall₂_map_right_iff,
      List.forall₂_same]
    exact fun p _ => warns_warning _ _
  · intro hall
    rw [report_eq, filter_considers, repeats_eq_repetitions, if_pos]
    exact List.forall_mem_map.2 hall
  · rintro ⟨p, hp, hover⟩
    rw [report_eq, filter_considers, repeats_eq_repetitions, if_neg]
    exact fun hall => hover (List.forall_mem_map.1 hall p hp)
  · have hcount := length_repeats [] (lookedAt policy d.all) List.nodup_nil
    rw [check, filter_considers, List.length_map]
    simpa using hcount

end Duplicates
end ProcedureIndex
