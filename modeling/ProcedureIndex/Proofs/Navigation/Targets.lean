import ProcedureIndex.Navigation.Resolve
import ProcedureIndex.Proofs.Document.Scans
import ProcedureIndex.Proofs.Symbol.LabelPlaces
import ProcedureIndex.Proofs.Workspace.Tables

/-!
How often one declaration is an answer. The candidates of a use are a selection of what
the files declare, and files do not share places, so a place comes up twice only where
two scans for functions of one file found the same header.
-/

namespace ProcedureIndex

open Text

/-- The file and the stretch of it that holds the declared name. -/
def Symbol.place (s : Symbol) : FileId × Nat × Nat :=
  (s.file, s.start, s.stop)

namespace Workspace

def ofFiles (files : List (Path × Stamp × Text)) : Workspace :=
  files.foldl (fun w f => (w.update f.1 f.2.1 f.2.2).2) {}

theorem mem_tables_update {w : Workspace} {path : Path} {stamp : Stamp} {text : Text}
    {t : FileTable} (h : t ∈ (w.update path stamp text).2.tables) :
    t ∈ w.tables ∨ ∃ file, t = tabulate file path stamp text := by
  simp only [update] at h
  split at h
  · exact .inl (by rwa [tables_number] at h)
  · rcases (w.number path).2.install_cases (tabulate (w.number path).1 path stamp text) with
      ⟨x, -, -, he⟩ | ⟨-, he⟩
    · rw [he, tables_number] at h
      exact .inl h
    · rw [he] at h
      rcases mem_place h with rfl | h
      · exact .inr ⟨_, rfl⟩
      · rw [tables_number] at h
        exact .inl h

theorem ofFiles_append_singleton (files : List (Path × Stamp × Text)) (f : Path × Stamp × Text) :
    ofFiles (files ++ [f]) = ((ofFiles files).update f.1 f.2.1 f.2.2).2 := by
  rw [ofFiles, List.foldl_append]
  rfl

theorem wellFormed_ofFiles (files : List (Path × Stamp × Text)) : (ofFiles files).WellFormed := by
  induction files using List.reverseRecOn with
  | nil => exact wellFormed_empty
  | append_singleton files f ih =>
      rw [ofFiles_append_singleton]
      exact ih.update f.1 f.2.1 f.2.2

theorem exists_text_of_mem_ofFiles {files : List (Path × Stamp × Text)} {t : FileTable}
    (h : t ∈ (ofFiles files).tables) :
    ∃ text, (t.path, t.stamp, text) ∈ files ∧ t.declared = parse t.file text := by
  induction files using List.reverseRecOn with
  | nil => cases h
  | append_singleton files f ih =>
      rw [ofFiles_append_singleton] at h
      rcases mem_tables_update h with h | ⟨file, rfl⟩
      · obtain ⟨text, hmem, hparse⟩ := ih h
        exact ⟨text, List.mem_append_left _ hmem, hparse⟩
      · exact ⟨f.2.2, List.mem_append_right _ (List.mem_singleton.2 rfl), rfl⟩

end Workspace

theorem Resolution.candidates_ofMatches (ss : List Symbol) : (ofMatches ss).candidates = ss := by
  cases ss with
  | nil => rfl
  | cons s rest => cases rest <;> rfl

theorem Symbol.exists_select_eq_filter (candidates : List Symbol) (version owner : Option String) :
    ∃ p : Symbol → Bool, select candidates version owner = candidates.filter p := by
  cases owner with
  | none => exact ⟨hasVersion version, rfl⟩
  | some o =>
      simp only [select]
      split
      · exact ⟨_, rfl⟩
      · exact ⟨_, List.filter_filter⟩

namespace Snapshot

/-- The text that each table was made of. -/
def Shows (w : Snapshot) (text : FileTable → Text) : Prop :=
  ∀ t ∈ w.tables, t.declared = parse t.file (text t)

variable {w : Snapshot} {text : FileTable → Text}

theorem Shows.mem_symbols (h : w.Shows text) {s : Symbol} :
    s ∈ w.symbols ↔ ∃ t ∈ w.tables, s ∈ (Site.all (text t)).map (Site.symbol t.file (text t)) := by
  rw [symbols, List.mem_flatMap]
  refine exists_congr fun t => and_congr_right fun ht => ?_
  rw [h t ht, parse, Declarations.mem_all_ofSymbols]

theorem Shows.mem_named (h : w.Shows text) {s : Symbol} {name : String} :
    s ∈ w.named name ↔ s ∈ w.symbols ∧ s.name = name := by
  rw [h.mem_symbols, named, List.mem_flatMap, ← exists_and_right]
  refine exists_congr fun t => ?_
  rw [and_assoc]
  refine and_congr_right fun ht => ?_
  rw [h t ht, parse, Declarations.symbols_ofSymbols, Grouping.bucket_collect, List.mem_filter,
    decide_eq_true_iff]

theorem Shows.mem_labels (h : w.Shows text) {label : String} :
    label ∈ w.labels ↔ ∃ s ∈ w.symbols, label ∈ s.labels := by
  have hparsed : w.Parsed := fun t ht => ⟨t.file, text t, h t ht⟩
  exact hparsed.mem_labels

/-- The candidates are a selection, file by file, of the declarations of the name. -/
theorem Shows.exists_candidates_eq (h : w.Shows text) (q : NameUse) :
    ∃ p : Symbol → Bool, (∀ s, p s = true → s.name = q.name) ∧
      (resolve w q).candidates = w.tables.flatMap fun t =>
        ((Site.all (text t)).map (Site.symbol t.file (text t))).filter p := by
  obtain ⟨chosen, hchosen⟩ := Symbol.exists_select_eq_filter
    ((w.named q.name).filter fun s => q.usage.admits s.kind) q.version q.owner
  refine ⟨fun s => chosen s && q.usage.admits s.kind && decide (s.name = q.name), ?_, ?_⟩
  · intro s hs
    simp only [Bool.and_eq_true, decide_eq_true_eq] at hs
    exact hs.2
  · rw [resolve, Resolution.candidates_ofMatches, findAll, hchosen, named, List.filter_filter,
      List.filter_flatMap]
    apply List.flatMap_congr
    intro t ht
    rw [h t ht, parse, Declarations.symbols_ofSymbols, Grouping.bucket_collect,
      List.filter_filter]

theorem place_symbol_eq_iff {file : FileId} {cs : Text} {x y : Site}
    (hname : (x.symbol file cs).name = (y.symbol file cs).name) :
    (x.symbol file cs).place = (y.symbol file cs).place ↔ x.start = y.start := by
  simp only [Symbol.place, Symbol.stop, hname, Prod.mk.injEq]
  exact ⟨fun h => h.2.1, fun h => ⟨rfl, h, congrArg (· + _) h⟩⟩

/-- No place comes up twice among the candidates unless two scans for functions of one file found
two of them in one place. -/
theorem Shows.nodup_places_iff (h : w.Shows text)
    (hfiles : w.tables.Pairwise fun a b => a.file.index < b.file.index) (q : NameUse) :
    ((resolve w q).candidates.map Symbol.place).Nodup ↔
      ∀ t ∈ w.tables, (Site.fnScans (text t)).Pairwise fun xs ys => ∀ x ∈ xs, ∀ y ∈ ys,
        x.symbol t.file (text t) ∈ (resolve w q).candidates →
        y.symbol t.file (text t) ∈ (resolve w q).candidates → x.start ≠ y.start := by
  obtain ⟨p, hname, hcandidates⟩ := h.exists_candidates_eq q
  have hmem : ∀ t ∈ w.tables, ∀ x ∈ Site.all (text t),
      (x.symbol t.file (text t) ∈ (resolve w q).candidates ↔
        p (x.symbol t.file (text t)) = true) := by
    intro t ht x hx
    rw [hcandidates, List.mem_flatMap]
    constructor
    · rintro ⟨t', -, hmem⟩
      exact (List.mem_filter.1 hmem).2
    · intro hp
      exact ⟨t, ht, List.mem_filter.2 ⟨List.mem_map_of_mem hx, hp⟩⟩
  -- Symbols of two files differ in the file.
  have hacross : w.tables.Pairwise fun a b =>
      ∀ s ∈ ((Site.all (text a)).map (Site.symbol a.file (text a))).filter p,
        ∀ s' ∈ ((Site.all (text b)).map (Site.symbol b.file (text b))).filter p,
          s.place ≠ s'.place := by
    refine hfiles.imp ?_
    intro a b hlt s hs s' hs' heq
    obtain ⟨x, -, rfl⟩ := List.mem_map.1 (List.mem_filter.1 hs).1
    obtain ⟨y, -, rfl⟩ := List.mem_map.1 (List.mem_filter.1 hs').1
    have hfile : a.file = b.file := congrArg Prod.fst heq
    rw [hfile] at hlt
    exact Nat.lt_irrefl _ hlt
  rw [List.nodup_iff_pairwise_ne, List.pairwise_map, hcandidates, List.pairwise_flatMap,
    and_iff_left hacross, ← hcandidates]
  refine forall₂_congr fun t ht => ?_
  rw [← Site.start_ne_iff, List.pairwise_filter, List.pairwise_map]
  refine List.Pairwise.iff_of_mem ?_
  intro x y hx hy
  rw [hmem t ht x hx, hmem t ht y hy]
  refine forall₂_congr fun hpx hpy => ?_
  rw [Ne, place_symbol_eq_iff ((hname _ hpx).trans (hname _ hpy).symm)]

/-- An ambiguous answer without repetition names two places. -/
theorem exists_place_ne {q : NameUse} {ss : List Symbol} (hq : resolve w q = .ambiguous ss)
    (h : ((resolve w q).candidates.map Symbol.place).Nodup) :
    ∃ s ∈ ss, ∃ s' ∈ ss, s.place ≠ s'.place := by
  rw [hq] at h
  rw [resolve] at hq
  cases hm : w.findAll q.name q.version q.owner q.usage.admits with
  | nil => simp [hm, Resolution.ofMatches] at hq
  | cons s rest =>
      cases rest with
      | nil => simp [hm, Resolution.ofMatches] at hq
      | cons s' rest =>
          rw [hm] at hq
          cases hq
          refine ⟨s, List.mem_cons_self, s', List.mem_cons_of_mem _ List.mem_cons_self, ?_⟩
          intro heq
          exact (List.nodup_cons.1 h).1 (heq ▸ List.mem_cons_self)

end Snapshot

/-- Whatever texts were taken in, the candidates of a use stand in different places if and only if
none of the files has a header among them that two scans for functions found; an ambiguous answer
then names two places. -/
theorem candidates_apart_iff (files : List (Path × Stamp × Text)) :
    ∃ text : FileTable → Text,
      (∀ t ∈ (Workspace.ofFiles files).tables,
        (t.path, t.stamp, text t) ∈ files ∧ t.declared = parse t.file (text t)) ∧
      ∀ q : NameUse,
        let answer := resolve (Workspace.ofFiles files).snapshot q
        ((answer.candidates.map Symbol.place).Nodup ↔
          ∀ t ∈ (Workspace.ofFiles files).tables,
            (Site.fnScans (text t)).Pairwise fun xs ys => ∀ x ∈ xs, ∀ y ∈ ys,
              x.symbol t.file (text t) ∈ answer.candidates →
              y.symbol t.file (text t) ∈ answer.candidates → x.start ≠ y.start) ∧
        ((answer.candidates.map Symbol.place).Nodup →
          ∀ ss, answer = .ambiguous ss → ∃ s ∈ ss, ∃ s' ∈ ss, s.place ≠ s'.place) := by
  have hsource : ∀ t ∈ (Workspace.ofFiles files).tables, ∃ text,
      (t.path, t.stamp, text) ∈ files ∧ t.declared = parse t.file text :=
    fun _ => Workspace.exists_text_of_mem_ofFiles
  choose! text htext using hsource
  refine ⟨text, htext, fun q => ⟨?_, ?_⟩⟩
  · have hshows : (Workspace.ofFiles files).snapshot.Shows text := fun t ht => (htext t ht).2
    exact hshows.nodup_places_iff (Workspace.wellFormed_ofFiles files).ordered q
  · intro hnodup ss hss
    exact Snapshot.exists_place_ne hss hnodup

def twoMethods : Text :=
  "class A \x7b fn one() \x7b\x7d fn two() \x7b\x7d \x7d".toList

/-- A call of the second method is ambiguous between the function and the method that its one header
was recorded as. -/
theorem header_is_two_candidates :
    let answer := resolve (Workspace.ofFiles [(⟨"/a.method"⟩, ⟨1⟩, twoMethods)]).snapshot
      ⟨"two", .call, none, none⟩
    answer = .ambiguous answer.candidates ∧
      answer.candidates.map (fun s => (s.kind, s.place)) =
        [(.function, ⟨0⟩, 25, 28), (.method, ⟨0⟩, 25, 28)] ∧
      ¬ (answer.candidates.map Symbol.place).Nodup := by
  decide +kernel

end ProcedureIndex
