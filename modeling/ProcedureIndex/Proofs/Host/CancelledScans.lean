import Mathlib.Data.List.Infix
import ProcedureIndex.Proofs.Host.Operations
import ProcedureIndex.Proofs.Workspace.Identity
import ProcedureIndex.Proofs.Workspace.SourceFiles

/-!
Scans of a workspace and searches of a host that are cancelled. Wherever the work stops,
the answer is a beginning of the answer to the whole; the files that were come to have the
tables that the whole gives them, and the others have the tables that they had.
-/

namespace ProcedureIndex

namespace Host

open Scan

def usesIn (engine : PatternEngine) (name : String) (withDeclarations : Bool) :
    Except AccessError (FileTable × Text) → List Reference
  | .ok (table, text) =>
      Reference.all table.file text name
        ((table.declared.symbols.bucket name).map Symbol.position) withDeclarations engine
  | .error _ => []

def useVisit (engine : PatternEngine) (src : Source) (name : String) (withDeclarations : Bool)
    (path : Path) (s : Scan) : List Reference × Scan :=
  (usesIn engine name withDeclarations (tableWithText src path s).1, (tableWithText src path s).2)

theorem referencesIn_eq_collect (engine : PatternEngine) (src : Source) (name : String)
    (withDeclarations : Bool) (paths : List Path) (s : Scan) :
    referencesIn engine src name withDeclarations paths s =
      collect (useVisit engine src name withDeclarations) paths s := by
  induction paths generalizing s with
  | nil => rfl
  | cons path rest ih =>
      rw [referencesIn, collect]
      split
      · rfl
      · simp only [useVisit, ih]
        cases (tableWithText src path s).1 <;> rfl

theorem unswayed_useVisit (engine : PatternEngine) (src : Source) (name : String)
    (withDeclarations : Bool) : Unswayed src (useVisit engine src name withDeclarations) where
  found path w a b := by
    simp only [useVisit, tableWithText]
    cases src.stamp path with
    | error e => rfl
    | ok stamp => cases src.read path <;> rfl
  workspace path w a b := by
    simp only [useVisit, tableWithText]
    cases src.stamp path with
    | error e => rfl
    | ok stamp => cases src.read path <;> rfl
  countdown path s := by
    simp only [useVisit, tableWithText]
    cases src.stamp path with
    | error e => rfl
    | ok stamp => cases src.read path <;> exact src.countdown_watchRead path _

/-- The uses that a search finds are those in the files that it comes to. -/
theorem found_referencesIn (engine : PatternEngine) (src : Source) (name : String)
    (withDeclarations : Bool) (paths : List Path) (s : Scan) :
    (referencesIn engine src name withDeclarations paths s).1 =
      (gather (useVisit engine src name withDeclarations) (src.reached paths s.watch)
        s.workspace).1 := by
  rw [referencesIn_eq_collect]
  exact (collect_eq_gather (unswayed_useVisit engine src name withDeclarations) paths s).1

theorem found_references (engine : PatternEngine) (h : Host) (base : Source) (name : String)
    (withDeclarations : Bool) (watch : Watch) :
    (h.references base name withDeclarations watch engine).1 =
      (referencesIn engine (h.source base) name withDeclarations (h.source base).paths
        ⟨h.workspace, watch⟩).1 := by
  rw [references, Source.paths]
  cases (h.source base).discover <;> rfl

variable {live : Watch}

/-- A search that ends behind some of the files has found a beginning of what there is to find. -/
theorem referencesIn_prefix_references (h : Host) (engine : PatternEngine) (base : Source)
    (name : String) (withDeclarations : Bool) (hlive : live.Live) {files : List Path}
    (hfiles : files <+: (h.source base).paths) (watch : Watch) :
    (referencesIn engine (h.source base) name withDeclarations files ⟨h.workspace, watch⟩).1 <+:
      (h.references base name withDeclarations live engine).1 := by
  rw [found_references, found_referencesIn, found_referencesIn, Source.reached_of_live _ _ hlive]
  have hreached := (h.source base).reached_prefix_paths files watch
  exact gather_prefix_gather (hreached.trans hfiles) h.workspace

end Host

/-- Open documents leave every file with one text: they hide a file under all its spellings. -/
theorem Source.Uniform.overlaid {base : Source} (h : base.Uniform) (opened : PathMap Buffer) :
    (base.overlaid opened).Uniform := by
  have hbase : ∀ {p}, p ∈ (base.overlaid opened).paths → opened.get? p = none → p ∈ base.paths := by
    intro p hp hopen
    cases hfiles : base.discover with
    | error e => simp [Source.paths, Source.overlaid, hfiles, bind, Except.bind, Except.toOption] at hp
    | ok files =>
        simp only [Source.paths, Source.overlaid, hfiles, bind, Except.bind, pure, Except.pure,
          Except.toOption, Option.getD_some] at hp ⊢
        refine (List.mem_append.1 hp).resolve_right fun hp => ?_
        have hsome := PathMap.isSome_get?_of_mem_paths (List.mem_filter.1 hp).1
        rw [hopen] at hsome
        cases hsome
  intro p hp q hq hpq stamp text hs hr
  have hsame := PathMap.get?_congr opened hpq
  cases hopen : opened.get? p with
  | some doc =>
      simp only [Source.overlaid, ← hsame, hopen] at hs hr ⊢
      exact ⟨hs, hr⟩
  | none =>
      simp only [Source.overlaid, ← hsame, hopen] at hs hr ⊢
      exact h p (hbase hp hopen) q (hbase hq (hsame ▸ hopen)) hpq stamp text hs hr

namespace Scan

theorem symbols_prefix_of_live (src : Source) (condition : Symbol → Bool) (w : Workspace)
    (watch : Watch) {live : Watch} (hlive : live.Live) :
    (symbols src condition ⟨w, watch⟩).1 <+: (symbols src condition ⟨w, live⟩).1 := by
  simp only [symbols, tables_eq]
  exact (tablesOf_prefix_of_live src src.paths w watch hlive).flatMap _

open Workspace

/-- Let a workspace be in any state that it can come to, and let a scan be cancelled. The symbols
that it has collected begin the list of a scan that is not cancelled. Files that it did not come to
have the tables that they had, and files that it came to have those of the whole scan, provided that
no file is discovered under two spellings with two texts. The uses that a cancelled search finds
begin the list of the whole search in the same way, wherever among the files it ends; and where
every file counts, a scan can be cancelled before any of them. -/
theorem cancelled_scan_begins_scan (actions : List Action) (src : Source)
    (condition : Symbol → Bool) (watch live : Watch) (hlive : live.Live) :
    let w := after actions
    let seen := src.reached src.paths watch
    let cut := symbols src condition ⟨w, watch⟩
    let full := symbols src condition ⟨w, live⟩
    cut.1 <+: full.1 ∧
    (∀ q, (∀ p ∈ seen, p.same q = false) → cut.2.workspace.cached q = w.cached q) ∧
    (src.Uniform → ∀ q, (∃ p ∈ seen, p.same q = true) →
      cut.2.workspace.cached q = full.2.workspace.cached q) ∧
    (∀ (engine : PatternEngine) (h : Host) name withDeclarations,
      (h.references src name withDeclarations watch engine).1 <+:
        (h.references src name withDeclarations live engine).1 ∧
      ∀ files, files <+: (h.source src).paths →
        (Host.referencesIn engine (h.source src) name withDeclarations files
            ⟨h.workspace, live⟩).1 <+:
          (h.references src name withDeclarations live engine).1) ∧
    ((∀ path ∈ src.paths, src.external path = true) → ∀ n ≤ src.paths.length,
      src.reached src.paths (.stopping n) = src.paths.take n) := by
  intro w seen cut full
  have hw : w.WellFormed := (identified_after actions).wellFormed
  have hcut : cut.2.workspace = w.visitAll src seen := workspace_symbols src condition _
  have hfull : full.2.workspace = w.visitAll src src.paths := by
    rw [← src.reached_of_live src.paths hlive]
    exact workspace_symbols src condition _
  refine ⟨symbols_prefix_of_live src condition w watch hlive, ?_, ?_, ?_, ?_⟩
  · intro q hq
    rw [hcut]
    exact cached_visitAll_of_not_same hw hq
  · rintro hsrc q ⟨p, hp, hpq⟩
    obtain ⟨skipped, hskipped⟩ := src.reached_prefix_paths src.paths watch
    have hpaths : seen ++ skipped ⊆ src.paths := hskipped ▸ List.Subset.refl _
    have hw' := (w.visitAll_follows src seen).wellFormed hw
    rw [hcut, hfull, ← hskipped, visitAll_append, ← cached_congr _ hpq, ← cached_congr _ hpq]
    exact (cached_visitAll_of_upToDate hw' hsrc (hpaths (List.mem_append_left _ hp))
      (upToDate_visitAll hw hp) (List.append_subset.1 hpaths).2).symm
  · intro engine h name withDeclarations
    constructor
    · rw [Host.found_references engine h src name withDeclarations watch]
      exact h.referencesIn_prefix_references engine src name withDeclarations hlive List.prefix_rfl
        watch
    · intro files hfiles
      exact h.referencesIn_prefix_references engine src name withDeclarations hlive hfiles live
  · intro hall n hn
    have hcounts : ∀ path ∈ src.paths.take n, src.external path = true :=
      fun path hpath => hall path (List.mem_of_mem_take hpath)
    have htaken := Source.reached_stopping (src.paths.drop n) hcounts
    rwa [List.take_append_drop, List.length_take_of_le hn] at htaken

def threeFiles : Memory :=
  [Edit.set ⟨"/a.method"⟩ "fn alpha() \x7b\x7d".toList,
    .set ⟨"/b.method"⟩ "fn beta() \x7b\x7d".toList, .markUnreadable ⟨"/b.method"⟩,
    .set ⟨"/c.method"⟩ "fn gamma() \x7b\x7d".toList].foldl Memory.edit {}

theorem cancelled_scan_begins_scan_third :
    let w := after [.update ⟨"/c.method"⟩ ⟨1⟩ "fn old() \x7b\x7d".toList]
    let cut := symbols threeFiles.source (fun _ => true) ⟨w, .stopping 2⟩
    let full := symbols threeFiles.source (fun _ => true) ⟨w, {}⟩
    threeFiles.source.reached threeFiles.source.paths (.stopping 2) =
      [⟨"/a.method"⟩, ⟨"/b.method"⟩] ∧
    cut.1.map Symbol.name = ["alpha"] ∧ full.1.map Symbol.name = ["alpha", "gamma"] ∧
    cut.1 <+: full.1 ∧
    cut.2.workspace.cached ⟨"/c.method"⟩ = w.cached ⟨"/c.method"⟩ ∧
    cut.2.workspace.cached ⟨"/a.method"⟩ = full.2.workspace.cached ⟨"/a.method"⟩ ∧
    let disk := Disk.halfReadable.source {}
    disk.reached disk.paths (.stopping 1) = [⟨"/w/a.method"⟩] ∧
      (symbols disk (fun _ => true) ⟨w, .stopping 1⟩).2.workspace.cached ⟨"/w/a.method"⟩ =
        (symbols disk (fun _ => true) ⟨w, {}⟩).2.workspace.cached ⟨"/w/a.method"⟩ := by
  have hseen : threeFiles.source.reached threeFiles.source.paths (.stopping 2) =
      [⟨"/a.method"⟩, ⟨"/b.method"⟩] := by decide +kernel
  obtain ⟨hbegins, hothers, hvisited, -⟩ := cancelled_scan_begins_scan
    [.update ⟨"/c.method"⟩ ⟨1⟩ "fn old() \x7b\x7d".toList] threeFiles.source (fun _ => true)
    (.stopping 2) {} Watch.live_empty
  rw [hseen] at hothers hvisited
  refine ⟨hseen, by decide +kernel, by decide +kernel, hbegins, hothers _ (by decide +kernel),
    hvisited threeFiles.uniform_source _ ⟨_, List.mem_cons_self, Path.same_refl _⟩, ?_⟩
  have hpaths : (Disk.halfReadable.source {}).paths =
      [⟨"/w/a.method"⟩, ⟨"/w/b.method"⟩, ⟨"/w/c.method"⟩] := by
    rw [Source.paths, Disk.source, Disk.sources_halfReadable]
    rfl
  have hnamed : Disk.halfReadable.Named := by decide +kernel
  obtain ⟨-, -, hvisited', -, hstops⟩ := cancelled_scan_begins_scan
    [.update ⟨"/c.method"⟩ ⟨1⟩ "fn old() \x7b\x7d".toList] (Disk.halfReadable.source {})
    (fun _ => true) (.stopping 1) {} Watch.live_empty
  have hfirst := hstops (fun _ _ => rfl) 1 (by rw [hpaths]; decide)
  rw [hpaths] at hfirst
  refine ⟨by rw [hpaths]; exact hfirst, ?_⟩
  refine hvisited' (Disk.uniform_source hnamed {}) _ ⟨⟨"/w/a.method"⟩, ?_, Path.same_refl _⟩
  rw [hpaths, hfirst]
  exact List.mem_cons_self

end Scan
end ProcedureIndex
