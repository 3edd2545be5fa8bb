import ProcedureIndex.Proofs.Document.SymbolPlaces
import ProcedureIndex.Proofs.Navigation.Targets
import ProcedureIndex.Proofs.Workspace.Cancellation

/-!
Numbers of files. Whatever is done with a workspace, paths are numbered in the order in
which they are first seen, a number is kept for good, and the table under a number is the
table of that file: it carries the number itself, in all of its symbols, and the path that
the number stands for.
-/

namespace ProcedureIndex

namespace Workspace

/-- What the known paths are compared by, in the order of their numbers. -/
def roll (w : Workspace) : List (List Text) :=
  w.known.map Path.parts

variable {w : Workspace} {path : Path}

theorem number?_eq_none_iff : w.number? path = none ↔ path.parts ∉ w.roll := by
  simp [number?, roll, Path.same, List.findIdx?_eq_none_iff]

theorem number?_eq_some_iff (h : w.roll.Nodup) {i : Nat} :
    w.number? path = some ⟨i⟩ ↔ w.roll[i]? = some path.parts := by
  have hfind : w.number? path = some ⟨i⟩ ↔ w.known.findIdx? (·.same path) = some i := by
    simp [number?]
  rw [hfind, List.findIdx?_eq_some_iff_getElem, List.getElem?_eq_some_iff]
  constructor
  · rintro ⟨hi, hsame, -⟩
    exact ⟨by simpa [roll] using hi, by simpa [roll] using Path.same_iff.1 hsame⟩
  · rintro ⟨hi, hparts⟩
    have hi' : i < w.known.length := by simpa [roll] using hi
    refine ⟨hi', Path.same_iff.2 (by simpa [roll] using hparts), ?_⟩
    intro j hji hsame
    have hj : j < w.roll.length := Nat.lt_trans hji hi
    have heq : w.roll[j] = w.roll[i] := by
      rw [hparts]
      simpa [roll] using Path.same_iff.1 hsame
    exact Nat.ne_of_lt hji (h.getElem_inj_iff.1 heq)

theorem path?_parts (w : Workspace) (file : FileId) :
    (w.path? file).map Path.parts = w.roll[file.index]? := by
  rw [path?, roll, List.getElem?_map]

/-- The paths that a workspace has seen, in this order and perhaps more than once. -/
def Saw (w : Workspace) (paths : List Path) : Prop :=
  w.roll = (paths.map Path.parts).eraseDups

theorem Saw.nodup {paths : List Path} (h : w.Saw paths) : w.roll.Nodup := by
  rw [h]
  exact nodup_eraseDups _

theorem Saw.number {paths : List Path} (h : w.Saw paths) (path : Path) :
    (w.number path).2.Saw (paths ++ [path]) := by
  have hmem : path.parts ∈ paths.map Path.parts ↔ path.parts ∈ w.roll := by
    rw [h, List.mem_eraseDups]
  rw [Saw, List.map_append, List.map_singleton, Grouping.eraseDups_concat, ← h]
  cases hn : w.number? path with
  | none =>
      have hnew := number?_eq_none_iff.1 hn
      rw [if_neg (hmem.not.2 hnew), Workspace.number, hn]
      simp [roll]
  | some file =>
      have hold : path.parts ∈ w.roll := by
        by_contra hnew
        rw [number?_eq_none_iff.2 hnew] at hn
        cases hn
      rw [if_pos (hmem.2 hold), Workspace.number, hn]

theorem known_update (w : Workspace) (path : Path) (stamp : Stamp) (text : Text) :
    (w.update path stamp text).2.known = (w.number path).2.known := by
  simp only [update]
  split
  · rfl
  · rcases (w.number path).2.install_cases (tabulate (w.number path).1 path stamp text) with
      ⟨x, -, -, he⟩ | ⟨-, he⟩ <;> rw [he]

theorem Saw.update {paths : List Path} (h : w.Saw paths) (path : Path) (stamp : Stamp)
    (text : Text) : (w.update path stamp text).2.Saw (paths ++ [path]) := by
  rw [Saw, roll, known_update]
  exact h.number path

theorem Saw.visit {paths : List Path} (h : w.Saw paths) (src : Source) (path : Path) :
    (w.visit src path).Saw (paths ++ [path]) := by
  rw [Workspace.visit]
  split
  · exact h.update path _ _
  · exact h.number path

theorem Saw.visitAll {paths : List Path} (h : w.Saw paths) (src : Source) (more : List Path) :
    (w.visitAll src more).Saw (paths ++ more) := by
  induction more generalizing w paths with
  | nil => rwa [List.append_nil]
  | cons path more ih =>
      have hrest := ih (h.visit src path)
      rwa [List.append_assoc] at hrest

theorem Saw.forget {paths : List Path} (h : w.Saw paths) (path : Path) :
    (w.forget path).Saw paths := by
  rw [Workspace.forget]
  split <;> exact h

def Parsed (w : Workspace) : Prop :=
  ∀ t ∈ w.tables, ∃ text, t.declared = parse t.file text

theorem Parsed.number (h : w.Parsed) (path : Path) : (w.number path).2.Parsed := by
  rwa [Parsed, tables_number]

theorem Parsed.update (h : w.Parsed) (path : Path) (stamp : Stamp) (text : Text) :
    (w.update path stamp text).2.Parsed := by
  intro t ht
  rcases mem_tables_update ht with ht | ⟨file, rfl⟩
  · exact h t ht
  · exact ⟨text, rfl⟩

theorem Follows.parsed {src : Source} {w' : Workspace} (h : Follows src w w') (hw : w.Parsed) :
    w'.Parsed :=
  h.preserves hw (fun path hv => hv.number path) fun path stamp text hv => hv.update path stamp text

theorem Parsed.forget (h : w.Parsed) (path : Path) : (w.forget path).Parsed := by
  rw [Workspace.forget]
  split
  · exact fun t ht => h t (List.mem_filter.1 ht).1
  · exact h

/-- What can be done with a workspace. The source and the watch of a question are those of its own
moment. -/
inductive Action where
  | number (path : Path)
  | update (path : Path) (stamp : Stamp) (text : Text)
  | table (src : Source) (path : Path) (watch : Watch)
  | symbols (src : Source) (condition : Symbol → Bool) (watch : Watch)
  | refresh (src : Source) (watch : Watch)
  | forget (path : Path)
  | forgetAll

/-- The paths that an action asks for, in order. To forget a file is not to see it. -/
def Action.sighted : Action → List Path
  | .number path | .update path _ _ | .table _ path _ => [path]
  | .symbols src _ watch | .refresh src watch => src.reached src.paths watch
  | .forget _ | .forgetAll => []

def act (w : Workspace) : Action → Workspace
  | .number path => (w.number path).2
  | .update path stamp text => (w.update path stamp text).2
  | .table src path watch => (Scan.table src path ⟨w, watch⟩).2.workspace
  | .symbols src condition watch => (Scan.symbols src condition ⟨w, watch⟩).2.workspace
  | .refresh src watch => (Scan.refresh src ⟨w, watch⟩).2.workspace
  | .forget path => w.forget path
  | .forgetAll => w.forgetAll

def after (actions : List Action) : Workspace :=
  actions.foldl act {}

theorem after_append_singleton (actions : List Action) (a : Action) :
    after (actions ++ [a]) = (after actions).act a := by
  rw [after, List.foldl_append]
  rfl

/-- The order of the numbers, the order of the tables and where each table comes from. -/
structure Identified (w : Workspace) (sights : List Path) : Prop where
  saw : w.Saw sights
  wellFormed : w.WellFormed
  parsed : w.Parsed

theorem workspace_symbols (src : Source) (condition : Symbol → Bool) (s : Scan) :
    (Scan.symbols src condition s).2.workspace =
      s.workspace.visitAll src (src.reached src.paths s.watch) := by
  rw [← Scan.workspace_tablesOf_reached, Scan.symbols, Scan.tables_eq]

theorem workspace_refresh (src : Source) (s : Scan) :
    (Scan.refresh src s).2.workspace =
      s.workspace.visitAll src (src.reached src.paths s.watch) := by
  rw [← Scan.workspace_tablesOf_reached, Scan.refresh_eq]

theorem Identified.visitAll {sights : List Path} (h : w.Identified sights) (src : Source)
    (paths : List Path) : (w.visitAll src paths).Identified (sights ++ paths) where
  saw := h.saw.visitAll src paths
  wellFormed := (w.visitAll_follows src paths).wellFormed h.wellFormed
  parsed := (w.visitAll_follows src paths).parsed h.parsed

theorem Identified.act {sights : List Path} (h : w.Identified sights) (a : Action) :
    (w.act a).Identified (sights ++ a.sighted) := by
  cases a with
  | number path =>
      exact ⟨h.saw.number path, h.wellFormed.number path, h.parsed.number path⟩
  | update path stamp text =>
      exact ⟨h.saw.update path stamp text, h.wellFormed.update path stamp text,
        h.parsed.update path stamp text⟩
  | table src path watch =>
      rw [Workspace.act, Scan.workspace_table]
      exact h.visitAll src [path]
  | symbols src condition watch =>
      rw [Workspace.act, workspace_symbols]
      exact h.visitAll src _
  | refresh src watch =>
      rw [Workspace.act, workspace_refresh]
      exact h.visitAll src _
  | forget path =>
      rw [Action.sighted, List.append_nil]
      exact ⟨h.saw.forget path, h.wellFormed.forget path, h.parsed.forget path⟩
  | forgetAll =>
      rw [Action.sighted, List.append_nil]
      exact ⟨h.saw, .forgetAll, fun _ ht => absurd ht List.not_mem_nil⟩

theorem identified_after (actions : List Action) :
    (after actions).Identified (actions.flatMap Action.sighted) := by
  induction actions using List.reverseRecOn with
  | nil => exact ⟨rfl, wellFormed_empty, fun _ ht => absurd ht List.not_mem_nil⟩
  | append_singleton actions a ih =>
      rw [after_append_singleton, List.flatMap_append, List.flatMap_singleton]
      exact ih.act a

/-- Numbers outlast every action, the forgetting of all tables included. -/
theorem number?_act {file : FileId} (h : w.number? path = some file) (a : Action) :
    (w.act a).number? path = some file := by
  cases a with
  | number p => exact number?_number_of_eq_some h p
  | update p stamp text => exact number?_update h stamp text
  | table src p watch => exact (Scan.table_follows src p ⟨w, watch⟩).number?_eq_some h
  | symbols src condition watch =>
      rw [act, workspace_symbols]
      exact (w.visitAll_follows src _).number?_eq_some h
  | refresh src watch => exact (Scan.refresh_follows src ⟨w, watch⟩).number?_eq_some h
  | forget p =>
      rw [act, forget]
      split <;> exact h
  | forgetAll => exact h

theorem number?_after_append {actions : List Action} {file : FileId}
    (h : (after actions).number? path = some file) (later : List Action) :
    (after (actions ++ later)).number? path = some file := by
  induction later using List.reverseRecOn with
  | nil => rwa [List.append_nil]
  | append_singleton later a ih =>
      rw [← List.append_assoc, after_append_singleton]
      exact number?_act ih a

/-- A question that fails gives the path a number and leaves every table alone. -/
theorem tables_table_of_error {src : Source} {s : Scan} {e : AccessError}
    (h : (Scan.table src path s).1 = .error e) :
    (Scan.table src path s).2.workspace.tables = s.workspace.tables := by
  cases Scan.asked_table src path s with
  | unstamped _ he | unreadable _ _ _ he => rw [he]; exact tables_number _ path
  | fresh _ _ he | read _ _ _ he => rw [he] at h; cases h

/-- A table stands under its own number, which its symbols carry and which stands for its path. -/
theorem Identified.table? {sights : List Path} (h : w.Identified sights) {file : FileId}
    {t : FileTable} (ht : w.table? file = some t) :
    t.file = file ∧ (w.path? file).map Path.parts = some t.path.parts ∧
      ∀ s ∈ t.declared.all, s.file = file := by
  have hmem := mem_of_table? ht
  cases file_of_table? ht
  refine ⟨rfl, ?_, ?_⟩
  · rw [path?_parts, ← number?_eq_some_iff h.saw.nodup]
    exact h.wellFormed.numbered t hmem
  · intro s hs
    obtain ⟨text, htext⟩ := h.parsed t hmem
    rw [htext] at hs
    obtain ⟨site, -, rfl⟩ := Site.exists_site_of_mem_parse hs
    rfl

/-- Whatever was done with a workspace, paths have been numbered from zero in the order in which
they were first seen, different paths differently, and no later action changes a number. A table
stands under the number of its own path, alone, and its symbols carry the number; a snapshot lists
the tables by number. A question that fails changes no table. -/
theorem file_numbers_stable (actions : List Action) :
    let w := after actions
    let firsts := ((actions.flatMap Action.sighted).map Path.parts).eraseDups
    (∀ path i, w.number? path = some ⟨i⟩ ↔ firsts[i]? = some path.parts) ∧
    (∀ p q file, w.number? p = some file → w.number? q = some file → p.same q = true) ∧
    (∀ path file, w.number? path = some file →
      ∀ later, (after (actions ++ later)).number? path = some file) ∧
    (∀ path, (w.number path).2.number? path = some (w.number path).1 ∧
      ((w.number path).2.path? (w.number path).1).map Path.parts = some path.parts) ∧
    (∀ file t, w.table? file = some t →
      t.file = file ∧ (w.path? file).map Path.parts = some t.path.parts ∧
        ∀ s ∈ t.declared.all, s.file = file) ∧
    (∀ t ∈ w.tables, w.table? t.file = some t) ∧
    (w.snapshot.tables.Pairwise fun a b => a.file.index < b.file.index) ∧
    (∀ src path watch e, (Scan.table src path ⟨w, watch⟩).1 = .error e →
      (Scan.table src path ⟨w, watch⟩).2.workspace.tables = w.tables) := by
  intro w firsts
  have hw : w.Identified (actions.flatMap Action.sighted) := identified_after actions
  refine ⟨?_, ?_, ?_, ?_, fun _ _ => hw.table?, ?_, hw.wellFormed.ordered, ?_⟩
  · intro path i
    rw [number?_eq_some_iff hw.saw.nodup, hw.saw]
  · exact fun _ _ _ => same_of_number?
  · exact fun _ _ => number?_after_append
  · intro path
    have hself := w.number?_number_self path
    refine ⟨hself, ?_⟩
    rw [path?_parts]
    exact (number?_eq_some_iff (hw.saw.number path).nodup).1 hself
  · exact fun _ => find?_of_mem hw.wellFormed.ordered
  · exact fun _ _ _ _ => tables_table_of_error

theorem file_numbers_stable_forgotten :
    let actions := [Action.update ⟨"/a.method"⟩ ⟨1⟩ "fn a() \x7b\x7d".toList,
      .number ⟨"/b.method"⟩]
    let t := tabulate ⟨0⟩ ⟨"/a.method"⟩ ⟨1⟩ "fn a() \x7b\x7d".toList
    let missing := Scan.table ({} : Memory).source ⟨"/c.method"⟩ ⟨after actions, {}⟩
    (after actions).number? ⟨"/b.method"⟩ = some ⟨1⟩ ∧
    (after (actions ++ [.forgetAll])).number? ⟨"/b.method"⟩ = some ⟨1⟩ ∧
    (after actions).table? ⟨0⟩ = some t ∧ (∀ s ∈ t.declared.all, s.file = ⟨0⟩) ∧
    missing.1 = .error (.fileNotFound ⟨"/c.method"⟩) ∧
    missing.2.workspace.tables = (after actions).tables := by
  intro actions t missing
  have hnumber : (after actions).number? ⟨"/b.method"⟩ = some ⟨1⟩ := by decide +kernel
  have htable : (after actions).table? ⟨0⟩ = some t := by decide +kernel
  have hmissing : missing.1 = .error (.fileNotFound ⟨"/c.method"⟩) := rfl
  obtain ⟨-, -, hkept, -, htables, -, -, hfails⟩ := file_numbers_stable actions
  exact ⟨hnumber, hkept _ _ hnumber [.forgetAll], htable, (htables _ _ htable).2.2, hmissing,
    hfails _ _ _ _ hmissing⟩

end Workspace
end ProcedureIndex
