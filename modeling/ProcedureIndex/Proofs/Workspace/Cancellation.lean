import ProcedureIndex.Proofs.Workspace.Visits

/-!
Scans that are cancelled on the way. Whether a scan goes on is a matter of the watch and
of the files that it has asked about, not of what it found, so the files that it comes to
are known beforehand. What it finds and the workspace that it leaves are those of a scan
of these files alone, and the scan of all files begins in the same way.
-/

namespace ProcedureIndex

/-- What decides when the work is cancelled; the number of reads does not matter. -/
def Watch.countdown (w : Watch) : Bool × Option Nat :=
  (w.cancelled, w.stampsLeft)

/-- A watch that cancels the work when so many more stamps were asked for. -/
def Watch.stopping : Nat → Watch
  | 0 => { cancelled := true }
  | n + 1 => { stampsLeft := some (n + 1) }

theorem Watch.onStamp_stopping (n : Nat) : (stopping (n + 1)).onStamp = stopping n := by
  cases n <;> simp [stopping, onStamp]

namespace Source

variable {a b : Watch}

theorem countdown_watchRead (src : Source) (path : Path) (w : Watch) :
    (src.watchRead path w).countdown = w.countdown := by
  rw [watchRead, Watch.onRead]
  split
  · split <;> rfl
  · rfl

theorem countdown_watchStamp (src : Source) (path : Path) (h : a.countdown = b.countdown) :
    (src.watchStamp path a).countdown = (src.watchStamp path b).countdown := by
  obtain ⟨hcancelled, hleft⟩ := Prod.mk.inj h
  simp only [watchStamp, Watch.onStamp, hleft]
  split
  · split
    · exact h
    · split <;> simp only [Watch.countdown, hcancelled]
  · exact h

/-- The files that a scan comes to before it finds itself cancelled. -/
def reached (src : Source) : List Path → Watch → List Path
  | [], _ => []
  | path :: rest, w =>
      if w.cancelled then [] else path :: src.reached rest (src.watchStamp path w)

theorem reached_congr (src : Source) (paths : List Path) (h : a.countdown = b.countdown) :
    src.reached paths a = src.reached paths b := by
  induction paths generalizing a b with
  | nil => rfl
  | cons path rest ih =>
      have hcancelled : a.cancelled = b.cancelled := congrArg Prod.fst h
      rw [reached, reached, hcancelled, ih (src.countdown_watchStamp path h)]

theorem reached_prefix_paths (src : Source) (paths : List Path) (w : Watch) :
    src.reached paths w <+: paths := by
  induction paths generalizing w with
  | nil => exact List.prefix_rfl
  | cons path rest ih =>
      rw [reached]
      split
      · exact List.nil_prefix
      · exact List.prefix_cons_inj path |>.2 (ih _)

theorem reached_of_live (src : Source) (paths : List Path) {w : Watch} (h : w.Live) :
    src.reached paths w = paths := by
  induction paths generalizing w with
  | nil => rfl
  | cons path rest ih =>
      rw [reached, if_neg (by simp [h.1]), ih (h.watchStamp src path)]

/-- If every file counts, a scan can be stopped before any of them. -/
theorem reached_stopping {src : Source} {seen : List Path} (skipped : List Path)
    (h : ∀ path ∈ seen, src.external path = true) :
    src.reached (seen ++ skipped) (.stopping seen.length) = seen := by
  induction seen with
  | nil => cases skipped <;> rfl
  | cons path rest ih =>
      obtain ⟨hpath, hrest⟩ := List.forall_mem_cons.1 h
      have hnext : src.watchStamp path (.stopping (rest.length + 1)) = .stopping rest.length := by
        rw [watchStamp, if_pos hpath, Watch.onStamp_stopping]
      rw [List.cons_append, List.length_cons, reached, hnext, ih hrest]
      rfl

end Source

namespace Scan

variable {α : Type}

def collect (visit : Path → Scan → List α × Scan) : List Path → Scan → List α × Scan
  | [], s => ([], s)
  | path :: rest, s =>
      if s.watch.cancelled then ([], s)
      else
        let (found, s) := visit path s
        let (later, s) := collect visit rest s
        (found ++ later, s)

/-- A visit asks the source for one stamp, and the watch is nothing to it but a thing to count
with. -/
structure Unswayed (src : Source) (visit : Path → Scan → List α × Scan) : Prop where
  found : ∀ path w a b, (visit path ⟨w, a⟩).1 = (visit path ⟨w, b⟩).1
  workspace : ∀ path w a b, (visit path ⟨w, a⟩).2.workspace = (visit path ⟨w, b⟩).2.workspace
  countdown : ∀ path s,
    (visit path s).2.watch.countdown = (src.watchStamp path s.watch).countdown

/-- What visits to some files find when nothing cancels the work, and the workspace behind them. -/
def gather (visit : Path → Scan → List α × Scan) : List Path → Workspace → List α × Workspace
  | [], w => ([], w)
  | path :: rest, w =>
      let (found, s) := visit path ⟨w, {}⟩
      let (later, w) := gather visit rest s.workspace
      (found ++ later, w)

variable {visit : Path → Scan → List α × Scan} {src : Source}

theorem gather_append (seen rest : List Path) (w : Workspace) :
    gather visit (seen ++ rest) w =
      ((gather visit seen w).1 ++ (gather visit rest (gather visit seen w).2).1,
        (gather visit rest (gather visit seen w).2).2) := by
  induction seen generalizing w with
  | nil => rfl
  | cons path seen ih =>
      simp only [List.cons_append, gather, ih, List.append_assoc]

theorem gather_prefix_gather {seen paths : List Path} (h : seen <+: paths) (w : Workspace) :
    (gather visit seen w).1 <+: (gather visit paths w).1 := by
  obtain ⟨rest, rfl⟩ := h
  rw [gather_append]
  exact List.prefix_append _ _

/-- A loop over files that may be cancelled is the loop over the files that it comes to. -/
theorem collect_eq_gather (h : Unswayed src visit) (paths : List Path) (s : Scan) :
    (collect visit paths s).1 = (gather visit (src.reached paths s.watch) s.workspace).1 ∧
      (collect visit paths s).2.workspace =
        (gather visit (src.reached paths s.watch) s.workspace).2 := by
  induction paths generalizing s with
  | nil => exact ⟨rfl, rfl⟩
  | cons path rest ih =>
      obtain ⟨w, watch⟩ := s
      rw [collect, Source.reached]
      split
      · exact ⟨rfl, rfl⟩
      · obtain ⟨hfound, hworkspace⟩ := ih (visit path ⟨w, watch⟩).2
        rw [src.reached_congr rest (h.countdown path ⟨w, watch⟩),
          h.workspace path w watch {}] at hfound hworkspace
        simp only [gather, hfound, hworkspace, h.found path w watch {}, and_self]

def tableVisit (src : Source) (path : Path) (s : Scan) : List FileTable × Scan :=
  ((table src path s).1.toOption.toList, (table src path s).2)

theorem tablesOf_eq_collect (src : Source) (paths : List Path) (s : Scan) :
    tablesOf src paths s = collect (tableVisit src) paths s := by
  induction paths generalizing s with
  | nil => rfl
  | cons path rest ih =>
      cases hc : s.watch.cancelled with
      | true => rw [tablesOf_of_cancelled hc, collect, if_pos hc]
      | false =>
          rw [tablesOf_cons hc, collect, if_neg (by simp [hc]), ih]
          rfl

theorem unswayed_tableVisit (src : Source) : Unswayed src (tableVisit src) where
  found path w a b := by
    simp only [tableVisit, table]
    cases src.stamp path with
    | error e => rfl
    | ok stamp =>
        cases hf : (w.number path).2.fresh? (w.number path).1 stamp with
        | some t => simp only [hf]
        | none =>
            simp only [hf]
            cases src.read path <;> rfl
  workspace path w a b := by
    simp only [tableVisit, workspace_table]
  countdown path s := by
    rw [tableVisit]
    cases asked_table src path s with
    | unstamped _ he | fresh _ _ he => rw [he]
    | unreadable _ _ _ he | read _ _ _ he => rw [he]; exact src.countdown_watchRead path _

theorem workspace_gather_tableVisit (src : Source) (paths : List Path) (w : Workspace) :
    (gather (tableVisit src) paths w).2 = w.visitAll src paths := by
  induction paths generalizing w with
  | nil => rfl
  | cons path rest ih =>
      change (gather (tableVisit src) rest (table src path ⟨w, {}⟩).2.workspace).2 = _
      rw [ih, workspace_table]
      rfl

/-- The workspace that a scan leaves, wherever it was cancelled. -/
theorem workspace_tablesOf_reached (src : Source) (paths : List Path) (s : Scan) :
    (tablesOf src paths s).2.workspace =
      s.workspace.visitAll src (src.reached paths s.watch) := by
  rw [tablesOf_eq_collect, (collect_eq_gather (unswayed_tableVisit src) paths s).2,
    workspace_gather_tableVisit]

theorem tablesOf_prefix_of_live (src : Source) (paths : List Path) (w : Workspace) (watch : Watch)
    {live : Watch} (hlive : live.Live) :
    (tablesOf src paths ⟨w, watch⟩).1 <+: (tablesOf src paths ⟨w, live⟩).1 := by
  have hvisit := unswayed_tableVisit src
  rw [tablesOf_eq_collect, tablesOf_eq_collect, (collect_eq_gather hvisit paths ⟨w, watch⟩).1,
    (collect_eq_gather hvisit paths ⟨w, live⟩).1, src.reached_of_live paths hlive]
  exact gather_prefix_gather (src.reached_prefix_paths paths watch) w

end Scan

/-- However its path is spelled among the files, a file has one stamp and one text. -/
def Source.Uniform (src : Source) : Prop :=
  ∀ p ∈ src.paths, ∀ q ∈ src.paths, p.same q = true → ∀ stamp text,
    src.stamp p = .ok stamp → src.read p = .ok text →
      src.stamp q = .ok stamp ∧ src.read q = .ok text

theorem Memory.uniform_source (m : Memory) : m.source.Uniform := by
  intro p _ q _ hpq stamp text hs hr
  obtain ⟨f, hf, rfl⟩ := stamp_eq_ok_iff.1 hs
  obtain ⟨g, hg, hread, rfl⟩ := read_eq_ok_iff.1 hr
  rw [PathMap.get?_congr _ hpq] at hf hg
  exact ⟨stamp_eq_ok_iff.2 ⟨f, hf, rfl⟩, read_eq_ok_iff.2 ⟨g, hg, hread, rfl⟩⟩

namespace Workspace

variable {src : Source} {w : Workspace} {p q : Path}

theorem cached_visit_of_not_same (hw : w.WellFormed) (h : p.same q = false) :
    (w.visit src p).cached q = w.cached q := by
  rw [visit]
  split
  · rw [cached_update hw, if_neg (by simp [h])]
  · exact cached_number hw p q

/-- A file that a scan does not come to keeps its table. -/
theorem cached_visitAll_of_not_same (hw : w.WellFormed) {paths : List Path}
    (h : ∀ p ∈ paths, p.same q = false) : (w.visitAll src paths).cached q = w.cached q := by
  induction paths generalizing w with
  | nil => rfl
  | cons path rest ih =>
      obtain ⟨hpath, hrest⟩ := List.forall_mem_cons.1 h
      have hw' := (w.visit_follows src path).wellFormed hw
      change ((w.visit src path).visitAll src rest).cached q = w.cached q
      rw [ih hw' hrest, cached_visit_of_not_same hw hpath]

theorem cached_visit_of_upToDate (hw : w.WellFormed) (hsrc : src.Uniform) (hq : q ∈ src.paths)
    (h : w.UpToDate src q) (hp : p ∈ src.paths) : (w.visit src p).cached q = w.cached q := by
  cases hpq : p.same q with
  | false => exact cached_visit_of_not_same hw hpq
  | true =>
      have hdate : w.UpToDate src p := by
        intro stamp text hs hr
        obtain ⟨hs', hr'⟩ := hsrc p hp q hq hpq stamp text hs hr
        rw [cached_congr w hpq]
        exact h stamp text hs' hr'
      rw [visit_of_upToDate hw hdate, cached_number hw]

/-- A file that is up to date keeps its table, whatever a scan comes to. -/
theorem cached_visitAll_of_upToDate (hw : w.WellFormed) (hsrc : src.Uniform) (hq : q ∈ src.paths)
    (h : w.UpToDate src q) {paths : List Path} (hpaths : paths ⊆ src.paths) :
    (w.visitAll src paths).cached q = w.cached q := by
  induction paths generalizing w with
  | nil => rfl
  | cons path rest ih =>
      obtain ⟨hpath, hrest⟩ := List.cons_subset.1 hpaths
      have hw' := (w.visit_follows src path).wellFormed hw
      have hcached := cached_visit_of_upToDate hw hsrc hq h hpath
      have hdate : (w.visit src path).UpToDate src q := by
        rwa [UpToDate, hcached]
      change ((w.visit src path).visitAll src rest).cached q = w.cached q
      rw [ih hw' hdate hrest, hcached]

end Workspace
end ProcedureIndex
