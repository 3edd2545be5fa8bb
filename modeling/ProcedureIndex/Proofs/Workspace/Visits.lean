import ProcedureIndex.Proofs.Workspace.Refreshing

/-!
How far a scan came. It asks for one file after the other until it is cancelled, and
the workspace that it leaves depends on the files that it came to and on nothing else.
To come to a file again changes nothing, and the files that were left out matter
exactly if one of them is newer than its table and can be read.
-/

namespace ProcedureIndex

/-- The files of a source; one that cannot be searched has none. -/
def Source.paths (src : Source) : List Path :=
  src.discover.toOption.getD []

/-- Nothing is going to cancel the work. -/
def Watch.Live (w : Watch) : Prop :=
  w.cancelled = false ∧ w.stampsLeft = none

theorem Watch.live_empty : Watch.Live {} :=
  ⟨rfl, rfl⟩

namespace Watch.Live

variable {w : Watch}

theorem watchStamp (h : w.Live) (src : Source) (path : Path) : (src.watchStamp path w).Live := by
  rw [Source.watchStamp, Watch.onStamp, h.2]
  split <;> exact h

theorem watchRead (h : w.Live) (src : Source) (path : Path) : (src.watchRead path w).Live := by
  rw [Source.watchRead, Watch.onRead]
  split
  · split <;> exact h
  · exact h

end Watch.Live

namespace Workspace

def visit (w : Workspace) (src : Source) (path : Path) : Workspace :=
  match src.stamp path, src.read path with
  | .ok stamp, .ok text => (w.update path stamp text).2
  | _, _ => (w.number path).2

def visitAll (w : Workspace) (src : Source) (paths : List Path) : Workspace :=
  paths.foldl (fun w path => w.visit src path) w

/-- The file has no text to read that is newer than its table. -/
def UpToDate (w : Workspace) (src : Source) (path : Path) : Prop :=
  ∀ stamp text, src.stamp path = .ok stamp → src.read path = .ok text →
    ∃ t, w.cached path = some t ∧ stamp.ticks ≤ t.stamp.ticks

variable {src : Source} {w w' : Workspace}

theorem visitAll_append (w : Workspace) (src : Source) (seen rest : List Path) :
    w.visitAll src (seen ++ rest) = (w.visitAll src seen).visitAll src rest :=
  List.foldl_append

theorem visit_follows (w : Workspace) (src : Source) (path : Path) :
    Follows src w (w.visit src path) := by
  rw [visit]
  split
  · next hs hr => exact .update .refl hs hr
  · exact .number path .refl

theorem visitAll_follows (w : Workspace) (src : Source) (paths : List Path) :
    Follows src w (w.visitAll src paths) := by
  induction paths generalizing w with
  | nil => exact .refl
  | cons path rest ih => exact (w.visit_follows src path).trans (ih (w.visit src path))

theorem number_of_number?_eq_some {path : Path} {file : FileId} (h : w.number? path = some file) :
    w.number path = (file, w) := by
  rw [number, h]

theorem number?_update {path p : Path} {file : FileId} (h : w.number? p = some file)
    (stamp : Stamp) (text : Text) : (w.update path stamp text).2.number? p = some file := by
  have hnumber := number?_number_of_eq_some h path
  simp only [update]
  split
  · exact hnumber
  · rcases (w.number path).2.install_cases (tabulate (w.number path).1 path stamp text) with
      ⟨x, -, -, he⟩ | ⟨-, he⟩ <;> rw [he] <;> exact hnumber

theorem number?_visit_self (w : Workspace) (src : Source) (path : Path) :
    (w.visit src path).number? path = some (w.number path).1 := by
  have hself := w.number?_number_self path
  rw [visit]
  split
  · next stamp text hs hr =>
      simp only [update]
      split
      · exact hself
      · rcases (w.number path).2.install_cases (tabulate (w.number path).1 path stamp text) with
          ⟨x, -, -, he⟩ | ⟨-, he⟩ <;> rw [he] <;> exact hself
  · exact hself

theorem Follows.number?_eq_some (h : Follows src w w') {path : Path} {file : FileId}
    (hn : w.number? path = some file) : w'.number? path = some file := by
  induction h with
  | refl => exact hn
  | number p _ ih => exact number?_number_of_eq_some ih p
  | update _ _ _ ih => exact number?_update ih _ _

/-- The table of a file is only ever replaced by one that is as new. -/
theorem Follows.exists_cached (h : Follows src w w') (hw : w.WellFormed) {path : Path}
    {t : FileTable} (ht : w.cached path = some t) :
    ∃ t', w'.cached path = some t' ∧ t.stamp.ticks ≤ t'.stamp.ticks := by
  induction h with
  | refl => exact ⟨t, ht, Nat.le_refl _⟩
  | number p hprev ih => rwa [cached_number (hprev.wellFormed hw)]
  | @update _ p stamp text hprev _ _ ih =>
      obtain ⟨old, hold, hle⟩ := ih
      obtain ⟨new, hnew, hle'⟩ := exists_cached_update (hprev.wellFormed hw) p stamp text hold
      exact ⟨new, hnew, Nat.le_trans hle hle'⟩

theorem Follows.upToDate (h : Follows src w w') (hw : w.WellFormed) {path : Path}
    (hpath : w.UpToDate src path) : w'.UpToDate src path := by
  intro stamp text hs hr
  obtain ⟨t, ht, hle⟩ := hpath stamp text hs hr
  obtain ⟨t', ht', hle'⟩ := h.exists_cached hw ht
  exact ⟨t', ht', Nat.le_trans hle hle'⟩

theorem upToDate_visit (hw : w.WellFormed) (src : Source) (path : Path) :
    (w.visit src path).UpToDate src path := by
  intro stamp text hs hr
  have hvisit : w.visit src path = (w.update path stamp text).2 := by rw [visit, hs, hr]
  rw [hvisit, cached_update hw, if_pos (Path.same_refl _)]
  exact ⟨_, rfl, stamp_le_update hw path stamp text⟩

theorem upToDate_visitAll (hw : w.WellFormed) {paths : List Path} {path : Path}
    (h : path ∈ paths) : (w.visitAll src paths).UpToDate src path := by
  induction paths generalizing w with
  | nil => cases h
  | cons p rest ih =>
      have hw' := (w.visit_follows src p).wellFormed hw
      rcases List.mem_cons.1 h with rfl | h
      · exact (visitAll_follows _ src rest).upToDate hw' (upToDate_visit hw src path)
      · exact ih hw' h

/-- A question for a file that is up to date gives it a number and does nothing else. -/
theorem visit_of_upToDate (hw : w.WellFormed) {path : Path} (h : w.UpToDate src path) :
    w.visit src path = (w.number path).2 := by
  rw [visit]
  split
  · next stamp text hs hr =>
      obtain ⟨t, ht, hle⟩ := h stamp text hs hr
      rw [← cached_number hw path, cached, number?_number_self] at ht
      have hfresh : (w.number path).2.fresh? (w.number path).1 stamp = some t :=
        fresh?_eq_some_iff.2 ⟨ht, hle⟩
      simp only [update, hfresh]
  · rfl

theorem visitAll_visited (hw : w.WellFormed) {paths again : List Path} (h : again ⊆ paths) :
    (w.visitAll src paths).visitAll src again = w.visitAll src paths := by
  have hw' := (w.visitAll_follows src paths).wellFormed hw
  induction again with
  | nil => rfl
  | cons path rest ih =>
      obtain ⟨hpath, hrest⟩ := List.cons_subset.1 h
      have hnumber : ((w.visitAll src paths).number path).2 = w.visitAll src paths := by
        obtain ⟨seen, later, rfl⟩ := List.append_of_mem hpath
        have hn := (visitAll_follows _ src later).number?_eq_some
          ((w.visitAll src seen).number?_visit_self src path)
        rw [visitAll_append]
        exact congrArg Prod.snd (number_of_number?_eq_some hn)
      have hvisit := visit_of_upToDate hw' (upToDate_visitAll hw hpath)
      change ((w.visitAll src paths).visit src path).visitAll src rest = _
      rw [hvisit, hnumber, ih hrest]

/-- Going on with some files changes no table exactly if all of them are up to date. -/
theorem tables_visitAll_iff (hw : w.WellFormed) (paths : List Path) :
    (w.visitAll src paths).tables = w.tables ↔ ∀ path ∈ paths, w.UpToDate src path := by
  constructor
  · intro htables path hpath stamp text hs hr
    have hw' := (w.visitAll_follows src paths).wellFormed hw
    obtain ⟨t, ht, hle⟩ := upToDate_visitAll hw hpath stamp text hs hr
    have hmem : t ∈ w.tables := htables ▸ mem_of_cached ht
    exact ⟨t, by rw [cached_congr w (same_of_cached hw' ht), cached_eq_some_of_mem hw hmem], hle⟩
  · intro h
    induction paths generalizing w with
    | nil => rfl
    | cons path rest ih =>
        obtain ⟨hpath, hrest⟩ := List.forall_mem_cons.1 h
        have hfollows := w.visit_follows src path
        have hw' := hfollows.wellFormed hw
        have hlater := ih hw' fun p hp => hfollows.upToDate hw (hrest p hp)
        change ((w.visit src path).visitAll src rest).tables = w.tables
        rw [hlater, visit_of_upToDate hw hpath, tables_number]

end Workspace

namespace Scan

open Workspace

variable {src : Source}

theorem workspace_table (src : Source) (path : Path) (s : Scan) :
    (table src path s).2.workspace = s.workspace.visit src path := by
  cases asked_table src path s with
  | unstamped hs he => simp only [he, visit, hs]
  | fresh hs hf he =>
      rw [he]
      cases hr : src.read path <;> simp only [visit, update, hs, hf, hr]
  | unreadable hs _ hr he | read hs _ hr he => simp only [he, visit, hs, hr]

theorem live_table {s : Scan} (h : s.watch.Live) (path : Path) :
    (table src path s).2.watch.Live := by
  have hstamp := h.watchStamp src path
  cases asked_table src path s with
  | unstamped _ he | fresh _ _ he => rw [he]; exact hstamp
  | unreadable _ _ _ he | read _ _ _ he => rw [he]; exact hstamp.watchRead src path

/-- A scan comes to some files at the head of the list, and to all of them unless it is
cancelled. -/
theorem exists_visited (src : Source) (paths : List Path) (s : Scan) :
    ∃ seen skipped, paths = seen ++ skipped ∧
      (tablesOf src paths s).2.workspace = s.workspace.visitAll src seen ∧
      (s.watch.cancelled = true → seen = []) ∧
      (skipped ≠ [] → (tablesOf src paths s).2.watch.cancelled = true) := by
  induction paths generalizing s with
  | nil => exact ⟨[], [], rfl, rfl, fun _ => rfl, fun h => absurd rfl h⟩
  | cons path rest ih =>
      cases hc : s.watch.cancelled with
      | true =>
          rw [tablesOf_of_cancelled hc]
          exact ⟨[], path :: rest, rfl, rfl, fun _ => rfl, fun _ => hc⟩
      | false =>
          rw [tablesOf_cons hc]
          obtain ⟨seen, skipped, hsplit, hleft, -, hcancelled⟩ := ih (table src path s).2
          refine ⟨path :: seen, skipped, by rw [hsplit, List.cons_append], ?_,
            fun h => absurd h Bool.false_ne_true, hcancelled⟩
          rw [hleft, workspace_table]
          rfl

theorem live_tablesOf (paths : List Path) {s : Scan} (h : s.watch.Live) :
    (tablesOf src paths s).2.watch.Live := by
  induction paths generalizing s with
  | nil => exact h
  | cons path rest ih =>
      rw [tablesOf_cons h.1]
      exact ih (live_table h path)

theorem workspace_tablesOf (src : Source) (paths : List Path) {s : Scan} (h : s.watch.Live) :
    (tablesOf src paths s).2.workspace = s.workspace.visitAll src paths := by
  obtain ⟨seen, skipped, rfl, hleft, -, hcancelled⟩ := exists_visited src paths s
  have hnone : skipped = [] := by
    by_contra hne
    exact absurd (hcancelled hne) (by simp [(live_tablesOf _ h).1])
  rw [hleft, hnone, List.append_nil]

theorem tables_eq (src : Source) (s : Scan) : tables src s = tablesOf src src.paths s := by
  rw [tables, Source.paths]
  cases src.discover <;> rfl

theorem refresh_eq (src : Source) (s : Scan) :
    refresh src s =
      ((tablesOf src src.paths s).2.workspace.snapshot, (tablesOf src src.paths s).2) := by
  rw [refresh, tables_eq]

end Scan
end ProcedureIndex
