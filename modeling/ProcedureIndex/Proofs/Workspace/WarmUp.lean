import ProcedureIndex.Proofs.Workspace.Settling
import ProcedureIndex.Workspace.Loader

/-!
Loading a directory ahead of the first question. The files are then at hand under the
stamps that the source is going to have for them, so a scan of the same directory reads
none of them again, and it ends with the tables that a scan with nothing at hand ends with,
file numbers aside: a file that cannot be read gets its number at another moment.
-/

namespace ProcedureIndex

namespace Workspace

variable {src : Source} {w w' : Workspace} {path : Path}

/-- Two workspaces show the same under every path, file numbers aside. -/
def Alike (w w' : Workspace) : Prop :=
  ∀ path, (w.cached path).map FileTable.content = (w'.cached path).map FileTable.content

theorem Alike.number_right (h : w.Alike w') (hw' : w'.WellFormed) (path : Path) :
    w.Alike (w'.number path).2 := by
  intro q
  rw [cached_number hw', h q]

theorem Alike.exists_cached (h : w.Alike w') {t : FileTable} (ht : w.cached path = some t) :
    ∃ t', w'.cached path = some t' ∧ t'.content = t.content := by
  have hcontent := h path
  rw [ht, Option.map_some] at hcontent
  exact Option.map_eq_some_iff.1 hcontent.symm

theorem Alike.symm (h : w.Alike w') : w'.Alike w :=
  fun path => (h path).symm

/-- The same text leaves the same table under its path. -/
theorem Alike.content_update (h : w.Alike w') (hw : w.WellFormed) (hw' : w'.WellFormed)
    (path : Path) (stamp : Stamp) (text : Text) :
    (w.update path stamp text).1.content = (w'.update path stamp text).1.content := by
  have hstamp : ∀ {t t' : FileTable}, t'.content = t.content → t'.stamp = t.stamp :=
    fun he => congrArg (fun c => c.2.1) he
  rcases update_cases hw path stamp text with ⟨t, ht, hle, he⟩ | ⟨hold, file, he⟩
  · obtain ⟨t', ht', hcontent⟩ := h.exists_cached ht
    rcases update_cases hw' path stamp text with ⟨x, hx, -, he'⟩ | ⟨hold', -, -⟩
    · cases ht'.symm.trans hx
      rw [he, he', hcontent]
    · have hlt := hold' t' ht'
      rw [hstamp hcontent] at hlt
      exact absurd hlt (Nat.not_lt.2 hle)
  · rcases update_cases hw' path stamp text with ⟨t', ht', hle, -⟩ | ⟨-, file', he'⟩
    · obtain ⟨t, ht, hcontent⟩ := h.symm.exists_cached ht'
      have hlt := hold t ht
      rw [hstamp hcontent] at hlt
      exact absurd hlt (Nat.not_lt.2 hle)
    · rw [he, he', content_tabulate file file' (Path.same_refl path)]

theorem Alike.update (h : w.Alike w') (hw : w.WellFormed) (hw' : w'.WellFormed) (path : Path)
    (stamp : Stamp) (text : Text) :
    (w.update path stamp text).2.Alike (w'.update path stamp text).2 := by
  intro q
  rw [cached_update hw, cached_update hw']
  split
  · rw [Option.map_some, Option.map_some, h.content_update hw hw' path stamp text]
  · exact h q

/-- The table at hand is as new as the file. -/
def Holds (w : Workspace) (src : Source) (path : Path) : Prop :=
  ∃ stamp t, src.stamp path = .ok stamp ∧ w.cached path = some t ∧ stamp.ticks ≤ t.stamp.ticks

theorem Follows.holds (h : Follows src w w') (hw : w.WellFormed) (hpath : w.Holds src path) :
    w'.Holds src path := by
  obtain ⟨stamp, t, hs, ht, hle⟩ := hpath
  obtain ⟨t', ht', hle'⟩ := h.exists_cached hw ht
  exact ⟨stamp, t', hs, ht', Nat.le_trans hle hle'⟩

theorem Holds.upToDate (h : w.Holds src path) : w.UpToDate src path := by
  intro stamp text hs _
  obtain ⟨stamp', t, hs', ht, hle⟩ := h
  cases hs.symm.trans hs'
  exact ⟨t, ht, hle⟩

/-- Each of some files is at hand or cannot be read. -/
def Covers (w : Workspace) (src : Source) (paths : List Path) : Prop :=
  ∀ path ∈ paths, w.Holds src path ∨ ∃ e, src.read path = .error e

theorem Follows.covers {paths : List Path} (h : Follows src w w') (hw : w.WellFormed)
    (hpaths : w.Covers src paths) : w'.Covers src paths :=
  fun path hpath => (hpaths path hpath).imp_left (h.holds hw)

theorem Covers.upToDate {paths : List Path} (h : w.Covers src paths) :
    ∀ path ∈ paths, w.UpToDate src path := by
  intro path hpath
  rcases h path hpath with hholds | ⟨e, he⟩
  · exact hholds.upToDate
  · intro stamp text _ hr
    cases hr.symm.trans he

end Workspace

namespace Scan

open Workspace

variable {src : Source} {path : Path} {s : Scan}

/-- A file that is at hand is not read. -/
theorem table_of_holds (hw : s.workspace.WellFormed) (h : s.workspace.Holds src path) :
    ∃ t, s.workspace.cached path = some t ∧ table src path s =
      (.ok t, ⟨(s.workspace.number path).2, src.watchStamp path s.watch⟩) := by
  obtain ⟨stamp, t, hs, ht, hle⟩ := h
  have hfresh : (s.workspace.number path).2.fresh? (s.workspace.number path).1 stamp = some t := by
    rw [fresh?_eq_some_iff]
    have hnumbered := cached_number hw path path
    rw [ht, cached, number?_number_self] at hnumbered
    exact ⟨hnumbered, hle⟩
  exact ⟨t, ht, by simp only [table, hs, hfresh]⟩

theorem reads_watchStamp (src : Source) (path : Path) (w : Watch) :
    (src.watchStamp path w).reads = w.reads := by
  rw [Source.watchStamp, Watch.onStamp]
  split
  · split
    · rfl
    · split <;> rfl
  · rfl

theorem reads_table (hw : s.workspace.WellFormed)
    (h : s.workspace.Holds src path ∨ ∃ e, src.read path = .error e) :
    (table src path s).2.watch.reads = s.watch.reads := by
  rcases h with h | ⟨e, he⟩
  · obtain ⟨t, -, he⟩ := table_of_holds hw h
    rw [he]
    exact reads_watchStamp src path s.watch
  · have hread : ∀ w, src.watchRead path w = w := by
      intro w
      simp [Source.watchRead, Watch.onRead, he, Except.isOk, Except.toBool]
    cases asked_table src path s with
    | unstamped _ ht | fresh _ _ ht => rw [ht]; exact reads_watchStamp src path s.watch
    | unreadable _ _ _ ht => rw [ht, hread]; exact reads_watchStamp src path s.watch
    | read _ _ hr _ => cases he.symm.trans hr

/-- A scan of files that are at hand or cannot be read succeeds in no read. -/
theorem reads_tablesOf {paths : List Path} (hw : s.workspace.WellFormed)
    (h : s.workspace.Covers src paths) :
    (tablesOf src paths s).2.watch.reads = s.watch.reads := by
  induction paths generalizing s with
  | nil => rfl
  | cons path rest ih =>
      cases hc : s.watch.cancelled with
      | true => rw [tablesOf_of_cancelled hc]
      | false =>
          obtain ⟨hpath, hrest⟩ := List.forall_mem_cons.1 h
          have hfollows := table_follows src path s
          rw [tablesOf_cons hc]
          change (tablesOf src rest (table src path s).2).2.watch.reads = _
          rw [ih (hfollows.wellFormed hw) (hfollows.covers hw hrest), reads_table hw hpath]

/-- What stands in the files that are at hand makes no difference to a scan. -/
theorem tablesOf_unread {paths : List Path} (hw : s.workspace.WellFormed)
    {read : Path → Except AccessError Text}
    (h : ∀ path ∈ paths, s.workspace.Holds src path ∨ read path = src.read path) :
    tablesOf { src with read := read } paths s = tablesOf src paths s := by
  induction paths generalizing s with
  | nil => rfl
  | cons path rest ih =>
      cases hc : s.watch.cancelled with
      | true => rw [tablesOf_of_cancelled hc, tablesOf_of_cancelled hc]
      | false =>
          obtain ⟨hpath, hrest⟩ := List.forall_mem_cons.1 h
          have hfollows := table_follows src path s
          have htable : table { src with read := read } path s = table src path s := by
            rcases hpath with hholds | hread
            · obtain ⟨t, ht, he⟩ := table_of_holds hw hholds
              have hholds' : s.workspace.Holds { src with read := read } path := hholds
              obtain ⟨t', ht', he'⟩ := table_of_holds hw hholds'
              cases ht.symm.trans ht'
              exact he'.trans he.symm
            · simp only [table, Source.watchStamp, Source.watchRead, hread]
          rw [tablesOf_cons hc, tablesOf_cons hc, htable, ih (hfollows.wellFormed hw)]
          exact fun p hp => (hrest p hp).imp_left (hfollows.holds hw)

/-- A scan that was not cancelled has come to every file. -/
theorem tables_refresh_of_run (hrun : (refresh src s).2.watch.cancelled = false) :
    (refresh src s).1.tables = (s.workspace.visitAll src src.paths).tables := by
  rw [refresh_eq] at hrun ⊢
  obtain ⟨seen, skipped, hpaths, hleft, -, hcancelled⟩ := exists_visited src src.paths s
  have hall : skipped = [] := by
    by_contra hne
    rw [hcancelled hne] at hrun
    cases hrun
  rw [hall, List.append_nil] at hpaths
  rw [snapshot, hleft, hpaths]

end Scan

namespace Disk

open Workspace

variable {d : Disk} {path : Path}

/-- A file that has no stamp cannot be read either, for the same reason. -/
theorem read_of_stamp_eq_error {e : AccessError} (h : d.stamp path = .error e) :
    d.read path = .error e := by
  rw [stamp] at h
  rw [read]
  cases hf : d.find path with
  | file route f => simp [hf] at h
  | directory route => simp [hf] at h
  | missing cause => simpa [hf] using h

theorem loadFile_cases (d : Disk) (path : Path) (w : Workspace) :
    (∃ stamp text, d.stamp path = .ok stamp ∧ d.read path = .ok text ∧
      d.loadFile path w = .ok (w.update path stamp text).2) ∨
    ∃ e, d.read path = .error e ∧ d.loadFile path w = .error e := by
  cases hs : d.stamp path with
  | error e => exact .inr ⟨e, read_of_stamp_eq_error hs, by simp [loadFile, hs, bind, Except.bind]⟩
  | ok stamp =>
      cases hr : d.read path with
      | error e => exact .inr ⟨e, rfl, by simp [loadFile, hs, hr, bind, Except.bind]⟩
      | ok text =>
          refine .inl ⟨stamp, text, rfl, rfl, ?_⟩
          simp [loadFile, hs, hr, bind, Except.bind, pure, Except.pure]

def isReadable (d : Disk) (path : Path) : Bool :=
  (d.read path).isOk

theorem isReadable_of_ok {text : Text} (h : d.read path = .ok text) : d.isReadable path = true := by
  rw [isReadable, h]
  rfl

theorem isReadable_of_error {e : AccessError} (h : d.read path = .error e) :
    d.isReadable path = false := by
  rw [isReadable, h]
  rfl

/-- Every file is counted as loaded or listed as failed, and the failed ones are those that cannot
be read, in their order and with the reason. -/
theorem summary_loadFiles (d : Disk) (paths : List Path) (w : Workspace) :
    (d.loadFiles paths w).1.loaded + (d.loadFiles paths w).1.failed.length = paths.length ∧
    (d.loadFiles paths w).1.failed.map Prod.fst = paths.filter (!d.isReadable ·) ∧
    ∀ f ∈ (d.loadFiles paths w).1.failed, d.read f.1 = .error f.2 := by
  induction paths generalizing w with
  | nil => exact ⟨rfl, rfl, fun _ hf => absurd hf List.not_mem_nil⟩
  | cons path rest ih =>
      rcases d.loadFile_cases path w with ⟨stamp, text, -, hr, he⟩ | ⟨e, hr, he⟩
      · obtain ⟨hcount, hfailed, hreason⟩ := ih (w.update path stamp text).2
        simp only [loadFiles, he]
        refine ⟨?_, ?_, hreason⟩
        · rw [List.length_cons]
          omega
        · rw [hfailed, List.filter_cons_of_neg (by simp [isReadable_of_ok hr])]
      · obtain ⟨hcount, hfailed, hreason⟩ := ih w
        simp only [loadFiles, he]
        refine ⟨?_, ?_, List.forall_mem_cons.2 ⟨hr, hreason⟩⟩
        · rw [List.length_cons, List.length_cons]
          omega
        · rw [List.map_cons, hfailed, List.filter_cons_of_pos (by simp [isReadable_of_error hr])]

theorem loadFiles_follows (d : Disk) (config : Config) (paths : List Path) (w : Workspace) :
    Follows (d.source config) w (d.loadFiles paths w).2 := by
  induction paths generalizing w with
  | nil => exact .refl
  | cons path rest ih =>
      rcases d.loadFile_cases path w with ⟨stamp, text, hs, hr, he⟩ | ⟨e, -, he⟩
      · simp only [loadFiles, he]
        exact (Follows.update .refl hs hr).trans (ih _)
      · simp only [loadFiles, he]
        exact ih w

theorem holds_update {w : Workspace} (hw : w.WellFormed) {src : Source} {stamp : Stamp}
    (hs : src.stamp path = .ok stamp) (text : Text) :
    (w.update path stamp text).2.Holds src path := by
  refine ⟨stamp, (w.update path stamp text).1, hs, ?_, stamp_le_update hw path stamp text⟩
  rw [cached_update hw, if_pos (Path.same_refl path)]

/-- After loading, a file is at hand or cannot be read. -/
theorem covers_loadFiles {w : Workspace} (hw : w.WellFormed) (d : Disk) (config : Config)
    (paths : List Path) : (d.loadFiles paths w).2.Covers (d.source config) paths := by
  induction paths generalizing w with
  | nil => exact List.forall_mem_nil _
  | cons path rest ih =>
      rcases d.loadFile_cases path w with ⟨stamp, text, hs, hr, he⟩ | ⟨e, hr, he⟩
      · simp only [loadFiles, he]
        have hw' := hw.update path stamp text
        have hholds : (w.update path stamp text).2.Holds (d.source config) path :=
          holds_update hw hs text
        refine List.forall_mem_cons.2 ⟨.inl ?_, ih hw'⟩
        exact (d.loadFiles_follows config rest _).holds hw' hholds
      · simp only [loadFiles, he]
        exact List.forall_mem_cons.2 ⟨.inr ⟨e, hr⟩, ih hw⟩

/-- Loading some files leaves what questions for them leave, file numbers aside. -/
theorem alike_loadFiles {w w' : Workspace} (h : w.Alike w') (hw : w.WellFormed)
    (hw' : w'.WellFormed) (d : Disk) (config : Config) (paths : List Path) :
    (d.loadFiles paths w).2.Alike (w'.visitAll (d.source config) paths) := by
  induction paths generalizing w w' with
  | nil => exact h
  | cons path rest ih =>
      have hnext := (w'.visit_follows (d.source config) path).wellFormed hw'
      change (d.loadFiles (path :: rest) w).2.Alike
        ((w'.visit (d.source config) path).visitAll (d.source config) rest)
      rcases d.loadFile_cases path w with ⟨stamp, text, hs, hr, he⟩ | ⟨e, hr, he⟩
      · have hvisit : w'.visit (d.source config) path = (w'.update path stamp text).2 := by
          simp only [Workspace.visit, source, hs, hr]
        simp only [loadFiles, he]
        apply ih _ (hw.update path stamp text) hnext
        rw [hvisit]
        exact h.update hw hw' path stamp text
      · have hvisit : w'.visit (d.source config) path = (w'.number path).2 := by
          simp only [Workspace.visit, source, hr]
          cases d.stamp path <;> rfl
        simp only [loadFiles, he]
        apply ih _ hw hnext
        rw [hvisit]
        exact h.number_right hw' path

theorem routeBefore_total (a b : Route) : (routeBefore a b || routeBefore b a) = true := by
  induction a generalizing b with
  | nil => rfl
  | cons x xs ih =>
      cases b with
      | nil => rfl
      | cons y ys =>
          rw [routeBefore, routeBefore]
          by_cases hxy : x = y
          · rw [if_pos hxy, if_pos hxy.symm]
            exact ih ys
          · rw [if_neg hxy, if_neg (Ne.symm hxy)]
            by_contra hnone
            simp only [Bool.or_eq_true, decide_eq_true_eq, not_or, List.not_lt] at hnone
            exact hxy (List.le_antisymm hnone.2 hnone.1)

theorem routeBefore_trans (a b c : Route) (hab : routeBefore a b = true)
    (hbc : routeBefore b c = true) : routeBefore a c = true := by
  induction a generalizing b c with
  | nil => rfl
  | cons x xs ih =>
      cases b with
      | nil => cases hab
      | cons y ys =>
          cases c with
          | nil => cases hbc
          | cons z zs =>
              rw [routeBefore] at hab hbc ⊢
              by_cases hxy : x = y
              · by_cases hyz : y = z
                · rw [if_pos (hxy.trans hyz)]
                  rw [if_pos hxy] at hab
                  rw [if_pos hyz] at hbc
                  exact ih ys zs hab hbc
                · subst hxy
                  rwa [if_neg hyz] at hbc ⊢
              · rw [if_neg hxy, decide_eq_true_eq] at hab
                by_cases hyz : y = z
                · rw [← hyz, if_neg hxy]
                  exact decide_eq_true hab
                · rw [if_neg hyz, decide_eq_true_eq] at hbc
                  have hxz : x < z := List.lt_trans hab hbc
                  have hne : x ≠ z := by
                    rintro rfl
                    exact List.lt_irrefl x hxz
                  rw [if_neg hne]
                  exact decide_eq_true hxz

/-- How the file at the end of a route is spelled below a directory. -/
def spell (directory : Path) (route r : Route) : Path :=
  (r.drop route.length).foldl Path.join directory

/-- The files below a directory are walked in the order of their names, and those with the ending of
a source are its sources. -/
theorem exists_walk {route : Route} (h : d.find path = .directory route) (config : Config) :
    ∃ routes : List Route, routes.Perm ((d.files.map Prod.fst).filter (isWithin route)) ∧
      (routes.Pairwise fun a b => routeBefore a b = true) ∧
      d.sources config path = .ok ((routes.map (spell path route)).filter config.isSource) := by
  refine ⟨((d.files.map Prod.fst).filter (isWithin route)).mergeSort routeBefore,
    List.mergeSort_perm _ _, ?_, ?_⟩
  · exact List.pairwise_mergeSort routeBefore_trans routeBefore_total _
  · rw [sources, h]
    rfl

/-- Loading a directory counts every source file in it once, as loaded or as failed, and lists the
failed ones, which are those that cannot be read, in walking order. A scan of the directory that
follows succeeds in no read, and what stands in the loaded files makes no difference to it; unless
it is cancelled it ends with the tables of a scan that nothing was loaded for, file numbers
aside. -/
theorem warm_up_transparent (d : Disk) (config : Config) {route : Route}
    (hroot : d.find d.root = .directory route) :
    ∃ (routes : List Route) (summary : LoadSummary) (loaded : Workspace),
      let paths := (routes.map (spell d.root route)).filter config.isSource
      routes.Perm ((d.files.map Prod.fst).filter (isWithin route)) ∧
      (routes.Pairwise fun a b => routeBefore a b = true) ∧
      d.loadDirectory config d.root {} = .ok (summary, loaded) ∧
      summary.loaded + summary.failed.length = paths.length ∧
      summary.failed.map Prod.fst = paths.filter (!d.isReadable ·) ∧
      (∀ f ∈ summary.failed, d.read f.1 = .error f.2) ∧
      ∀ watch,
        let warm := Scan.refresh (d.source config) ⟨loaded, watch⟩
        warm.2.watch.reads = watch.reads ∧
        (∀ read, (∀ f ∈ summary.failed, read f.1 = d.read f.1) →
          Scan.refresh { d.source config with read := read } ⟨loaded, watch⟩ = warm) ∧
        ∀ watch',
          let cold := Scan.refresh (d.source config) ⟨{}, watch'⟩
          warm.2.watch.cancelled = false → cold.2.watch.cancelled = false →
            (warm.1.tables.map FileTable.content).Perm (cold.1.tables.map FileTable.content) := by
  obtain ⟨routes, hperm, hsorted, hsources⟩ := exists_walk hroot config
  let paths := (routes.map (spell d.root route)).filter config.isSource
  have hpaths : (d.source config).paths = paths := by
    rw [Source.paths, source, hsources]
    rfl
  have hload : d.loadDirectory config d.root {} = .ok (d.loadFiles paths {}) := by
    rw [loadDirectory, hsources]
    rfl
  obtain ⟨hcount, hfailed, hreason⟩ := d.summary_loadFiles paths {}
  have hw := (d.loadFiles_follows config paths {}).wellFormed wellFormed_empty
  have hcovers := covers_loadFiles wellFormed_empty d config paths
  have halike := alike_loadFiles (fun _ => rfl) wellFormed_empty wellFormed_empty d config paths
  refine ⟨routes, _, _, hperm, hsorted, hload, hcount, hfailed, hreason, ?_⟩
  intro watch
  refine ⟨?_, ?_, ?_⟩
  · rw [Scan.refresh_eq, hpaths]
    exact Scan.reads_tablesOf hw hcovers
  · intro read hread
    have hsame : ({ d.source config with read := read } : Source).paths = paths := hpaths
    rw [Scan.refresh_eq, Scan.refresh_eq, hpaths, hsame, Scan.tablesOf_unread hw]
    intro path hpath
    refine (hcovers path hpath).imp_right ?_
    rintro ⟨e, he⟩
    have hunread : path ∈ (d.loadFiles paths {}).1.failed.map Prod.fst := by
      rw [hfailed, List.mem_filter]
      exact ⟨hpath, by simp [isReadable_of_error he]⟩
    obtain ⟨f, hf, rfl⟩ := List.mem_map.1 hunread
    exact hread f hf
  · intro watch' cold hwarm hcold
    have hwarmed := Scan.tables_refresh_of_run hwarm
    have hcooled := Scan.tables_refresh_of_run hcold
    rw [hpaths] at hwarmed hcooled
    rw [hwarmed, hcooled, (tables_visitAll_iff hw paths).2 hcovers.upToDate]
    exact content_perm hw ((visitAll_follows _ _ paths).wellFormed wellFormed_empty) halike

def halfReadable : Disk where
  root := ⟨"/w"⟩
  home := ["w".toList]
  now := ⟨9⟩
  files :=
    [(["w".toList, "a.method".toList], ⟨⟨1⟩, "fn a() \x7b\x7d".toUTF8⟩),
      (["w".toList, "a.txt".toList], ⟨⟨1⟩, "fn t() \x7b\x7d".toUTF8⟩),
      (["w".toList, "b.method".toList], ⟨⟨2⟩, ⟨#[0xff]⟩⟩),
      (["w".toList, "c.method".toList], ⟨⟨3⟩, "fn c() \x7b\x7d".toUTF8⟩)]
  locked := [["w".toList, "c.method".toList]]
  directories := [[], ["w".toList]]

theorem sources_halfReadable :
    halfReadable.sources {} halfReadable.root =
      .ok [⟨"/w/a.method"⟩, ⟨"/w/b.method"⟩, ⟨"/w/c.method"⟩] := by
  have hroot : halfReadable.find halfReadable.root = .directory ["w".toList] := rfl
  rw [sources, hroot]
  dsimp only
  -- The files are written down in walking order.
  rw [List.mergeSort_of_pairwise (by decide +kernel)]
  decide +kernel

theorem warm_up_transparent_halfReadable :
    halfReadable.find halfReadable.root = .directory ["w".toList] ∧
    ∃ (summary : LoadSummary) (loaded : Workspace),
      halfReadable.loadDirectory {} halfReadable.root {} = .ok (summary, loaded) ∧
      summary.loaded = 1 ∧
      summary.failed.map Prod.fst = [⟨"/w/b.method"⟩, ⟨"/w/c.method"⟩] ∧
      (Scan.refresh (halfReadable.source {}) ⟨loaded, {}⟩).2.watch.reads = 0 ∧
      ((Scan.refresh (halfReadable.source {}) ⟨loaded, {}⟩).1.tables.map FileTable.content).Perm
        ((Scan.refresh (halfReadable.source {}) ⟨{}, {}⟩).1.tables.map FileTable.content) := by
  have hroot : halfReadable.find halfReadable.root = .directory ["w".toList] := rfl
  have hlive : ∀ w, (Scan.refresh (halfReadable.source {}) ⟨w, {}⟩).2.watch.cancelled = false := by
    intro w
    rw [Scan.refresh_eq]
    exact (Scan.live_tablesOf _ Watch.live_empty).1
  have hsummary : ((halfReadable.loadDirectory {} halfReadable.root {}).toOption.map fun r =>
      (r.1.loaded, r.1.failed.map Prod.fst)) = some (1, [⟨"/w/b.method"⟩, ⟨"/w/c.method"⟩]) := by
    rw [loadDirectory, sources_halfReadable]
    decide +kernel
  obtain ⟨-, summary, loaded, -, -, hload, -, -, -, hscan⟩ :=
    warm_up_transparent halfReadable {} hroot
  obtain ⟨hreads, -, hcold⟩ := hscan {}
  rw [hload] at hsummary
  obtain ⟨hcount, hfailed⟩ := Prod.mk.inj (Option.some.inj hsummary)
  exact ⟨hroot, summary, loaded, hload, hcount, hfailed, hreads,
    hcold {} (hlive loaded) (hlive {})⟩

end Disk
end ProcedureIndex
