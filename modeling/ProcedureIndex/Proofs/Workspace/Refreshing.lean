import Mathlib.Data.List.Induction
import Mathlib.Data.List.Perm.Basic
import ProcedureIndex.Proofs.Workspace.Edits
import ProcedureIndex.Proofs.Workspace.Scanning

/-!
A refreshed workspace against the symbols collected from the same files. Both come to
every file once, but a collection answers with the tables that it came to and a
refreshed workspace with every table there is. They differ by the tables of files that
are gone, and of files that changed and cannot be read any more.
-/

namespace ProcedureIndex

namespace PathMap

variable {β : Type}

/-- No path is there under two spellings. -/
def Distinct (m : PathMap β) : Prop :=
  m.paths.Pairwise fun p q => p.same q = false

theorem mem_paths_put {p q : Path} {b : β} {entries : List (Path × β)}
    (h : q ∈ (put p b entries).map Prod.fst) : q = p ∨ q ∈ entries.map Prod.fst := by
  induction entries with
  | nil => simpa [put] using h
  | cons e rest ih =>
      rw [put] at h
      split at h
      · exact .inr h
      · rcases List.mem_cons.1 h with rfl | h
        · exact .inr List.mem_cons_self
        · exact (ih h).imp_right (List.mem_cons_of_mem _)

theorem Distinct.insert {m : PathMap β} (h : m.Distinct) (p : Path) (b : β) :
    (m.insert p b).Distinct := by
  obtain ⟨entries⟩ := m
  change ((put p b entries).map Prod.fst).Pairwise fun p q => p.same q = false
  change (entries.map Prod.fst).Pairwise fun p q => p.same q = false at h
  induction entries with
  | nil => exact List.pairwise_singleton ..
  | cons e rest ih =>
      obtain ⟨r, x⟩ := e
      obtain ⟨hr, hrest⟩ := List.pairwise_cons.1 h
      rw [put]
      split
      · exact h
      · next hne =>
          refine List.pairwise_cons.2 ⟨?_, ih hrest⟩
          intro q hq
          rcases mem_paths_put hq with rfl | hq
          · exact Bool.eq_false_iff.2 hne
          · exact hr q hq

theorem Distinct.erase {m : PathMap β} (h : m.Distinct) (p : Path) : (m.erase p).Distinct :=
  h.sublist (List.filter_sublist.map Prod.fst)

@[simp] theorem paths_modify (m : PathMap β) (p : Path) (f : β → β) :
    (m.modify p f).paths = m.paths := by
  simp only [paths, modify, List.map_map]
  apply List.map_congr_left
  intro e _
  simp only [Function.comp]
  split <;> rfl

theorem Distinct.modify {m : PathMap β} (h : m.Distinct) (p : Path) (f : β → β) :
    (m.modify p f).Distinct := by
  rw [Distinct, paths_modify]
  exact h

theorem exists_mem_paths {m : PathMap β} {p : Path} {b : β} (h : m.get? p = some b) :
    ∃ q ∈ m.paths, q.same p = true := by
  obtain ⟨e, he, -⟩ := Option.map_eq_some_iff.1 h
  exact ⟨e.1, List.mem_map_of_mem (List.mem_of_find?_eq_some he), by simpa using List.find?_some he⟩

theorem isSome_get?_of_mem_paths {m : PathMap β} {p : Path} (h : p ∈ m.paths) :
    (m.get? p).isSome := by
  obtain ⟨e, he, rfl⟩ := List.mem_map.1 h
  rw [← contains_eq_isSome, contains, List.any_eq_true]
  exact ⟨e, he, Path.same_refl _⟩

end PathMap

namespace Memory

theorem distinct_edit {m : Memory} (h : m.files.Distinct) (e : Edit) :
    (m.edit e).files.Distinct := by
  cases e with
  | set path text =>
      simp only [edit]
      cases hr : m.set path text with
      | error _ => exact h
      | ok r =>
          obtain ⟨stamp, m'⟩ := r
          obtain ⟨-, rfl⟩ := set_eq_ok hr
          exact h.insert path _
  | touch path =>
      simp only [edit]
      cases hr : m.touch path with
      | error _ => exact h
      | ok r =>
          obtain ⟨found, m'⟩ := r
          change m'.files.Distinct
          rw [(touch_eq_ok hr).2]
          exact h.modify path _
  | remove path => exact h.erase path
  | markUnreadable path => exact h.modify path _

/-- The file of a table is gone, or has changed since and cannot be read. -/
def lost (m : Memory) (t : FileTable) : Bool :=
  match m.files.get? t.path with
  | none => true
  | some f => f.unreadable && f.stamp.isNewerThan t.stamp

theorem lost_eq_false_iff {m : Memory} {t : FileTable} :
    m.lost t = false ↔
      ∃ f, m.files.get? t.path = some f ∧
        (f.unreadable = true → f.stamp.ticks ≤ t.stamp.ticks) := by
  rw [lost]
  cases m.files.get? t.path with
  | none => simp
  | some f => cases hf : f.unreadable <;> simp [hf, Stamp.isNewerThan]

end Memory

namespace Workspace

variable {m : Memory} {w w' : Workspace}

theorem same_of_cached {p : Path} {t : FileTable} (hw : w.WellFormed)
    (h : w.cached p = some t) : p.same t.path = true := by
  obtain ⟨hn, ht⟩ := cached_eq_some_iff.1 h
  exact same_of_number? hn (hw.numbered t (mem_of_table? ht))

theorem find?_of_mem {ts : List FileTable}
    (h : ts.Pairwise fun a b => a.file.index < b.file.index) {t : FileTable} (ht : t ∈ ts) :
    ts.find? (·.file = t.file) = some t := by
  induction ts with
  | nil => cases ht
  | cons x xs ih =>
      obtain ⟨hx, hxs⟩ := List.pairwise_cons.1 h
      rcases List.mem_cons.1 ht with rfl | ht
      · simp
      · have hne : x.file ≠ t.file := fun he => Nat.lt_irrefl _ (he ▸ hx t ht)
        rw [List.find?_cons_of_neg (by simpa using hne), ih hxs ht]

theorem cached_eq_some_of_mem (hw : w.WellFormed) {t : FileTable} (ht : t ∈ w.tables) :
    w.cached t.path = some t :=
  cached_eq_some_iff.2 ⟨hw.numbered t ht, find?_of_mem hw.ordered ht⟩

theorem mem_of_cached {p : Path} {t : FileTable} (h : w.cached p = some t) : t ∈ w.tables :=
  mem_of_table? (cached_eq_some_iff.1 h).2

/-- While the files in memory stay as they are, only a file that can be read and is newer than its
table gets another table. -/
theorem Follows.cached_memory (h : Follows m.source w w') (hw : w.WellFormed) (p : Path) :
    w'.cached p = w.cached p ∨
      ∃ f, m.files.get? p = some f ∧ f.unreadable = false ∧
        ∀ old, w.cached p = some old → old.stamp.ticks < f.stamp.ticks := by
  induction h with
  | refl => exact .inl rfl
  | number q hprev ih => rwa [cached_number (hprev.wellFormed hw)]
  | @update v q stamp text hprev hs ht ih =>
      rw [cached_update (hprev.wellFormed hw)]
      split
      · next hq =>
          rw [← PathMap.get?_congr _ hq] at ih ⊢
          rcases update_cases (hprev.wellFormed hw) q stamp text with
            ⟨x, hx, -, he⟩ | ⟨hold, file, he⟩
          · rwa [he, ← hx, cached_congr _ hq]
          · obtain ⟨f, hf, rfl⟩ := Memory.stamp_eq_ok_iff.1 hs
            obtain ⟨g, hg, hread, -⟩ := Memory.read_eq_ok_iff.1 ht
            cases hf.symm.trans hg
            refine .inr ⟨f, hf, hread, ?_⟩
            rcases ih with hsame | ⟨g, hg, -, hnewer⟩
            · rwa [← hsame, ← cached_congr _ hq]
            · cases hf.symm.trans hg
              exact hnewer
      · exact ih

theorem lost_of_cached (hw : w.WellFormed) {p : Path} {t : FileTable} {f : MemoryFile}
    (ht : w.cached p = some t) (hf : m.files.get? p = some f) :
    m.lost t = (f.unreadable && f.stamp.isNewerThan t.stamp) := by
  rw [PathMap.get?_congr _ (same_of_cached hw ht)] at hf
  rw [Memory.lost, hf]

/-- A lost table is lost for good: no question to the files changes it or brings it back. -/
theorem Follows.mem_iff_of_lost (h : Follows m.source w w') (hw : w.WellFormed) {t : FileTable}
    (ht : m.lost t = true) : t ∈ w'.tables ↔ t ∈ w.tables := by
  have hsame : w'.cached t.path = w.cached t.path := by
    rcases h.cached_memory hw t.path with hsame | ⟨f, hf, hread, -⟩
    · exact hsame
    · rw [Memory.lost, hf] at ht
      simp [hread] at ht
  constructor
  · intro hmem
    exact mem_of_cached (hsame ▸ cached_eq_some_of_mem (h.wellFormed hw) hmem)
  · intro hmem
    exact mem_of_cached (hsame.symm ▸ cached_eq_some_of_mem hw hmem)

end Workspace

namespace Scan

open Workspace

variable {m : Memory}

/-- A question for a file in memory is answered with a table that is as new as the file, unless the
file has changed and cannot be read; then the table stays. -/
theorem table_memory {s : Scan} (hw : s.workspace.WellFormed) {path : Path} {f : MemoryFile}
    (hf : m.files.get? path = some f) :
    (∃ t, (table m.source path s).1 = .ok t ∧
      (table m.source path s).2.workspace.cached path = some t ∧
      f.stamp.ticks ≤ t.stamp.ticks) ∨
    (∃ e, (table m.source path s).1 = .error e ∧ f.unreadable = true ∧
      (table m.source path s).2.workspace.cached path = s.workspace.cached path ∧
      ∀ old, s.workspace.cached path = some old → old.stamp.ticks < f.stamp.ticks) := by
  have hs : m.source.stamp path = .ok f.stamp := Memory.stamp_eq_ok_iff.2 ⟨f, hf, rfl⟩
  have hcached : (s.workspace.number path).2.table? (s.workspace.number path).1 =
      s.workspace.cached path := by
    rw [← cached_number hw path path, cached, number?_number_self]
    rfl
  cases asked_table m.source path s with
  | unstamped hs' he => cases hs.symm.trans hs'
  | @fresh stamp t hs' hfresh he =>
      cases hs.symm.trans hs'
      obtain ⟨ht, hle⟩ := fresh?_eq_some_iff.1 hfresh
      rw [he]
      exact .inl ⟨t, rfl, by rw [cached_number hw, ← hcached, ht], hle⟩
  | @unreadable stamp e hs' hstale hunread he =>
      cases hs.symm.trans hs'
      rw [he]
      refine .inr ⟨e, rfl, ?_, cached_number hw path path, ?_⟩
      · by_contra hreadable
        have hok := Memory.read_eq_ok_iff.2 ⟨f, hf, Bool.eq_false_iff.2 hreadable, rfl⟩
        rw [hunread] at hok
        cases hok
      · rw [← hcached]
        exact fresh?_eq_none_iff.1 hstale
  | @read stamp text hs' hstale hheld he =>
      cases hs.symm.trans hs'
      rw [he]
      exact .inl ⟨_, rfl, by rw [cached_update hw, if_pos (Path.same_refl _)],
        stamp_le_update hw path f.stamp text⟩

/-- Behind its own question the table of a path is as new as can be, so it stays. -/
theorem table_memory_stays {path : Path} (rest : List Path) {s : Scan} {f : MemoryFile}
    (hw : s.workspace.WellFormed) (hf : m.files.get? path = some f) :
    (table m.source path s).1.toOption =
      ((tablesOf m.source rest (table m.source path s).2).2.workspace.cached path).filter
        fun t => !m.lost t := by
  have hw' := (table_follows m.source path s).wellFormed hw
  have hfollows := tablesOf_follows m.source rest (table m.source path s).2
  have hkept := hfollows.cached_memory hw' path
  rcases table_memory hw hf with ⟨t, hanswer, ht, hle⟩ | ⟨e, hanswer, hunread, hstays, hold⟩
  · rw [ht] at hkept
    have hsame := hkept.resolve_right (by
      rintro ⟨g, hg, -, hnewer⟩
      cases hf.symm.trans hg
      exact absurd (hnewer t rfl) (Nat.not_lt.2 hle))
    have hlost : m.lost t = false := by
      rw [lost_of_cached (hfollows.wellFormed hw') hsame hf]
      simp [Stamp.isNewerThan, hle]
    rw [hanswer, hsame, Option.filter_some, if_pos (by rw [hlost]; rfl)]
    rfl
  · have hsame := hkept.resolve_right (by
      rintro ⟨g, hg, hread, -⟩
      cases hf.symm.trans hg
      rw [hunread] at hread
      cases hread)
    rw [hanswer, hsame, hstays]
    refine (Option.filter_eq_none_iff.2 ?_).symm
    intro t ht
    have hlost := lost_of_cached (m := m) hw ht hf
    simp [hlost, hunread, Stamp.isNewerThan, hold t ht]

/-- The answers of a scan that is not cancelled: for each path the table that it has in the end,
unless that table is lost. -/
theorem tablesOf_memory {paths : List Path} {s : Scan} (hw : s.workspace.WellFormed)
    (hpaths : ∀ p ∈ paths, (m.files.get? p).isSome)
    (hrun : (tablesOf m.source paths s).2.watch.cancelled = false) :
    (tablesOf m.source paths s).1 = paths.filterMap fun p =>
      ((tablesOf m.source paths s).2.workspace.cached p).filter fun t => !m.lost t := by
  induction paths generalizing s with
  | nil => rfl
  | cons p rest ih =>
      have hc : s.watch.cancelled = false := by
        cases hc : s.watch.cancelled with
        | true =>
            rw [tablesOf_of_cancelled hc, hc] at hrun
            exact hrun
        | false => rfl
      obtain ⟨f, hf⟩ := Option.isSome_iff_exists.1 (hpaths p List.mem_cons_self)
      have hhead := table_memory_stays rest hw hf
      rw [tablesOf_cons hc] at hrun ⊢
      have hrest := ih ((table_follows m.source p s).wellFormed hw)
        (fun q hq => hpaths q (List.mem_cons_of_mem p hq)) hrun
      rw [List.filterMap_cons, ← hhead, hrest]
      cases (table m.source p s).1.toOption <;> rfl

/-- A scan that is not cancelled answers with every table of the workspace it leaves, the lost ones
apart, and with each once. -/
theorem tables_perm (hm : m.files.Distinct) {s : Scan} (hw : s.workspace.WellFormed)
    (hrun : (tables m.source s).2.watch.cancelled = false) :
    (tables m.source s).1.Perm
      ((tables m.source s).2.workspace.tables.filter fun t => !m.lost t) := by
  have htables : tables m.source s = tablesOf m.source m.files.paths s := rfl
  have hw' := (tables_follows m.source s).wellFormed hw
  have hanswers := tablesOf_memory hw (fun _ => PathMap.isSome_get?_of_mem_paths) hrun
  rw [← htables] at hanswers
  have hnodup : (tables m.source s).1.Nodup := by
    rw [hanswers, List.Nodup, List.pairwise_filterMap]
    refine hm.imp ?_
    intro p q hpq t ht x hx htx
    have hp := same_of_cached hw' (Option.filter_eq_some_iff.1 ht).1
    have hq := same_of_cached hw' (Option.filter_eq_some_iff.1 hx).1
    rw [Path.same_congr hq, ← htx, hp] at hpq
    cases hpq
  have hordered : (tables m.source s).2.workspace.tables.Nodup := by
    apply hw'.ordered.imp
    intro a b hab he
    subst b
    exact Nat.lt_irrefl _ hab
  rw [List.perm_ext_iff_of_nodup hnodup (hordered.filter _)]
  intro t
  rw [hanswers, List.mem_filterMap, List.mem_filter]
  constructor
  · rintro ⟨p, -, hp⟩
    obtain ⟨ht, hkept⟩ := Option.filter_eq_some_iff.1 hp
    exact ⟨mem_of_cached ht, hkept⟩
  · rintro ⟨ht, hkept⟩
    obtain ⟨f, hf, -⟩ := Memory.lost_eq_false_iff.1 (by simpa using hkept)
    obtain ⟨p, hp, hsame⟩ := PathMap.exists_mem_paths hf
    refine ⟨p, hp, Option.filter_eq_some_iff.2 ⟨?_, hkept⟩⟩
    rw [cached_congr _ hsame]
    exact cached_eq_some_of_mem hw' ht

end Scan

structure Upkeep where
  workspace : Workspace := {}
  memory : Memory := {}

namespace Upkeep

inductive Step where
  | table (path : Path) (watch : Watch)
  | symbols (condition : Symbol → Bool) (watch : Watch)
  | refresh (watch : Watch)
  | edit (change : Edit)

def step (u : Upkeep) : Step → Upkeep
  | .table path watch =>
      { u with workspace := (Scan.table u.memory.source path ⟨u.workspace, watch⟩).2.workspace }
  | .symbols condition watch =>
      { u with
        workspace := (Scan.symbols u.memory.source condition ⟨u.workspace, watch⟩).2.workspace }
  | .refresh watch =>
      { u with workspace := (Scan.refresh u.memory.source ⟨u.workspace, watch⟩).2.workspace }
  | .edit change => { u with memory := u.memory.edit change }

def after (steps : List Step) : Upkeep :=
  steps.foldl step {}

structure Sound (u : Upkeep) : Prop where
  workspace : u.workspace.WellFormed
  memory : u.memory.files.Distinct

theorem Sound.step {u : Upkeep} (h : u.Sound) (a : Step) : (u.step a).Sound := by
  cases a with
  | table path watch => exact ⟨(Scan.table_follows _ path _).wellFormed h.workspace, h.memory⟩
  | symbols condition watch =>
      exact ⟨(Scan.tables_follows u.memory.source ⟨u.workspace, watch⟩).wellFormed h.workspace,
        h.memory⟩
  | refresh watch =>
      exact ⟨(Scan.refresh_follows _ ⟨u.workspace, watch⟩).wellFormed h.workspace, h.memory⟩
  | edit change => exact ⟨h.workspace, Memory.distinct_edit h.memory change⟩

theorem sound_after (steps : List Step) : (after steps).Sound := by
  induction steps using List.reverseRecOn with
  | nil => exact ⟨Workspace.wellFormed_empty, .nil⟩
  | append_singleton steps a ih =>
      rw [after, List.foldl_append]
      exact ih.step a

def collected (u : Upkeep) (watch : Watch) : List Symbol :=
  (Scan.symbols u.memory.source (fun _ => true) ⟨u.workspace, watch⟩).1

def refreshed (u : Upkeep) (watch : Watch) : Snapshot × Scan :=
  Scan.refresh u.memory.source ⟨u.workspace, watch⟩

theorem collected_perm {u : Upkeep} (h : u.Sound) {watch : Watch}
    (hrun : (u.refreshed watch).2.watch.cancelled = false) :
    (u.collected watch).Perm
      (((u.refreshed watch).1.tables.filter fun t => !u.memory.lost t).flatMap
        fun t => t.declared.all) := by
  have hall : u.collected watch =
      (Scan.tables u.memory.source ⟨u.workspace, watch⟩).1.flatMap fun t => t.declared.all := by
    simp only [collected, Scan.symbols, List.filter_true]
  rw [hall]
  exact (Scan.tables_perm h.memory h.workspace hrun).flatMap_right _

theorem mem_refreshed_of_lost {u : Upkeep} (h : u.Sound) (watch : Watch) {t : FileTable}
    (ht : u.memory.lost t = true) :
    t ∈ (u.refreshed watch).1.tables ↔ t ∈ u.workspace.tables :=
  (Scan.refresh_follows u.memory.source ⟨u.workspace, watch⟩).mem_iff_of_lost h.workspace ht

/-- Whatever was asked and changed before, the symbols that a scan collects are those of the
workspace that a refreshing leaves, without the tables of files that are gone or have changed and
cannot be read. Those tables stay, so the two agree exactly when the lost tables declare nothing. -/
theorem refresh_agrees_iff (steps : List Step) {watch : Watch}
    (hrun : ((after steps).refreshed watch).2.watch.cancelled = false) :
    ((after steps).collected watch).Perm
      ((((after steps).refreshed watch).1.tables.filter
        fun t => !(after steps).memory.lost t).flatMap fun t => t.declared.all) ∧
    (∀ t, (after steps).memory.lost t = true →
      (t ∈ ((after steps).refreshed watch).1.tables ↔ t ∈ (after steps).workspace.tables)) ∧
    (((after steps).refreshed watch).1.symbols.Perm ((after steps).collected watch) ↔
      ∀ t ∈ (after steps).workspace.tables,
        (after steps).memory.lost t = true → t.declared.all = []) := by
  have hsound := sound_after steps
  have hcollected := collected_perm hsound hrun
  have hlost : ∀ t, (after steps).memory.lost t = true →
      (t ∈ ((after steps).refreshed watch).1.tables ↔ t ∈ (after steps).workspace.tables) :=
    fun t => mem_refreshed_of_lost hsound watch
  refine ⟨hcollected, hlost, ?_⟩
  generalize after steps = u at *
  have hsplit : (u.refreshed watch).1.symbols.Perm
      (u.collected watch ++ ((u.refreshed watch).1.tables.filter u.memory.lost).flatMap
        fun t => t.declared.all) := by
    have hparts := (List.filter_append_perm (fun t => !u.memory.lost t)
      (u.refreshed watch).1.tables).symm.flatMap_right fun t => t.declared.all
    simp only [List.flatMap_append, Bool.not_not] at hparts
    exact hparts.trans (hcollected.symm.append_right _)
  constructor
  · intro hperm t ht hgone
    have hlength := (hsplit.symm.trans hperm).length_eq
    rw [List.length_append] at hlength
    have hempty : ((u.refreshed watch).1.tables.filter u.memory.lost).flatMap
        (fun t => t.declared.all) = [] := List.length_eq_zero_iff.1 (by omega)
    exact List.flatMap_eq_nil_iff.1 hempty t (List.mem_filter.2 ⟨(hlost t hgone).2 ht, hgone⟩)
  · intro hnothing
    have hempty : ((u.refreshed watch).1.tables.filter u.memory.lost).flatMap
        (fun t => t.declared.all) = [] := by
      rw [List.flatMap_eq_nil_iff]
      intro t ht
      obtain ⟨hmem, hgone⟩ := List.mem_filter.1 ht
      exact hnothing t ((hlost t hgone).1 hmem) hgone
    rwa [hempty, List.append_nil] at hsplit

def unreadableAfterChange : List Step :=
  [.edit (.set ⟨"/a.method"⟩ "fn a() {}".toList), .refresh {}, .edit (.touch ⟨"/a.method"⟩),
    .edit (.markUnreadable ⟨"/a.method"⟩)]

theorem refresh_keeps_unreadable_file :
    ((after unreadableAfterChange).refreshed {}).2.watch.cancelled = false ∧
      (after unreadableAfterChange).collected {} = [] ∧
      ¬ ((after unreadableAfterChange).refreshed {}).1.symbols.Perm
        ((after unreadableAfterChange).collected {}) := by
  have hrun : ((after unreadableAfterChange).refreshed {}).2.watch.cancelled = false := rfl
  refine ⟨hrun, rfl, ?_⟩
  intro hperm
  have hnothing := (refresh_agrees_iff unreadableAfterChange hrun).2.2.1 hperm
    (Workspace.tabulate ⟨0⟩ ⟨"/a.method"⟩ ⟨1⟩ "fn a() {}".toList) (by decide +kernel) rfl
  exact absurd hnothing (by decide +kernel)

end Upkeep
end ProcedureIndex
