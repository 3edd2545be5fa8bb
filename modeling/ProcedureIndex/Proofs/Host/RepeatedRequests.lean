import ProcedureIndex.Proofs.Completion.SortKeys
import ProcedureIndex.Proofs.Host.Shadowing
import ProcedureIndex.Proofs.Workspace.Visits

/-!
A completion request that is made twice in a row. The list of the first request is
kept whether or not its refreshing was cancelled, so the second request gets it back:
it is as complete as the files that the first one came to.
-/

namespace ProcedureIndex

namespace ListCache

@[simp] theorem isFresh_get (c : ListCache) (key : ListKey) (now : Moment) :
    (c.get key now).2.isFresh = c.isFresh := by
  rw [get]
  split
  · split <;> rfl
  · rfl

/-- A list is there for its lifetime. -/
theorem get_insert {c : ListCache} {stored now : Moment} (h : c.isFresh stored now = true)
    (key : ListKey) (offers : List Offer) :
    (c.insert key offers stored).get key now = (some offers, c.insert key offers stored) := by
  have hfresh : (c.insert key offers stored).isFresh stored now = true := h
  rw [get, insert, List.lookup_cons_self]
  exact if_pos hfresh

theorem get_of_some {c : ListCache} {key : ListKey} {now : Moment} {offers : List Offer}
    (h : (c.get key now).1 = some offers) : c.get key now = (some offers, c) := by
  simp only [get] at h ⊢
  cases hlookup : c.entries.lookup key with
  | none =>
      rw [hlookup] at h
      cases h
  | some entry =>
      simp only [hlookup] at h ⊢
      split at h
      · next hfresh =>
          cases h
          rw [if_pos hfresh]
      · cases h

end ListCache

namespace Host

def numbered (h : Host) (path : Path) : Host :=
  { h with workspace := (h.workspace.number path).2 }

def request (h : Host) (path : Path) (before after : Text) : CompletionRequest :=
  ⟨(h.workspace.number path).1, before, after⟩

def recent? (h : Host) (path : Path) (before after : Text) (now : Moment) : Option (List Offer) :=
  (h.cache.get (h.request path before after).key now).1

def listFrom (h : Host) (path : Path) (before after : Text) (now : Moment) (w : Workspace) :
    List Offer :=
  completions w.snapshot h.habits h.config (h.request path before after) now

/-- The list that a workspace gives for a request once it was brought up to date. -/
def fullList (h : Host) (base : Source) (path : Path) (before after : Text) (now : Moment) :
    List Offer :=
  completions ((h.numbered path).snapshot base {}).1 h.habits h.config
    (h.request path before after) now

variable {h : Host} {path : Path} {before after : Text} {now : Moment}

theorem complete_of_some {offers : List Offer}
    (hrecent : h.recent? path before after now = some offers) (base : Source) (watch : Watch) :
    h.complete base path before after now watch = (offers, h.numbered path, watch) := by
  have hget := ListCache.get_of_some hrecent
  simp only [request] at hget
  simp only [complete, hget]
  rfl

/-- A list that is computed anew is kept, however the refreshing ended. -/
theorem complete_of_none (hrecent : h.recent? path before after now = none) (base : Source)
    (watch : Watch) :
    h.complete base path before after now watch =
      let result := (h.numbered path).snapshot base watch
      let offers := h.listFrom path before after now result.2.1.workspace
      (offers, { result.2.1 with
        cache := (h.cache.get (h.request path before after).key now).2.insert
          (h.request path before after).key offers now }, result.2.2) := by
  have hget : h.cache.get (h.request path before after).key now =
      (none, (h.cache.get (h.request path before after).key now).2) := Prod.ext hrecent rfl
  simp only [request] at hget ⊢
  simp only [complete]
  rw [hget]
  rfl

/-- A list that is computed anew is that of the files which the refreshing came to: some at the
head of the list of files, and all of them unless it was cancelled. It is kept in any case. -/
theorem exists_complete_eq (hrecent : h.recent? path before after now = none) (base : Source)
    (watch : Watch) :
    ∃ seen skipped w offers, (h.source base).paths = seen ++ skipped ∧
      w = (h.numbered path).workspace.visitAll (h.source base) seen ∧
      offers = h.listFrom path before after now w ∧
      (h.complete base path before after now watch).1 = offers ∧
      (h.complete base path before after now watch).2.1 = { h with
        workspace := w
        cache := (h.cache.get (h.request path before after).key now).2.insert
          (h.request path before after).key offers now } ∧
      (watch.cancelled = true → seen = []) ∧
      (skipped ≠ [] → (h.complete base path before after now watch).2.2.cancelled = true) := by
  obtain ⟨seen, skipped, hpaths, hleft, hbefore, hcancelled⟩ :=
    Scan.exists_visited (h.source base) (h.source base).paths ⟨(h.numbered path).workspace, watch⟩
  have hsource : (h.numbered path).source base = h.source base := rfl
  rw [complete_of_none hrecent]
  simp only [snapshot, hsource, Scan.refresh_eq, hleft]
  exact ⟨seen, skipped, _, _, hpaths, rfl, rfl, rfl, rfl, hbefore, hcancelled⟩

theorem fullList_eq (h : Host) (base : Source) (path : Path) (before after : Text)
    (now : Moment) :
    h.fullList base path before after now =
      h.listFrom path before after now
        ((h.numbered path).workspace.visitAll (h.source base) (h.source base).paths) := by
  have hall := Scan.workspace_tablesOf (h.source base) (h.source base).paths
    (s := ⟨(h.numbered path).workspace, {}⟩) Watch.live_empty
  rw [fullList, snapshot, listFrom]
  change completions (Scan.refresh (h.source base) ⟨(h.numbered path).workspace, {}⟩).1 _ _ _ _ = _
  rw [Scan.refresh_eq, hall]

/-- To give a path a number that has one changes nothing. -/
theorem number_visitAll (h : Host) (src : Source) (path : Path) (paths : List Path) :
    ((h.numbered path).workspace.visitAll src paths).number path =
      ((h.workspace.number path).1, (h.numbered path).workspace.visitAll src paths) :=
  Workspace.number_of_number?_eq_some
    ((Workspace.visitAll_follows _ src paths).number?_eq_some
      (h.workspace.number?_number_self path))

/-- A request is made again within the lifetime of a list. If the first request was answered with a
recent list, the second is answered as though the first had not been made. Otherwise the second is
answered with the list of the first: the list of a workspace that came to the files `seen`, all of
them unless the first request was cancelled. An up-to-date workspace goes on to the files
`skipped`, which changes a table exactly if one of them is not up to date. -/
theorem complete_again (hw : h.workspace.WellFormed) (base : Source) (path : Path)
    (before after : Text) (now later : Moment) (hlifetime : h.cache.isFresh now later = true)
    (watch watch' : Watch) :
    let first := h.complete base path before after now watch
    let second := first.2.1.complete base path before after later watch'
    ((h.recent? path before after now).isSome →
      second.1 = (h.complete base path before after later watch').1) ∧
    (h.recent? path before after now = none →
      second.1 = first.1 ∧
      ∃ seen skipped w, (h.source base).paths = seen ++ skipped ∧
        (watch.cancelled = true → seen = []) ∧ (skipped ≠ [] → first.2.2.cancelled = true) ∧
        w = (h.numbered path).workspace.visitAll (h.source base) seen ∧
        first.1 = h.listFrom path before after now w ∧
        (∀ t, first.2.1.fullList base path before after t =
          h.listFrom path before after t (w.visitAll (h.source base) skipped)) ∧
        ((w.visitAll (h.source base) skipped).snapshot = w.snapshot ↔
          ∀ p ∈ skipped, w.UpToDate (h.source base) p)) := by
  intro first second
  constructor
  · intro hrecent
    obtain ⟨offers, hoffers⟩ := Option.isSome_iff_exists.1 hrecent
    have hfirst : first.2.1 = h.numbered path := by
      simp only [first, complete_of_some hoffers]
    have hnumber := h.number_visitAll (h.source base) path []
    simp only [second, hfirst, complete]
    change ((h.numbered path).workspace.number path) = _ at hnumber
    rw [hnumber]
    rfl
  · intro hrecent
    obtain ⟨seen, skipped, w, offers, hpaths, hw₁, hoffers, hanswer, hfirst, hbefore, hcancelled⟩ :=
      exists_complete_eq hrecent base watch
    have hnumber := h.number_visitAll (h.source base) path seen
    rw [← hw₁] at hnumber
    have hrequest : first.2.1.request path before after = h.request path before after := by
      simp only [request, first, hfirst, hnumber]
    have hagain : first.2.1.recent? path before after later = some offers := by
      rw [recent?, hrequest]
      simp only [first, hfirst]
      rw [ListCache.get_insert (by rwa [ListCache.isFresh_get])]
    refine ⟨by simp only [second, complete_of_some hagain]; exact hanswer.symm, seen, skipped, w,
      hpaths, hbefore, hcancelled, hw₁, hanswer.trans hoffers, ?_, ?_⟩
    · intro t
      have hsource : first.2.1.source base = h.source base := by
        simp only [first, hfirst]
        rfl
      have hworkspace : (first.2.1.numbered path).workspace = w := by
        simp only [numbered, first, hfirst, hnumber]
      have hseen : w.visitAll (h.source base) seen = w := by
        rw [hw₁]
        exact Workspace.visitAll_visited (hw.number path) (List.Subset.refl seen)
      rw [fullList_eq, hsource, hworkspace, hpaths, Workspace.visitAll_append, hseen, listFrom,
        listFrom, hrequest]
      simp only [first, hfirst]
    · have hwell : w.WellFormed := by
        rw [hw₁]
        exact (Workspace.visitAll_follows _ _ seen).wellFormed (hw.number path)
      rw [← Workspace.tables_visitAll_iff hwell, Workspace.snapshot, Workspace.snapshot,
        Snapshot.mk.injEq]

theorem length_listFrom (h : Host) (path : Path) (before after : Text) (now : Moment)
    (w : Workspace) :
    (h.listFrom path before after now w).length =
      (Completion.candidates Generator.all (Completion.situation w.snapshot h.habits h.config
        (h.request path before after))).length := by
  rw [listFrom, completions, (rank_perm _ _).length_eq, List.length_map, List.length_map]

def twoFiles : Memory :=
  (({} : Memory).edit (.set ⟨"/a.method"⟩ "fn alpha() \x7b\x7d".toList)).edit
    (.set ⟨"/b.method"⟩ "fn beta() \x7b\x7d".toList)

theorem complete_again_cancelled_between_files :
    let first := Desk.standardHost.complete twoFiles.source ⟨"/a.method"⟩ [] [] 0
      { stampsLeft := some 1 }
    let second := first.2.1.complete twoFiles.source ⟨"/a.method"⟩ [] [] 1 {}
    first.2.2.cancelled = true ∧ second.1 = first.1 ∧
      second.1 ≠ first.2.1.fullList twoFiles.source ⟨"/a.method"⟩ [] [] 1 := by
  intro first second
  have hrecent : Desk.standardHost.recent? ⟨"/a.method"⟩ [] [] 0 = none := rfl
  obtain ⟨hsame, -⟩ := (complete_again (h := Desk.standardHost) Workspace.wellFormed_empty
    twoFiles.source ⟨"/a.method"⟩ [] [] 0 1 rfl { stampsLeft := some 1 } {}).2 hrecent
  refine ⟨by decide +kernel, hsame, ?_⟩
  rw [hsame]
  intro hfull
  have hlength := congrArg List.length hfull
  simp only [complete_of_none hrecent, fullList_eq, length_listFrom] at hlength
  exact absurd hlength (by decide +kernel)

end Host
end ProcedureIndex
