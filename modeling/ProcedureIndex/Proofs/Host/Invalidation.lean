import ProcedureIndex.Proofs.Host.RepeatedRequests

/-!
How completion lists go out of date. Every list that a host keeps is for a file that has
a number, and the only operation that adds one is a request for completions in its file.
So once the lists of a file were dropped, by opening or closing a document, by forgetting
its table or by a reset, the next request in that file is computed anew.
-/

namespace ProcedureIndex

namespace Operation

def completes (path : Path) : Operation → Bool
  | .ask (.complete p _ _ _) _ => p.same path
  | _ => false

theorem completes_congr {p q : Path} (h : p.same q = true) (op : Operation) :
    op.completes p = op.completes q := by
  cases op with
  | ask query watch =>
      cases query with
      | complete r before after now => exact Path.same_congr h r
      | _ => rfl
  | _ => rfl

/-- Does the operation drop the lists of this file? To close a document does if it is open. -/
def dropsLists (h : Host) (path : Path) : Operation → Bool
  | .openDocument p _ _ | .forget p => p.same path
  | .closeDocument p => p.same path && h.opened.contains p
  | .reset => true
  | _ => false

end Operation

theorem Workspace.number?_forget (w : Workspace) (p q : Path) :
    (w.forget p).number? q = w.number? q := by
  rw [forget]
  split <;> rfl

theorem ListCache.entries_get_subset (c : ListCache) (key : ListKey) (now : Moment) :
    (c.get key now).2.entries ⊆ c.entries := by
  rw [get]
  split
  · split
    · exact List.Subset.refl _
    · exact List.filter_subset_self _
  · exact List.Subset.refl _

namespace Host

/-- A host after a history: each operation with the source as it was then, the first one first. -/
def run (start : Host) (history : List (Source × Operation)) : Host :=
  history.foldl (fun h event => h.act event.1 event.2) start

theorem run_append_cons (start : Host) (earlier : List (Source × Operation))
    (event : Source × Operation) (later : List (Source × Operation)) :
    start.run (earlier ++ event :: later) =
      ((start.run earlier).act event.1 event.2).run later := by
  rw [run, List.foldl_append]
  rfl

def ListsFor (h : Host) (kind : Path → Prop) : Prop :=
  ∀ entry ∈ h.cache.entries, ∃ q, kind q ∧ h.workspace.number? q = some entry.1.file

variable {h h' : Host} {kind : Path → Prop} {path : Path}

theorem ListsFor.of_subset (hlists : h.ListsFor kind) (hentries : h'.cache.entries ⊆ h.cache.entries)
    (hnumbers : ∀ {q file}, h.workspace.number? q = some file →
      h'.workspace.number? q = some file) : h'.ListsFor kind := by
  intro entry hentry
  obtain ⟨q, hq, hnumber⟩ := hlists entry (hentries hentry)
  exact ⟨q, hq, hnumbers hnumber⟩

/-- Without a list under the number of a path all lists are for other paths. -/
theorem ListsFor.others (hlists : h.ListsFor kind)
    (hnone : ∀ entry ∈ h.cache.entries, h.workspace.number? path ≠ some entry.1.file) :
    h.ListsFor fun q => q.same path = false := by
  intro entry hentry
  obtain ⟨q, -, hnumber⟩ := hlists entry hentry
  refine ⟨q, Bool.eq_false_iff.2 ?_, hnumber⟩
  intro hsame
  exact hnone entry hentry (by rw [← Workspace.number?_congr _ hsame, hnumber])

/-- What a question does to the lists: a request for completions may add one for its own file. -/
theorem mem_cache_ask {base : Source} {watch : Watch} {q : Query}
    {entry : ListKey × Moment × List Offer} (hentry : entry ∈ (h.ask base watch q).cache.entries) :
    entry ∈ h.cache.entries ∨ ∃ path before after now, q = .complete path before after now ∧
      (h.ask base watch q).workspace.number? path = some entry.1.file := by
  cases q with
  | snapshot | outline _ | search _ => exact .inl hentry
  | definition path position =>
      simp only [ask, definition] at hentry
      split at hentry <;> exact .inl hentry
  | hover path position =>
      simp only [ask, hover] at hentry
      split at hentry <;> exact .inl hentry
  | references name withDeclarations =>
      simp only [ask, references] at hentry
      split at hentry <;> exact .inl hentry
  | diagnostics path =>
      simp only [ask, diagnostics, table] at hentry
      cases hr : (Scan.table (h.source base) path ⟨h.workspace, watch⟩).1 with
      | error e =>
          rw [hr] at hentry
          exact .inl hentry
      | ok t =>
          rw [hr] at hentry
          simp only at hentry
          split at hentry <;> exact .inl hentry
  | complete path before after now =>
      cases hrecent : h.recent? path before after now with
      | some offers =>
          rw [ask, complete_of_some hrecent] at hentry
          exact .inl hentry
      | none =>
          rw [ask, complete_of_none hrecent] at hentry ⊢
          rcases List.mem_cons.1 hentry with rfl | hentry
          · refine .inr ⟨path, before, after, now, rfl, ?_⟩
            exact (snapshot_follows (h.numbered path) base watch).number?_eq_some
              (h.workspace.number?_number_self path)
          · exact .inl (ListCache.entries_get_subset _ _ _ (List.mem_filter.1 hentry).1)

theorem entries_forget_subset (h : Host) (p : Path) :
    (h.forget p).cache.entries ⊆ h.cache.entries := by
  simp only [forget]
  split
  · exact List.filter_subset_self _
  · exact List.Subset.refl _

theorem ListsFor.openDocument (hlists : h.ListsFor kind) (p : Path) (stamp : Stamp) (text : Text) :
    (h.openDocument p stamp text).2.ListsFor kind :=
  hlists.of_subset (List.filter_subset_self _)
    fun hnumber => Workspace.number?_update hnumber stamp text

theorem ListsFor.forget (hlists : h.ListsFor kind) (p : Path) : (h.forget p).ListsFor kind :=
  hlists.of_subset (h.entries_forget_subset p) fun hnumber => by
    rwa [← Workspace.number?_forget h.workspace p] at hnumber

/-- The lists stay of one kind as long as no completions are asked for in a file of another. -/
theorem ListsFor.act (hlists : h.ListsFor kind) (base : Source) {op : Operation}
    (hop : ∀ path, op.completes path = true → kind path) : (h.act base op).ListsFor kind := by
  cases op with
  | openDocument p stamp text =>
      exact hlists.openDocument p stamp text
  | forget p => exact hlists.forget p
  | closeDocument p =>
      simp only [Host.act, closeDocument]
      split
      · exact ListsFor.forget (h := { h with opened := h.opened.erase p }) hlists p
      · exact hlists
  | reset => exact fun entry hentry => absurd hentry List.not_mem_nil
  | accept _ _ _ | edit _ => exact hlists
  | ask query watch =>
      intro entry hentry
      rcases mem_cache_ask hentry with hold | ⟨path, before, after, now, rfl, hnumber⟩
      · obtain ⟨q, hq, hnumber⟩ := hlists entry hold
        exact ⟨q, hq, (h.ask_spec base watch query).2.number?_eq_some hnumber⟩
      · exact ⟨path, hop path (Path.same_refl path), hnumber⟩

theorem ListsFor.run (hlists : h.ListsFor kind) {history : List (Source × Operation)}
    (hhistory : ∀ event ∈ history, ∀ path, event.2.completes path = true → kind path) :
    (h.run history).ListsFor kind := by
  induction history generalizing h with
  | nil => exact hlists
  | cons event rest ih =>
      exact ih (hlists.act event.1 (hhistory event List.mem_cons_self))
        fun e he => hhistory e (List.mem_cons_of_mem event he)

theorem wellFormed_run (hw : h.workspace.WellFormed) (history : List (Source × Operation)) :
    (h.run history).workspace.WellFormed := by
  induction history generalizing h with
  | nil => exact hw
  | cons event rest ih => exact ih (wellFormed_act hw event.1 event.2)

theorem listsFor_others_forget (hlists : h.ListsFor kind) {p : Path} (hp : p.same path = true) :
    (h.forget p).ListsFor fun q => q.same path = false := by
  apply (hlists.forget p).others
  intro entry hentry hnumber
  rw [← Workspace.number?_congr _ hp] at hnumber
  simp only [forget] at hentry hnumber
  rw [hnumber] at hentry
  exact absurd (List.mem_filter.1 hentry).2 (by simp)

/-- Opening a document drops the lists of the number that its path has from then on. -/
theorem listsFor_others_openDocument (hw : h.workspace.WellFormed) (hlists : h.ListsFor kind)
    {p : Path} (hp : p.same path = true) (stamp : Stamp) (text : Text) :
    (h.openDocument p stamp text).2.ListsFor fun q => q.same path = false := by
  have htable : (h.workspace.update p stamp text).2.cached p =
      some (h.workspace.update p stamp text).1 := by
    rw [Workspace.cached_update hw, if_pos (Path.same_refl p)]
  apply (hlists.openDocument p stamp text).others
  intro entry hentry hnumber
  rw [← Workspace.number?_congr _ hp] at hnumber
  have hfile : some (h.workspace.update p stamp text).1.file = some entry.1.file :=
    (Workspace.cached_eq_some_iff.1 htable).1.symm.trans hnumber
  exact of_decide_eq_true (List.mem_filter.1 hentry).2 (Option.some.inj hfile).symm

theorem listsFor_others_act (hw : h.workspace.WellFormed) (hlists : h.ListsFor kind)
    (base : Source) {op : Operation} (hop : op.dropsLists h path = true) :
    (h.act base op).ListsFor fun q => q.same path = false := by
  cases op with
  | openDocument p stamp text => exact listsFor_others_openDocument hw hlists hop stamp text
  | forget p => exact listsFor_others_forget hlists hop
  | closeDocument p =>
      obtain ⟨hp, hopen⟩ : p.same path = true ∧ h.opened.contains p = true := by
        simpa [Operation.dropsLists] using hop
      rw [act, closeDocument, if_pos hopen]
      exact listsFor_others_forget (h := { h with opened := h.opened.erase p }) hlists hp
  | reset => exact fun entry hentry => absurd hentry List.not_mem_nil
  | accept _ _ _ | ask _ _ | edit _ => cases hop

/-- A request finds no list when all lists are for other files. -/
theorem recent?_eq_none (hlists : h.ListsFor fun q => q.same path = false) (before after : Text)
    (now : Moment) : h.recent? path before after now = none := by
  have hlookup : h.cache.entries.lookup (h.request path before after).key = none := by
    rw [List.lookup_eq_none_iff]
    intro entry hentry
    rw [bne_iff_ne]
    intro hkey
    obtain ⟨q, hq, hnumber⟩ := hlists entry hentry
    have hother := Workspace.number?_number_of_eq_some hnumber path
    rw [← hkey] at hother
    have hsame := Workspace.same_of_number? hother (h.workspace.number?_number_self path)
    rw [hq] at hsame
    cases hsame
  rw [recent?, ListCache.get, hlookup]

theorem entries_ofConfig {config : Config} {start : Host} (hstart : ofConfig config = .ok start) :
    start.cache.entries = [] := by
  simp only [ofConfig] at hstart
  cases hc : Habits.ofCapacity config.historyCapacity with
  | error e => rw [hc] at hstart; cases hstart
  | ok habits => rw [hc] at hstart; cases hstart; rfl

/-- After the lists of a file were dropped, whatever happened before and whatever is done then short
of asking for completions in that file, the first request there is answered with the list of the
workspace that it brings up to date itself, ranked by the habits of the moment. -/
theorem complete_after_drop {config : Config} {start : Host}
    (hstart : ofConfig config = .ok start) {earlier later : List (Source × Operation)}
    {event : Source × Operation} {path : Path}
    (hdrop : event.2.dropsLists (start.run earlier) path = true)
    (hlater : ∀ e ∈ later, e.2.completes path = false) (base : Source) (before after : Text)
    (now : Moment) (watch : Watch) :
    let h := start.run (earlier ++ event :: later)
    let refreshed := (h.numbered path).snapshot base watch
    h.recent? path before after now = none ∧
      (h.complete base path before after now watch).1 =
        completions refreshed.1 h.habits h.config (h.request path before after) now ∧
      (h.complete base path before after now watch).2.1.workspace = refreshed.2.1.workspace := by
  intro h refreshed
  have hwell : (start.run earlier).workspace.WellFormed := by
    apply wellFormed_run
    rw [(of_ofConfig hstart).2]
    exact Workspace.wellFormed_empty
  have hbegun : start.ListsFor fun _ => True := by
    intro entry hentry
    rw [entries_ofConfig hstart] at hentry
    cases hentry
  have hbefore : (start.run earlier).ListsFor fun _ => True :=
    hbegun.run fun _ _ _ _ => trivial
  have hlists : h.ListsFor fun q => q.same path = false := by
    simp only [h, run_append_cons]
    apply (listsFor_others_act hwell hbefore event.1 hdrop).run
    intro e he q hq
    refine Bool.eq_false_iff.2 ?_
    intro hsame
    rw [Operation.completes_congr hsame, hlater e he] at hq
    cases hq
  have hrecent := recent?_eq_none hlists before after now
  refine ⟨hrecent, ?_, ?_⟩
  · rw [complete_of_none hrecent]
    rfl
  · rw [complete_of_none hrecent]

theorem complete_after_drop_opened :
    let base := twoFiles.source
    let earlier : List (Source × Operation) :=
      [(base, .ask (.complete ⟨"/a.method"⟩ [] [] 0) {})]
    let event : Source × Operation :=
      (base, .openDocument ⟨"//a.method"⟩ ⟨9⟩ "fn gamma() \x7b\x7d".toList)
    let later : List (Source × Operation) :=
      [(base, .ask (.complete ⟨"/b.method"⟩ [] [] 1) {})]
    let h := Desk.standardHost.run (earlier ++ event :: later)
    ((Desk.standardHost.run earlier).recent? ⟨"/a.method"⟩ [] [] 2).isSome = true ∧
      event.2.dropsLists (Desk.standardHost.run earlier) ⟨"/a.method"⟩ = true ∧
      (∀ e ∈ later, e.2.completes ⟨"/a.method"⟩ = false) ∧
      h.recent? ⟨"/a.method"⟩ [] [] 2 = none ∧
      (h.complete base ⟨"/a.method"⟩ [] [] 2 {}).1 =
        completions ((h.numbered ⟨"/a.method"⟩).snapshot base {}).1 h.habits h.config
          (h.request ⟨"/a.method"⟩ [] []) 2 := by
  intro base earlier event later h
  have hdrop : event.2.dropsLists (Desk.standardHost.run earlier) ⟨"/a.method"⟩ = true := by
    decide +kernel
  have hlater : ∀ e ∈ later, e.2.completes ⟨"/a.method"⟩ = false := by
    intro e he
    cases List.mem_singleton.1 he
    decide +kernel
  have hstart : ofConfig {} = .ok Desk.standardHost := rfl
  obtain ⟨hrecent, hanswer, -⟩ :=
    complete_after_drop hstart hdrop hlater base [] [] 2 {}
  exact ⟨by decide +kernel, hdrop, hlater, hrecent, hanswer⟩

end Host
end ProcedureIndex
