import ProcedureIndex.Proofs.Host.Operations

/-!
When the text of an open document reaches the snapshot. An open document always has
a table there; the table is the one of its text unless the document was opened over
a table that is as new as the document, says something else, and has not been
forgotten since.
-/

namespace ProcedureIndex

namespace Operation

def concerns (path : Path) : Operation → Bool
  | .openDocument p _ _ | .closeDocument p => p.same path
  | _ => false

def forgets (path : Path) : Operation → Bool
  | .forget p => p.same path
  | .reset => true
  | _ => false

end Operation

theorem Host.source_serves {h : Host} {path : Path} {doc : Buffer}
    (hdoc : h.opened.get? path = some doc) (base : Source) :
    (h.source base).Serves path doc.stamp doc.text := by
  intro q hq
  rw [← PathMap.get?_congr _ hq] at hdoc
  simp only [source, Source.overlaid, hdoc]
  exact ⟨trivial, trivial⟩

/-- An open document is discovered, if anything is, under one spelling or another. -/
theorem Host.exists_discovered {h : Host} {path : Path} {doc : Buffer}
    (hdoc : h.opened.get? path = some doc) {base : Source} {paths : List Path}
    (hbase : base.discover = .ok paths) :
    ∃ all, (h.source base).discover = .ok all ∧ ∃ q ∈ all, q.same path = true := by
  refine ⟨_, by simp only [source, Source.overlaid, hbase]; rfl, ?_⟩
  have hopen : h.opened.contains path = true := by
    rw [PathMap.contains_eq_isSome, hdoc]
    rfl
  obtain ⟨e, he, hsame⟩ := List.any_eq_true.1 hopen
  by_cases hany : paths.any (·.same e.1) = true
  · obtain ⟨q, hq, hqe⟩ := List.any_eq_true.1 hany
    exact ⟨q, List.mem_append_left _ hq, by rwa [← Path.same_congr hsame]⟩
  · refine ⟨e.1, List.mem_append_right _ ?_, hsame⟩
    exact List.mem_filter.2 ⟨List.mem_map_of_mem he, by simpa using hany⟩

theorem Host.isSome_cached_snapshot {h : Host} (hw : h.workspace.WellFormed) {path : Path}
    {doc : Buffer} (hdoc : h.opened.get? path = some doc) {base : Source} {paths : List Path}
    (hbase : base.discover = .ok paths) {watch : Watch}
    (hrun : (h.snapshot base watch).2.2.cancelled = false) :
    ((h.snapshot base watch).2.1.workspace.cached path).isSome := by
  obtain ⟨all, hall, hmem⟩ := exists_discovered hdoc hbase
  have htables : Scan.tables (h.source base) ⟨h.workspace, watch⟩ =
      Scan.tablesOf (h.source base) all ⟨h.workspace, watch⟩ := by
    rw [Scan.tables, hall]
  change (Scan.tables (h.source base) ⟨h.workspace, watch⟩).2.watch.cancelled = false at hrun
  change ((Scan.tables (h.source base) ⟨h.workspace, watch⟩).2.workspace.cached path).isSome = true
  rw [htables] at hrun ⊢
  exact Scan.isSome_cached_tablesOf hw (source_serves hdoc base) hmem hrun

namespace Desk

theorem opened_step (d : Desk) (op : Operation) (path : Path) :
    (d.step op).host.opened.get? path =
      match op with
      | .openDocument p stamp text =>
          if p.same path then some ⟨stamp, text⟩ else d.host.opened.get? path
      | .closeDocument p => if p.same path then none else d.host.opened.get? path
      | _ => d.host.opened.get? path := by
  cases op with
  | openDocument p stamp text => exact PathMap.get?_insert ..
  | closeDocument p =>
      simp only [step, Host.closeDocument]
      split
      · exact PathMap.get?_erase ..
      · next hp =>
          rw [PathMap.contains_eq_isSome] at hp
          split
          · next hsame => simpa [PathMap.get?_congr _ hsame] using hp
          · rfl
  | ask query watch =>
      exact congrArg (PathMap.get? · path) (d.host.ask_spec d.memory.source watch query).1
  | _ => rfl

/-- A document that is open was opened by the last operation that concerns its path. -/
theorem exists_opening {start : Host} (hstart : start.opened = {}) {ops : List Operation}
    {path : Path} {doc : Buffer} (hdoc : (after start ops).host.opened.get? path = some doc) :
    ∃ earlier p later, ops = earlier ++ .openDocument p doc.stamp doc.text :: later ∧
      p.same path = true ∧ ∀ op ∈ later, op.concerns path = false := by
  induction ops using List.reverseRecOn with
  | nil =>
      change start.opened.get? path = some doc at hdoc
      rw [hstart] at hdoc
      cases hdoc
  | append_singleton ops op ih =>
      have before : op.concerns path = false →
          (after start ops).host.opened.get? path = some doc →
          ∃ earlier p later, ops ++ [op] = earlier ++ .openDocument p doc.stamp doc.text :: later ∧
            p.same path = true ∧ ∀ op ∈ later, op.concerns path = false := by
        intro hop hopen
        obtain ⟨earlier, p, later, rfl, hp, hlater⟩ := ih hopen
        refine ⟨earlier, p, later ++ [op], by simp, hp, ?_⟩
        intro x hx
        rcases List.mem_append.1 hx with hx | hx
        · exact hlater x hx
        · rwa [List.mem_singleton.1 hx]
      rw [after_append_singleton, opened_step] at hdoc
      cases op with
      | openDocument p stamp text =>
          by_cases hp : p.same path = true
          · simp only [hp, if_true, Option.some.injEq] at hdoc
            cases hdoc
            exact ⟨ops, p, [], rfl, hp, fun _ hx => absurd hx List.not_mem_nil⟩
          · simp only [hp] at hdoc
            exact before (by simpa [Operation.concerns] using hp) hdoc
      | closeDocument p =>
          by_cases hp : p.same path = true
          · simp [hp] at hdoc
          · simp only [hp] at hdoc
            exact before (by simpa [Operation.concerns] using hp) hdoc
      | _ => exact before rfl hdoc

/-- What an operation does to the table of a path whose document stays open. -/
theorem cached_step {d : Desk} (hw : d.host.workspace.WellFormed) {path : Path} {doc : Buffer}
    (hdoc : d.host.opened.get? path = some doc) {op : Operation}
    (hop : op.concerns path = false) :
    (op.forgets path = true ∧ (d.step op).host.workspace.cached path = none) ∨
    (op.forgets path = false ∧
      ((d.step op).host.workspace.cached path = d.host.workspace.cached path ∨
        (∃ x, (d.step op).host.workspace.cached path = some x ∧
          x.declared = parse x.file doc.text) ∧
        ∀ old, d.host.workspace.cached path = some old →
          old.stamp.ticks < doc.stamp.ticks)) := by
  cases op with
  | openDocument p stamp text =>
      refine .inr ⟨rfl, .inl ?_⟩
      change (d.host.workspace.update p stamp text).2.cached path = _
      rw [Workspace.cached_update hw, if_neg (by simpa [Operation.concerns] using hop)]
  | closeDocument p =>
      refine .inr ⟨rfl, .inl ?_⟩
      simp only [step, Host.closeDocument]
      split
      · change (d.host.workspace.forget p).cached path = _
        rw [Workspace.cached_forget, if_neg (by simpa [Operation.concerns] using hop)]
      · rfl
  | forget p =>
      have hcached := d.host.workspace.cached_forget p path
      by_cases hp : p.same path = true
      · rw [if_pos hp] at hcached
        exact .inl ⟨hp, hcached⟩
      · rw [if_neg hp] at hcached
        exact .inr ⟨Bool.eq_false_iff.2 hp, .inl hcached⟩
  | reset => exact .inl ⟨rfl, Workspace.cached_forgetAll _ path⟩
  | ask query watch =>
      have hfollows := (d.host.ask_spec d.memory.source watch query).2
      exact .inr ⟨rfl, hfollows.cached_of_serves hw (Host.source_serves hdoc d.memory.source)⟩
  | accept _ _ _ | edit _ => exact .inr ⟨rfl, .inl rfl⟩

theorem opened_step_of_not_concerns {d : Desk} {path : Path} {op : Operation}
    (hop : op.concerns path = false) :
    (d.step op).host.opened.get? path = d.host.opened.get? path := by
  rw [opened_step]
  cases op with
  | openDocument p _ _ | closeDocument p =>
      rw [Operation.concerns] at hop
      simp [hop]
  | _ => rfl

/-- No table of the path but the one of this text. -/
def Shows (d : Desk) (path : Path) (text : Text) : Prop :=
  ∀ t, d.host.workspace.cached path = some t → t.declared = parse t.file text

section Run

variable {d : Desk} {path : Path} {doc : Buffer} {later : List Operation}

theorem shows_step (hw : d.host.workspace.WellFormed)
    (hdoc : d.host.opened.get? path = some doc) {op : Operation}
    (hop : op.concerns path = false)
    (h : op.forgets path = true ∨ d.Shows path doc.text) : (d.step op).Shows path doc.text := by
  intro t ht
  rcases cached_step hw hdoc hop with ⟨-, hnone⟩ | ⟨hkeeps, hsame | ⟨⟨x, hx, hd⟩, -⟩⟩
  · rw [hnone] at ht
    cases ht
  · rcases h with h | h
    · rw [h] at hkeeps
      cases hkeeps
    · exact h t (hsame ▸ ht)
  · cases hx.symm.trans ht
    exact hd

/-- Forgetting the table once is enough, and nothing else is needed if the table was right. -/
theorem shows_run (hw : d.host.workspace.WellFormed) (hdoc : d.host.opened.get? path = some doc)
    (hlater : ∀ op ∈ later, op.concerns path = false)
    (h : (∃ op ∈ later, op.forgets path = true) ∨ d.Shows path doc.text) :
    (later.foldl step d).Shows path doc.text := by
  induction later generalizing d with
  | nil =>
      rcases h with ⟨op, hop, -⟩ | h
      · cases hop
      · exact h
  | cons op rest ih =>
      have hop := hlater op List.mem_cons_self
      refine ih (wellFormed_step hw op) (by rw [opened_step_of_not_concerns hop, hdoc])
        (fun x hx => hlater x (List.mem_cons_of_mem op hx)) ?_
      rcases h with ⟨x, hx, hforgets⟩ | h
      · rcases List.mem_cons.1 hx with rfl | hx
        · exact .inr (shows_step hw hdoc hop (.inl hforgets))
        · exact .inl ⟨x, hx, hforgets⟩
      · exact .inr (shows_step hw hdoc hop (.inr h))

/-- A table that is as new as the document stays until it is forgotten. -/
theorem cached_run_of_newer {old : FileTable} (hw : d.host.workspace.WellFormed)
    (hdoc : d.host.opened.get? path = some doc)
    (hlater : ∀ op ∈ later, op.concerns path = false ∧ op.forgets path = false)
    (hold : d.host.workspace.cached path = some old) (hs : doc.stamp.ticks ≤ old.stamp.ticks) :
    (later.foldl step d).host.workspace.cached path = some old := by
  induction later generalizing d with
  | nil => exact hold
  | cons op rest ih =>
      obtain ⟨hop, hkeeps⟩ := hlater op List.mem_cons_self
      refine ih (wellFormed_step hw op) (by rw [opened_step_of_not_concerns hop, hdoc])
        (fun x hx => hlater x (List.mem_cons_of_mem op hx)) ?_
      rcases cached_step hw hdoc hop with ⟨hforgets, -⟩ | ⟨-, hsame | ⟨-, hnewer⟩⟩
      · rw [hkeeps] at hforgets
        cases hforgets
      · rw [hsame, hold]
      · exact absurd (hnewer old hold) (Nat.not_lt.2 hs)

end Run

/-- The document was opened over a table as new as itself that says something else, and the table
has not been forgotten since. -/
def OpenedOver (start : Host) (ops : List Operation) (path : Path) (doc : Buffer) : Prop :=
  ∃ earlier p later old, ops = earlier ++ .openDocument p doc.stamp doc.text :: later ∧
    p.same path = true ∧ (∀ op ∈ later, op.concerns path = false ∧ op.forgets path = false) ∧
    (after start earlier).host.workspace.cached path = some old ∧
    doc.stamp.ticks ≤ old.stamp.ticks ∧ old.declared ≠ parse old.file doc.text

theorem after_append_cons (start : Host) (earlier : List Operation) (op : Operation)
    (later : List Operation) :
    after start (earlier ++ op :: later) = later.foldl step ((after start earlier).step op) := by
  rw [after, List.foldl_append]
  rfl

/-- The table that stands for a document right after it was opened. -/
theorem cached_openDocument {d : Desk} (hw : d.host.workspace.WellFormed) {p path : Path}
    (hp : p.same path = true) (stamp : Stamp) (text : Text) :
    (∃ old, d.host.workspace.cached path = some old ∧ stamp.ticks ≤ old.stamp.ticks ∧
      (d.step (.openDocument p stamp text)).host.workspace.cached path = some old) ∨
    ((∀ old, d.host.workspace.cached path = some old → old.stamp.ticks < stamp.ticks) ∧
      (d.step (.openDocument p stamp text)).Shows path text) := by
  have hcached : (d.step (.openDocument p stamp text)).host.workspace.cached path =
      some (d.host.workspace.update p stamp text).1 := by
    change (d.host.workspace.update p stamp text).2.cached path = _
    rw [Workspace.cached_update hw, if_pos hp]
  rw [← Workspace.cached_congr d.host.workspace hp]
  rcases Workspace.update_cases hw p stamp text with ⟨old, hold, hs, he⟩ | ⟨hold, file, he⟩
  · exact .inl ⟨old, hold, hs, by rw [hcached, he]⟩
  · refine .inr ⟨hold, ?_⟩
    intro t ht
    cases hcached.symm.trans ht
    rw [he]
    rfl

section Reached

variable {config : Config} {start : Host} (hstart : Host.ofConfig config = .ok start)
include hstart

variable {ops : List Operation} {path : Path} {doc : Buffer}

theorem OpenedOver.cached (h : OpenedOver start ops path doc) :
    ∃ old, (after start ops).host.workspace.cached path = some old ∧
      doc.stamp.ticks ≤ old.stamp.ticks ∧ old.declared ≠ parse old.file doc.text := by
  obtain ⟨earlier, p, later, old, rfl, hp, hlater, hold, hs, hne⟩ := h
  have hw := wellFormed_after hstart earlier
  refine ⟨old, ?_, hs, hne⟩
  rw [after_append_cons]
  apply cached_run_of_newer (wellFormed_step hw _) (by simp [opened_step, hp]) hlater ?_ hs
  rcases cached_openDocument hw hp doc.stamp doc.text with ⟨old', hold', -, hnow⟩ | ⟨hnewer, -⟩
  · rw [hnow, ← hold', hold]
  · exact absurd (hnewer old hold) (Nat.not_lt.2 hs)

theorem shows_of_not_openedOver (hdoc : (after start ops).host.opened.get? path = some doc)
    (h : ¬ OpenedOver start ops path doc) : (after start ops).Shows path doc.text := by
  obtain ⟨earlier, p, later, rfl, hp, hlater⟩ :=
    exists_opening (Host.of_ofConfig hstart).1 hdoc
  have hw := wellFormed_after hstart earlier
  rw [after_append_cons]
  apply shows_run (wellFormed_step hw _) (by simp [opened_step, hp]) hlater
  rcases cached_openDocument hw hp doc.stamp doc.text with ⟨old, hold, hs, hnow⟩ | ⟨-, hshows⟩
  · by_cases hforgets : ∃ op ∈ later, op.forgets path = true
    · exact .inl hforgets
    · refine .inr ?_
      intro t ht
      cases hnow.symm.trans ht
      -- Otherwise the opening would be the very one that the condition rules out.
      by_contra hne
      refine h ⟨earlier, p, later, old, rfl, hp, ?_, hold, hs, hne⟩
      intro op hop
      refine ⟨hlater op hop, ?_⟩
      rw [Bool.eq_false_iff]
      exact fun hf => hforgets ⟨op, hop, hf⟩
  · exact .inr hshows

/-- Whatever was done before, a snapshot that is not cancelled has a table for every open document;
it is the table of the document's text unless the document was opened over a table as new as itself
that says something else and has not been forgotten since. -/
theorem open_document_shown_iff (hdoc : (after start ops).host.opened.get? path = some doc)
    {watch : Watch}
    (hrun : ((after start ops).host.snapshot (after start ops).memory.source watch).2.2.cancelled =
      false) :
    ∃ t, ((after start ops).host.snapshot (after start ops).memory.source watch).1.table? t.file =
        some t ∧
      ((after start ops).host.snapshot (after start ops).memory.source watch).2.1.workspace.number?
        path = some t.file ∧
      (t.declared = parse t.file doc.text ↔ ¬ OpenedOver start ops path doc) := by
  have hw := wellFormed_after hstart ops
  have hbase : (after start ops).memory.source.discover =
      .ok (after start ops).memory.files.paths := rfl
  have hsome := Host.isSome_cached_snapshot hw hdoc hbase hrun
  obtain ⟨t, ht⟩ := Option.isSome_iff_exists.1 hsome
  obtain ⟨hnumber, htable⟩ := Workspace.cached_eq_some_iff.1 ht
  refine ⟨t, htable, hnumber, ?_⟩
  have hkept := (Host.snapshot_follows _ (after start ops).memory.source watch).cached_of_serves hw
    (Host.source_serves hdoc _)
  rw [ht] at hkept
  constructor
  · intro hd hover
    obtain ⟨old, hold, hs, hne⟩ := hover.cached hstart
    rcases hkept with heq | ⟨-, hnewer⟩
    · rw [hold] at heq
      cases heq
      exact hne hd
    · exact absurd (hnewer old hold) (Nat.not_lt.2 hs)
  · intro hover
    rcases hkept with heq | ⟨⟨x, hx, hd⟩, -⟩
    · exact shows_of_not_openedOver hstart hdoc hover t heq.symm
    · cases hx
      exact hd

end Reached

def openedAtSameStamp : List Operation :=
  [.edit (.set ⟨"/a.method"⟩ "fn old() {}".toList), .ask .snapshot {},
    .openDocument ⟨"/a.method"⟩ ⟨1⟩ "fn new() {}".toList]

def standardHost : Host :=
  { config := {}, habits := {}, cache := { lifetime := 30000 } }

theorem open_document_hidden_at_same_stamp :
    Host.ofConfig {} = .ok standardHost ∧
      (after standardHost openedAtSameStamp).host.opened.get? ⟨"/a.method"⟩ =
        some ⟨⟨1⟩, "fn new() {}".toList⟩ ∧
      ∃ t, ((after standardHost openedAtSameStamp).host.snapshot
          (after standardHost openedAtSameStamp).memory.source {}).1.table? t.file = some t ∧
        t.declared ≠ parse t.file "fn new() {}".toList := by
  have hstart : Host.ofConfig {} = .ok standardHost := rfl
  have hdoc : (after standardHost openedAtSameStamp).host.opened.get? ⟨"/a.method"⟩ =
      some ⟨⟨1⟩, "fn new() {}".toList⟩ := rfl
  have hrun : ((after standardHost openedAtSameStamp).host.snapshot
      (after standardHost openedAtSameStamp).memory.source {}).2.2.cancelled = false := rfl
  have hover : OpenedOver standardHost openedAtSameStamp ⟨"/a.method"⟩
      ⟨⟨1⟩, "fn new() {}".toList⟩ := by
    refine ⟨openedAtSameStamp.dropLast, ⟨"/a.method"⟩, [],
      Workspace.tabulate ⟨0⟩ ⟨"/a.method"⟩ ⟨1⟩ "fn old() {}".toList, rfl, rfl, ?_, rfl,
      Nat.le_refl _, by decide +kernel⟩
    exact fun _ hop => absurd hop List.not_mem_nil
  obtain ⟨t, ht, -, hiff⟩ := open_document_shown_iff hstart hdoc hrun
  exact ⟨hstart, hdoc, t, ht, fun hd => hiff.1 hd hover⟩

end Desk
end ProcedureIndex
