import Mathlib.Data.List.Induction
import ProcedureIndex.Host
import ProcedureIndex.Proofs.Workspace.Edits
import ProcedureIndex.Proofs.Workspace.Scanning

/-!
Everything that can be done with a host and with the files under it, as one type of
operations. A question leaves the open documents alone and moves the workspace only
as the source in front of the host allows, whether or not it is cancelled.
-/

namespace ProcedureIndex

inductive Query where
  | snapshot
  | complete (path : Path) (before after : Text) (now : Moment)
  | definition (path : Path) (position : Position)
  | hover (path : Path) (position : Position)
  | references (name : String) (withDeclarations : Bool)
  | outline (path : Path)
  | diagnostics (path : Path)
  | search (query : String)

namespace Host

def ask (h : Host) (base : Source) (watch : Watch) : Query → Host
  | .snapshot => (h.snapshot base watch).2.1
  | .complete path before after now => (h.complete base path before after now watch).2.1
  | .definition path position => (h.definition base path position watch).2.1
  | .hover path position => (h.hover base path position watch).2.1
  | .references name withDeclarations => (h.references base name withDeclarations watch).2.1
  | .outline path => (h.outline base path watch).2.1
  | .diagnostics path => (h.diagnostics base path watch).2.1
  | .search query => (h.search base query watch).2.1

open Workspace

theorem of_ofConfig {config : Config} {start : Host} (h : ofConfig config = .ok start) :
    start.opened = {} ∧ start.workspace = {} := by
  simp only [ofConfig] at h
  cases hc : Habits.ofCapacity config.historyCapacity with
  | error e => rw [hc] at h; cases h
  | ok habits => rw [hc] at h; cases h; exact ⟨rfl, rfl⟩

theorem snapshot_follows (h : Host) (base : Source) (watch : Watch) :
    Follows (h.source base) h.workspace (h.snapshot base watch).2.1.workspace :=
  Scan.refresh_follows (h.source base) ⟨h.workspace, watch⟩

theorem tableWithText_follows (src : Source) (path : Path) (s : Scan) :
    Follows src s.workspace (tableWithText src path s).2.workspace := by
  simp only [tableWithText]
  cases hs : src.stamp path with
  | error e => exact .refl
  | ok stamp =>
      cases hr : src.read path with
      | error e => exact .refl
      | ok text => exact .update .refl hs hr

theorem referencesIn_follows (engine : PatternEngine) (src : Source) (name : String)
    (withDeclarations : Bool) (paths : List Path) (s : Scan) :
    Follows src s.workspace
      (referencesIn engine src name withDeclarations paths s).2.workspace := by
  induction paths generalizing s with
  | nil => exact .refl
  | cons path rest ih =>
      rw [referencesIn]
      split
      · exact .refl
      · have hrest := (tableWithText_follows src path s).trans (ih (tableWithText src path s).2)
        cases hr : (tableWithText src path s).1 <;> simpa [hr] using hrest

/-- What a question may change: the lists and the history aside, the workspace, and that only as
the files behind the open documents allow. -/
theorem ask_spec (h : Host) (base : Source) (watch : Watch) (q : Query) :
    (h.ask base watch q).opened = h.opened ∧
      Follows (h.source base) h.workspace (h.ask base watch q).workspace := by
  cases q with
  | snapshot => exact ⟨rfl, h.snapshot_follows base watch⟩
  | complete path before after now =>
      simp only [ask, complete]
      split
      · exact ⟨rfl, .number path .refl⟩
      · refine ⟨rfl, ?_⟩
        exact (Follows.number path .refl).trans (snapshot_follows { h with
          workspace := (h.workspace.number path).2 } base watch)
  | definition path position =>
      simp only [ask, definition]
      split
      · exact ⟨rfl, .refl⟩
      · exact ⟨rfl, h.snapshot_follows base _⟩
  | hover path position =>
      simp only [ask, hover]
      split
      · exact ⟨rfl, .refl⟩
      · exact ⟨rfl, h.snapshot_follows base _⟩
  | references name withDeclarations =>
      simp only [ask, references]
      split
      · exact ⟨rfl, .refl⟩
      · exact ⟨rfl, referencesIn_follows .limited (h.source base) name withDeclarations _
          ⟨h.workspace, watch⟩⟩
  | outline path => exact ⟨rfl, Scan.table_follows (h.source base) path ⟨h.workspace, watch⟩⟩
  | diagnostics path =>
      have htable := Scan.table_follows (h.source base) path ⟨h.workspace, watch⟩
      simp only [ask, diagnostics, table]
      cases (Scan.table (h.source base) path ⟨h.workspace, watch⟩).1 with
      | error e => exact ⟨rfl, htable⟩
      | ok t =>
          simp only
          split <;> exact ⟨rfl, htable⟩
  | search query => exact ⟨rfl, h.snapshot_follows base watch⟩

end Host

inductive Operation where
  | openDocument (path : Path) (stamp : Stamp) (text : Text)
  | closeDocument (path : Path)
  | forget (path : Path)
  | reset
  | accept (label context : String) (now : Moment)
  | ask (query : Query) (watch : Watch)
  | edit (change : Edit)

namespace Host

/-- The host after an operation, with the source as it is then; to change files is not a matter of
the host. -/
def act (h : Host) (base : Source) : Operation → Host
  | .openDocument path stamp text => (h.openDocument path stamp text).2
  | .closeDocument path => h.closeDocument path
  | .forget path => h.forget path
  | .reset => h.reset
  | .accept label context now => h.accept label context now
  | .ask query watch => h.ask base watch query
  | .edit _ => h

theorem wellFormed_act {h : Host} (hw : h.workspace.WellFormed) (base : Source) (op : Operation) :
    (h.act base op).workspace.WellFormed := by
  cases op with
  | openDocument path stamp text => exact hw.update path stamp text
  | closeDocument path =>
      simp only [act, closeDocument]
      split
      · exact hw.forget path
      · exact hw
  | forget path => exact hw.forget path
  | reset => exact Workspace.WellFormed.forgetAll
  | accept label context now => exact hw
  | ask query watch => exact (h.ask_spec base watch query).2.wellFormed hw
  | edit change => exact hw

end Host

structure Desk where
  host : Host
  memory : Memory := {}

namespace Desk

def step (d : Desk) : Operation → Desk
  | .openDocument path stamp text => { d with host := (d.host.openDocument path stamp text).2 }
  | .closeDocument path => { d with host := d.host.closeDocument path }
  | .forget path => { d with host := d.host.forget path }
  | .reset => { d with host := d.host.reset }
  | .accept label context now => { d with host := d.host.accept label context now }
  | .ask query watch => { d with host := d.host.ask d.memory.source watch query }
  | .edit change => { d with memory := d.memory.edit change }

def after (start : Host) (ops : List Operation) : Desk :=
  ops.foldl step { host := start }

theorem after_append_singleton (start : Host) (ops : List Operation) (op : Operation) :
    after start (ops ++ [op]) = (after start ops).step op := by
  rw [after, List.foldl_append]
  rfl

theorem host_step (d : Desk) (op : Operation) :
    (d.step op).host = d.host.act d.memory.source op := by
  cases op <;> rfl

theorem wellFormed_step {d : Desk} (h : d.host.workspace.WellFormed) (op : Operation) :
    (d.step op).host.workspace.WellFormed := by
  rw [host_step]
  exact Host.wellFormed_act h d.memory.source op

theorem wellFormed_after {config : Config} {start : Host}
    (hstart : Host.ofConfig config = .ok start) (ops : List Operation) :
    (after start ops).host.workspace.WellFormed := by
  induction ops using List.reverseRecOn with
  | nil =>
      change start.workspace.WellFormed
      rw [(Host.of_ofConfig hstart).2]
      exact Workspace.wellFormed_empty
  | append_singleton ops op ih =>
      rw [after_append_singleton]
      exact wellFormed_step ih op

end Desk
end ProcedureIndex
