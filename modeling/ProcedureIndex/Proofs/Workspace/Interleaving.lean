import Mathlib.Data.List.Induction
import ProcedureIndex.Proofs.Workspace.Edits

/-!
Look-ups that overlap. The look-up of a table is cut into its steps: number, stamp,
comparison, text, installation. Any number of look-ups advance side by side while
files are changed and tables forgotten. Whatever the order of the steps, a table
comes from a text that its file held under a stamp not older than the table's own;
a look-up during which no file changes therefore answers with the present text.
-/

namespace ProcedureIndex

/-- How far a look-up has come, and what it has learned on the way. -/
inductive Progress where
  | requested
  | numbered (file : FileId)
  | stamped (file : FileId) (stamp : Stamp)
  | stale (file : FileId) (stamp : Stamp)
  | loaded (file : FileId) (stamp : Stamp) (text : Text)
  | answered (result : Except AccessError FileTable)

structure Lookup where
  path : Path
  progress : Progress := .requested

namespace Lookup

/-- The next step of a look-up; an answered one stays as it is. -/
def step (src : Source) (l : Lookup) (w : Workspace) : Lookup × Workspace :=
  match l.progress with
  | .requested =>
      let (file, w) := w.number l.path
      ({ l with progress := .numbered file }, w)
  | .numbered file =>
      match src.stamp l.path with
      | .error e => ({ l with progress := .answered (.error e) }, w)
      | .ok stamp => ({ l with progress := .stamped file stamp }, w)
  | .stamped file stamp =>
      match w.fresh? file stamp with
      | some t => ({ l with progress := .answered (.ok t) }, w)
      | none => ({ l with progress := .stale file stamp }, w)
  | .stale file stamp =>
      match src.read l.path with
      | .error e => ({ l with progress := .answered (.error e) }, w)
      | .ok text => ({ l with progress := .loaded file stamp text }, w)
  | .loaded file stamp text =>
      let (t, w) := w.install (Workspace.tabulate file l.path stamp text)
      ({ l with progress := .answered (.ok t) }, w)
  | .answered _ => (l, w)

def steps (src : Source) : Nat → Lookup × Workspace → Lookup × Workspace
  | 0, s => s
  | n + 1, s => steps src n (s.1.step src s.2)

def stage (l : Lookup) : Nat :=
  match l.progress with
  | .requested => 0
  | .numbered _ => 1
  | .stamped _ _ => 2
  | .stale _ _ => 3
  | .loaded _ _ _ => 4
  | .answered _ => 5

/-- Five steps in a row are the look-up as a whole. -/
theorem steps_eq_table (src : Source) (path : Path) (s : Scan) :
    (steps src 5 (⟨path, .requested⟩, s.workspace)) =
      (⟨path, .answered (Scan.table src path s).1⟩, (Scan.table src path s).2.workspace) := by
  simp only [steps, step, Scan.table]
  cases src.stamp path with
  | error e => rfl
  | ok stamp =>
      cases hf : (s.workspace.number path).2.fresh? (s.workspace.number path).1 stamp with
      | some t => simp only [hf]
      | none =>
          simp only [hf]
          cases src.read path with
          | error e => rfl
          | ok text => rfl

theorem step_path (src : Source) (l : Lookup) (w : Workspace) :
    (l.step src w).1.path = l.path := by
  rw [step]
  split <;> (try split) <;> rfl

theorem stage_lt_stage_step (src : Source) (l : Lookup) (w : Workspace) :
    min 5 (l.stage + 1) ≤ (l.step src w).1.stage := by
  obtain ⟨path, progress⟩ := l
  cases progress with
  | requested | loaded _ _ _ | answered _ => simp [step, stage]
  | numbered file => simp only [step]; cases src.stamp path <;> simp [stage]
  | stamped file stamp => simp only [step]; cases w.fresh? file stamp <;> simp [stage]
  | stale file stamp => simp only [step]; cases src.read path <;> simp [stage]

end Lookup

structure Session where
  memory : Memory := {}
  workspace : Workspace := {}
  lookups : List Lookup := []

namespace Session

inductive Event where
  | edit (change : Edit)
  | request (path : Path)
  | advance (lookup : Nat)
  | forget (path : Path)
  | forgetAll
  deriving DecidableEq, Repr

def Event.isEdit : Event → Bool
  | .edit _ => true
  | _ => false

def step (s : Session) : Event → Session
  | .edit change => { s with memory := s.memory.edit change }
  | .request path => { s with lookups := s.lookups ++ [{ path := path }] }
  | .advance i =>
      match s.lookups[i]? with
      | none => s
      | some l =>
          { s with
            workspace := (l.step s.memory.source s.workspace).2
            lookups := s.lookups.set i (l.step s.memory.source s.workspace).1 }
  | .forget path => { s with workspace := s.workspace.forget path }
  | .forgetAll => { s with workspace := s.workspace.forgetAll }

def after (events : List Event) : Session :=
  events.foldl step {}

theorem after_append_singleton (events : List Event) (e : Event) :
    after (events ++ [e]) = (after events).step e := by
  rw [after, List.foldl_append]
  rfl

/-- At some moment of the history the path had this file. -/
def Held (events : List Event) (path : Path) (f : MemoryFile) : Prop :=
  ∃ earlier, earlier <+: events ∧ (after earlier).memory.files.get? path = some f

theorem held_append_singleton {events : List Event} {e : Event} {path : Path} {f : MemoryFile} :
    Held (events ++ [e]) path f ↔
      Held events path f ∨ (after (events ++ [e])).memory.files.get? path = some f := by
  constructor
  · rintro ⟨earlier, hpre, hf⟩
    rcases List.prefix_concat_iff.1 hpre with rfl | hpre
    · exact .inr hf
    · exact .inl ⟨earlier, hpre, hf⟩
  · rintro (⟨earlier, hpre, hf⟩ | hf)
    · exact ⟨earlier, hpre.trans (List.prefix_append events [e]), hf⟩
    · exact ⟨events ++ [e], List.prefix_rfl, hf⟩

end Session
end ProcedureIndex
