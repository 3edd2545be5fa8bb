import ProcedureIndex.Document.Parse
import ProcedureIndex.Workspace.Access
import ProcedureIndex.Workspace.Snapshot

/-!
A workspace keeps at most one table for each file, with the stamp that the file had.
A table is never changed; when the stamp of a file has advanced, the file is read
again and its table replaced. Files are numbered in the order in which they are first
seen and keep their numbers.
-/

namespace ProcedureIndex

structure Workspace where
  /-- The path of file `n` is the `n`-th. -/
  known : List Path := []
  /-- The tables in the order of file numbers. -/
  tables : List FileTable := []
  deriving DecidableEq, Repr

namespace Workspace

def number? (w : Workspace) (path : Path) : Option FileId :=
  (w.known.findIdx? fun p => p.same path).map FileId.mk

/-- The number of a file, which is given one if it was never seen. Below `2 ^ 32` files no number is
given twice; the next would be cut off to the first one again. -/
def number (w : Workspace) (path : Path) : FileId × Workspace :=
  match w.number? path with
  | some file => (file, w)
  | none => (⟨w.known.length⟩, { w with known := w.known ++ [path] })

/-- The path of a file as it was first seen. -/
def path? (w : Workspace) (file : FileId) : Option Path :=
  w.known[file.index]?

/-- The table of a file, however old. -/
def table? (w : Workspace) (file : FileId) : Option FileTable :=
  w.tables.find? (·.file = file)

/-- The table of a file unless the stamp has advanced past it. -/
def fresh? (w : Workspace) (file : FileId) (stamp : Stamp) : Option FileTable :=
  (w.table? file).filter fun t => !stamp.isNewerThan t.stamp

def place (t : FileTable) : List FileTable → List FileTable
  | [] => [t]
  | x :: xs =>
      if t.file.index < x.file.index then t :: x :: xs
      else if x.file = t.file then t :: xs
      else x :: place t xs

/-- Replaces the table of a file unless a newer one is there; the table that stays is the answer. -/
def install (w : Workspace) (t : FileTable) : FileTable × Workspace :=
  match (w.table? t.file).filter fun x => x.stamp.isNewerThan t.stamp with
  | some newer => (newer, w)
  | none => (t, { w with tables := place t w.tables })

def tabulate (file : FileId) (path : Path) (stamp : Stamp) (text : Text) : FileTable :=
  ⟨file, path, stamp, parse file text⟩

/-- Takes in a text that is at hand; it is looked at only if its stamp has advanced. -/
def update (w : Workspace) (path : Path) (stamp : Stamp) (text : Text) : FileTable × Workspace :=
  let (file, w) := w.number path
  match w.fresh? file stamp with
  | some t => (t, w)
  | none => w.install (tabulate file path stamp text)

def snapshot (w : Workspace) : Snapshot :=
  ⟨w.tables⟩

def forget (w : Workspace) (path : Path) : Workspace :=
  match w.number? path with
  | some file => { w with tables := w.tables.filter (·.file ≠ file) }
  | none => w

/-- Forgets every table; the numbers of the files stay. -/
def forgetAll (w : Workspace) : Workspace :=
  { w with tables := [] }

def size (w : Workspace) : Nat :=
  w.tables.length

end Workspace

structure Scan where
  workspace : Workspace
  watch : Watch := {}
  deriving DecidableEq, Repr

namespace Scan

/-- The table of a file, which is read only if its stamp has advanced. -/
def table (src : Source) (path : Path) (s : Scan) : Except AccessError FileTable × Scan :=
  let (file, workspace) := s.workspace.number path
  let watch := src.watchStamp path s.watch
  match src.stamp path with
  | .error e => (.error e, ⟨workspace, watch⟩)
  | .ok stamp =>
      match workspace.fresh? file stamp with
      | some t => (.ok t, ⟨workspace, watch⟩)
      | none =>
          let watch := src.watchRead path watch
          match src.read path with
          | .error e => (.error e, ⟨workspace, watch⟩)
          | .ok text =>
              let (t, workspace) := workspace.install (Workspace.tabulate file path stamp text)
              (.ok t, ⟨workspace, watch⟩)

/-- The tables of some files, until the work is cancelled; unreadable files are left out. -/
def tablesOf (src : Source) : List Path → Scan → List FileTable × Scan
  | [], s => ([], s)
  | path :: rest, s =>
      if s.watch.cancelled then ([], s)
      else
        let (result, s) := table src path s
        let (tables, s) := tablesOf src rest s
        match result with
        | .ok t => (t :: tables, s)
        | .error _ => (tables, s)

/-- The tables of all files of a source; a source that cannot be searched has none. -/
def tables (src : Source) (s : Scan) : List FileTable × Scan :=
  match src.discover with
  | .ok paths => tablesOf src paths s
  | .error _ => ([], s)

def symbols (src : Source) (p : Symbol → Bool) (s : Scan) : List Symbol × Scan :=
  let (tables, s) := tables src s
  (tables.flatMap fun t => t.declared.all.filter p, s)

def refresh (src : Source) (s : Scan) : Snapshot × Scan :=
  let (_, s) := tables src s
  (s.workspace.snapshot, s)

end Scan
end ProcedureIndex
