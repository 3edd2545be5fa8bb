import ProcedureIndex.Workspace.Access

/-!
Files kept in memory. A clock ticks with every change, so that a changed file has
a stamp that no file had before; files are discovered in the order in which they
came.
-/

namespace ProcedureIndex

structure MemoryFile where
  stamp : Stamp
  text : Text
  unreadable : Bool := false
  deriving DecidableEq, Repr

structure Memory where
  clock : Stamp := Stamp.zero
  files : PathMap MemoryFile := {}

namespace Memory

/-- Sets the text of a file; the clock ticks, and the file gets its new time. -/
def set (m : Memory) (path : Path) (text : Text) : Except Fault (Stamp × Memory) := do
  let stamp ← m.clock.next
  return (stamp, ⟨stamp, m.files.insert path { stamp := stamp, text := text }⟩)

/-- Sets the text of a file under a given stamp; the clock does not fall behind it. -/
def setStamped (m : Memory) (path : Path) (stamp : Stamp) (text : Text) : Memory :=
  ⟨m.clock.later stamp, m.files.insert path { stamp := stamp, text := text }⟩

/-- Gives a file a new stamp and leaves its text; the clock ticks even if there is no such file. -/
def touch (m : Memory) (path : Path) : Except Fault (Option Stamp × Memory) := do
  let stamp ← m.clock.next
  let found := if m.files.contains path then some stamp else none
  return (found, ⟨stamp, m.files.modify path fun f => { f with stamp := stamp }⟩)

def remove (m : Memory) (path : Path) : Bool × Memory :=
  (m.files.contains path, { m with files := m.files.erase path })

/-- Makes reads of a file fail; the file is still there. -/
def markUnreadable (m : Memory) (path : Path) : Memory :=
  { m with files := m.files.modify path fun f => { f with unreadable := true } }

def file (m : Memory) (path : Path) : Except AccessError MemoryFile :=
  match m.files.get? path with
  | some f => .ok f
  | none => .error (.fileNotFound path)

def read (m : Memory) (path : Path) : Except AccessError Text := do
  let f ← m.file path
  if f.unreadable then .error (.ofCause path .permissionDenied) else .ok f.text

def source (m : Memory) : Source where
  discover := .ok m.files.paths
  stamp path := (m.file path).map MemoryFile.stamp
  read := m.read

end Memory
end ProcedureIndex
