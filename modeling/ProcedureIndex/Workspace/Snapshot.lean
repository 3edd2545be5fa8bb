import ProcedureIndex.Symbol.Table
import ProcedureIndex.Workspace.Path
import ProcedureIndex.Workspace.Stamp

/-!
A snapshot is what is known of a workspace at one moment: the table of each
file that has one, in the order of the file numbers. Questions about several files
are asked of a snapshot.
-/

namespace ProcedureIndex

structure FileTable where
  file : FileId
  path : Path
  stamp : Stamp
  declared : Declarations
  deriving DecidableEq, Repr

structure Snapshot where
  tables : List FileTable := []
  deriving DecidableEq, Repr

namespace Snapshot

def table? (w : Snapshot) (file : FileId) : Option FileTable :=
  w.tables.find? (·.file = file)

def symbols (w : Snapshot) : List Symbol :=
  w.tables.flatMap fun t => t.declared.all

def named (w : Snapshot) (name : String) : List Symbol :=
  w.tables.flatMap fun t => t.declared.symbols.bucket name

/-- The symbols of admitted kinds that a name, with a version and an owner if given, may stand for;
files do not matter for which of them win. -/
def findAll (w : Snapshot) (name : String) (version owner : Option String)
    (admits : SymbolKind → Bool) : List Symbol :=
  Symbol.select ((w.named name).filter fun s => admits s.kind) version owner

def labels (w : Snapshot) : List String :=
  (w.tables.flatMap fun t => t.declared.labels.names).eraseDups

def labelCount (w : Snapshot) (label : String) : Nat :=
  (w.tables.flatMap fun t => t.declared.labels.bucket label).length

def withLabel (w : Snapshot) (label : String) : List Symbol :=
  w.tables.flatMap fun t => t.declared.withLabel label

end Snapshot
end ProcedureIndex
