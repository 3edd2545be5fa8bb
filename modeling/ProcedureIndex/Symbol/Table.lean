import ProcedureIndex.Grouping
import ProcedureIndex.Symbol.Basic

/-!
Symbol tables: the symbols of a document grouped by name, and its labels with
the symbols that carry them. Looking a name up may narrow the answers by version
and by owner.
-/

namespace ProcedureIndex

namespace Symbol

def hasVersion (version : Option String) (s : Symbol) : Bool :=
  version.all fun v => s.version = some v

/-- Narrows the symbols of a name. With an owner, the symbols of that owner win, if any of them has
the version; otherwise every symbol with the version is an answer. -/
def select (candidates : List Symbol) (version owner : Option String) : List Symbol :=
  let owned :=
    match owner with
    | some o => (candidates.filter fun s => s.owner = some o).filter (hasVersion version)
    | none => []
  if owned.isEmpty then candidates.filter (hasVersion version) else owned

end Symbol

abbrev SymbolTable := Grouping Symbol

namespace SymbolTable

/-- Appends a symbol to the group of its name; the answer's second part is its place there. -/
def add (t : SymbolTable) (s : Symbol) : SymbolTable × Nat :=
  (t.push s.name s, (t.bucket s.name).length)

def findAll (t : SymbolTable) (name : String) (version owner : Option String) : List Symbol :=
  Symbol.select (t.bucket name) version owner

def find? (t : SymbolTable) (name : String) (version owner : Option String) : Option Symbol :=
  (findAll t name version owner).head?

end SymbolTable

/-- A symbol by its name and its place in the group of that name. -/
structure SymbolPlace where
  name : String
  index : Nat
  deriving DecidableEq, Repr

abbrev LabelGroups := Grouping SymbolPlace

namespace LabelGroups

def count (g : LabelGroups) (label : String) : Nat :=
  (g.bucket label).length

end LabelGroups

structure Declarations where
  symbols : SymbolTable := {}
  labels : LabelGroups := {}
  deriving DecidableEq, Repr

namespace Declarations

def add (d : Declarations) (s : Symbol) : Declarations :=
  let (symbols, index) := SymbolTable.add d.symbols s
  ⟨symbols, s.labels.foldl (fun g l => g.push l ⟨s.name, index⟩) d.labels⟩

def ofSymbols (symbols : List Symbol) : Declarations :=
  symbols.foldl add {}

def all (d : Declarations) : List Symbol :=
  d.symbols.values

def withLabel (d : Declarations) (label : String) : List Symbol :=
  (d.labels.bucket label).filterMap fun r => d.symbols.get? r.name r.index

end Declarations
end ProcedureIndex
