import ProcedureIndex.Text.Lowercase
import ProcedureIndex.Workspace.Snapshot

/-!
Listings of symbols: the outline of one document in source order, and the symbols
of a workspace whose names contain a text, whatever the case of the letters.
-/

namespace ProcedureIndex

structure OutlineItem where
  name : String
  kind : SymbolKind
  file : FileId
  position : Position
  container : Option String
  version : Option String
  deriving DecidableEq, Repr

namespace OutlineItem

def ofSymbol (s : Symbol) : OutlineItem :=
  ⟨s.name, s.kind, s.file, s.position, s.owner, s.version⟩

end OutlineItem

def lowered (s : String) : Text :=
  Text.lower s.toList

def documentOutline (t : FileTable) : List OutlineItem :=
  (t.declared.all.map OutlineItem.ofSymbol).mergeSort fun a b => a.position.notAfter b.position

/-- The declarations of a workspace whose names contain a text; the empty text is in every name. -/
def searchSymbols (w : Snapshot) (query : String) : List OutlineItem :=
  (w.symbols.filter fun s => Text.includes (lowered s.name) (lowered query)).map
    OutlineItem.ofSymbol

end ProcedureIndex
