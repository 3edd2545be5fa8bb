import ProcedureIndex.Text.Lines

/-!
Symbols: what a document declares. A symbol knows its name and where that name
stands, what kind of thing it is, and the labels and documentation written above
its declaration.
-/

namespace ProcedureIndex

/-- The number of a file in the order in which files were first seen. It is a 32-bit count, which is
not cut off here: of a workspace that sees more than `2 ^ 32` paths nothing is said. -/
structure FileId where
  index : Nat
  deriving DecidableEq, Repr

namespace FileId

def display (f : FileId) : String :=
  s!"file#{f.index}"

end FileId

inductive SymbolKind where
  | function
  | pipeline
  | classType
  | method
  | typeAlias
  | macroText
  | constant
  deriving DecidableEq, Repr

namespace SymbolKind

def display : SymbolKind → String
  | .function => "function"
  | .pipeline => "pipeline"
  | .classType => "class"
  | .method => "method"
  | .typeAlias => "type alias"
  | .macroText => "macro"
  | .constant => "constant"

def isCallable : SymbolKind → Bool
  | .function | .pipeline | .method => true
  | _ => false

def isValueLike (k : SymbolKind) : Bool :=
  !k.isCallable

end SymbolKind

inductive SymbolForm where
  | function (version : Option String)
  | pipeline
  | classType (parent : Option String)
  | method (owner : String) (version : Option String) (isStatic : Bool)
  | typeAlias (target : String)
  | macroText (value : String)
  | constant (value : String)
  deriving DecidableEq, Repr

namespace SymbolForm

def kind : SymbolForm → SymbolKind
  | .function _ => .function
  | .pipeline => .pipeline
  | .classType _ => .classType
  | .method _ _ _ => .method
  | .typeAlias _ => .typeAlias
  | .macroText _ => .macroText
  | .constant _ => .constant

end SymbolForm

/-- One declared thing. Its name starts at byte `start`; the labels are distinct. -/
structure Symbol where
  name : String
  form : SymbolForm
  file : FileId
  start : Nat
  position : Position
  labels : List String
  doc : Option String
  deriving DecidableEq, Repr

namespace Symbol

def kind (s : Symbol) : SymbolKind :=
  s.form.kind

def stop (s : Symbol) : Nat :=
  s.start + Text.width s.name.toList

/-- The symbol, unless its name ends outside any text. -/
def placed (s : Symbol) : Except Fault Symbol :=
  (counted s.stop).map fun _ => s

def version (s : Symbol) : Option String :=
  match s.form with
  | .function v | .method _ v _ => v
  | _ => none

def owner (s : Symbol) : Option String :=
  match s.form with
  | .method o _ _ => some o
  | _ => none

def parent (s : Symbol) : Option String :=
  match s.form with
  | .classType p => p
  | _ => none

def isStatic (s : Symbol) : Bool :=
  match s.form with
  | .method _ _ b => b
  | _ => false

/-- The value of a macro or constant, or the target of an alias. -/
def literal (s : Symbol) : Option String :=
  match s.form with
  | .macroText v | .constant v | .typeAlias v => some v
  | _ => none

def hasLabel (s : Symbol) (label : String) : Bool :=
  s.labels.contains label

def sharesLabel (s t : Symbol) : Bool :=
  s.labels.any t.hasLabel

end Symbol
end ProcedureIndex
