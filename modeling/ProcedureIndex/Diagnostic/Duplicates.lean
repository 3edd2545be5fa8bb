import ProcedureIndex.Config
import ProcedureIndex.Diagnostic.Brackets
import ProcedureIndex.Symbol.Table

/-!
Repeated declarations. Two declarations repeat each other when they share their
family, name, owner and version; which declarations are looked at is a matter of
policy. Every repetition is reported against the first declaration.
-/

namespace ProcedureIndex
namespace Duplicates

inductive Family where
  | callable
  | type
  | value
  deriving DecidableEq, Repr

def Family.ofKind : SymbolKind → Family
  | .function | .pipeline | .method => .callable
  | .classType | .typeAlias => .type
  | .macroText | .constant => .value

/-- What two declarations share when they repeat each other. -/
structure Key where
  family : Family
  name : String
  owner : Option String
  version : Option String
  deriving DecidableEq, Repr

def Key.ofSymbol (s : Symbol) : Key :=
  ⟨Family.ofKind s.kind, s.name, s.owner, s.version⟩

def considers (policy : DuplicatePolicy) (s : Symbol) : Bool :=
  match policy with
  | .off => false
  | .versionedOnly => s.version.isSome
  | .all => true

/-- Each symbol that repeats one before it, with the first that it repeats. `firsts` holds the first
symbol of every key met so far. -/
def repeats (firsts : List Symbol) : List Symbol → List (Symbol × Symbol)
  | [] => []
  | s :: rest =>
      match firsts.find? fun f => Key.ofSymbol f = Key.ofSymbol s with
      | some f => (s, f) :: repeats firsts rest
      | none => repeats (firsts ++ [s]) rest

def warning (s existing : Symbol) : Diagnostic :=
  let what :=
    match s.version with
    | some v => "'" ++ s.name ++ "' (version \"" ++ v ++ "\")"
    | none => "'" ++ s.name ++ "'"
  { file := s.file
    start := s.position
    -- the length of a name is cut off to a word; the sum may leave it
    stop := ⟨s.position.line, s.position.col + Text.width s.name.toList % countLimit⟩
    severity := .warning
    code := some Diagnostic.duplicateCode
    message := "duplicate " ++ s.kind.display ++ ": " ++ what ++ " is already declared"
    related := [⟨existing.file, existing.position,
      "first declaration of '" ++ existing.name ++ "'"⟩] }

/-- The warning about a symbol that may stand anywhere; its name has to end at a column. -/
def warningChecked (s existing : Symbol) : Except Fault Diagnostic :=
  (counted (warning s existing).stop.col).map fun _ => warning s existing

def check (d : Declarations) (policy : DuplicatePolicy) : List Diagnostic :=
  (repeats [] (d.all.filter (considers policy))).map fun (s, f) => warning s f

/-- Reports repeated declarations, which may stand anywhere, to a collector. -/
def report (c : Collector) (d : Declarations) (policy : DuplicatePolicy) : Except Fault Collector :=
  (repeats [] (d.all.filter (considers policy))).foldlM
    (fun c r => (warningChecked r.1 r.2).map c.add) c

end Duplicates

/-- Every diagnostic of one document: brackets first, then repeated declarations. -/
def checkFile (file : FileId) (cs : Text) (d : Declarations) (policy : DuplicatePolicy) :
    List Diagnostic :=
  Brackets.check file cs ++ Duplicates.check d policy

end ProcedureIndex
