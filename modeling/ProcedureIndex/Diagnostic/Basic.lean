import ProcedureIndex.Symbol.Basic

/-!
Diagnostics: advice about a document, with the place it concerns and perhaps
another place that explains it. A collector holds diagnostics until they are taken.
-/

namespace ProcedureIndex

inductive Severity where
  | error
  | warning
  deriving DecidableEq, Repr

structure RelatedPlace where
  file : FileId
  position : Position
  message : String
  deriving DecidableEq, Repr

structure Diagnostic where
  file : FileId
  start : Position
  stop : Position
  severity : Severity
  code : Option String
  message : String
  related : List RelatedPlace
  deriving DecidableEq, Repr

namespace Diagnostic

/-- The codes that tell the checks apart. -/
def unexpectedCloserCode : String := "E0001"

def unclosedBracketCode : String := "E0002"

def duplicateCode : String := "W0001"

end Diagnostic

structure Collector where
  held : List Diagnostic := []
  deriving DecidableEq, Repr

namespace Collector

def add (c : Collector) (d : Diagnostic) : Collector :=
  ⟨c.held ++ [d]⟩

def addAll (c : Collector) (ds : List Diagnostic) : Collector :=
  ⟨c.held ++ ds⟩

def countOf (c : Collector) (severity : Severity) : Nat :=
  c.held.countP (·.severity = severity)

def errorCount (c : Collector) : Nat :=
  c.countOf .error

def warningCount (c : Collector) : Nat :=
  c.countOf .warning

def hasErrors (c : Collector) : Bool :=
  c.held.any (·.severity = .error)

def take (c : Collector) : List Diagnostic × Collector :=
  (c.held, {})

end Collector
end ProcedureIndex
