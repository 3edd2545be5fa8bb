import ProcedureIndex.Document.Header
import ProcedureIndex.Document.Keyword
import ProcedureIndex.Workspace.Snapshot

/-!
From a name in a text to its declarations. What surrounds the name says whether
it is called, who its owner is and which version is meant; every declaration that
agrees is an answer, and nothing chooses among several.
-/

namespace ProcedureIndex

open Text

inductive UseForm where
  | call
  | name
  deriving DecidableEq, Repr

/-- Calls stand for callable kinds, bare names for the others. -/
def UseForm.admits : UseForm → SymbolKind → Bool
  | .call, k => k.isCallable
  | .name, k => k.isValueLike

structure NameUse where
  name : String
  usage : UseForm
  owner : Option String
  version : Option String
  deriving DecidableEq, Repr

inductive Resolution where
  | found (symbol : Symbol)
  | ambiguous (symbols : List Symbol)
  | notFound
  deriving DecidableEq, Repr

namespace Resolution

def ofMatches : List Symbol → Resolution
  | [] => .notFound
  | [s] => .found s
  | ss => .ambiguous ss

def symbol? : Resolution → Option Symbol
  | .found s => some s
  | _ => none

def candidates : Resolution → List Symbol
  | .found s => [s]
  | .ambiguous ss => ss
  | .notFound => []

end Resolution

namespace NameUse

/-- The use of a name at a position, unless there is no name or the name is being declared there. -/
def at? (cs : Text) (p : Position) : Option NameUse := do
  let line ← (LineMap.ofText cs).lineText p.line
  let (start, word) ← identAt line p.col
  let before := takeBytes start line
  let preceding := trimEnd before
  let rest := dropBytes (start + width word) line
  if preceding.length < before.length &&
      Keyword.declaring.contains (String.ofList (trailingIdent preceding)) then
    none
  else
    let usage := if (trimStart rest).head? = some '(' then UseForm.call else UseForm.name
    let owner := if before.getLast? = some '.' then trailingIdent before.dropLast else []
    return {
      name := String.ofList word
      usage := usage
      owner := if owner.isEmpty then none else some (String.ofList owner)
      version := if usage = .call then versionIn (rest.takeWhile (· != ')')) else none }

end NameUse

def resolve (w : Snapshot) (q : NameUse) : Resolution :=
  Resolution.ofMatches (w.findAll q.name q.version q.owner q.usage.admits)

def definitionAt (w : Snapshot) (cs : Text) (p : Position) : Resolution :=
  match NameUse.at? cs p with
  | some q => resolve w q
  | none => .notFound

end ProcedureIndex
