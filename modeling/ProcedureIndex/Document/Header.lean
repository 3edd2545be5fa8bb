import ProcedureIndex.Text.Lines
import ProcedureIndex.Text.Pattern

/-!
The shapes of declarations. Every family of declarations has a header of its own
that can be recognised at a place of the text, or on a line, without looking at
anything around it. Each recogniser keeps the text that leads up to the declared
name, so that the place of the name follows from the place of the header.
-/

namespace ProcedureIndex

open Text

structure ClassHeader where
  lead : Text
  name : Text
  parent : Option Text
  deriving DecidableEq, Repr

namespace ClassHeader

def keyword : Text := "class".toList

def parent? (cs : Text) : Option (Text × Text) := do
  let (_, rest) ← blanks? cs
  let ((_, name), rest) ← named? "extends".toList rest
  return (name, rest)

def pattern : Pattern ClassHeader := fun prev cs =>
  if inWord prev then none
  else do
    let ((lead, name), rest) ← named? keyword cs
    match parent? rest with
    | some (parent, rest) => return (⟨lead, name, some parent⟩, rest)
    | none => return (⟨lead, name, none⟩, rest)

end ClassHeader

/-- `fn name(parameters`, perhaps behind `static`. The parameters reach to the first closing
parenthesis or, without one, to the end of the text. -/
structure FnHeader where
  isStatic : Bool
  lead : Text
  name : Text
  params : Text
  deriving DecidableEq, Repr

namespace FnHeader

def keyword : Text := "fn".toList

def staticKeyword : Text := "static".toList

def plain? (cs : Text) : Option (FnHeader × Text) := do
  let ((lead, name), rest) ← named? keyword cs
  let rest ← after? ['('] (rest.dropWhile isBlank)
  return (⟨false, lead, name, rest.takeWhile (· != ')')⟩, rest.dropWhile (· != ')'))

def static? (cs : Text) : Option (Text × Text) := do
  let rest ← after? staticKeyword cs
  let (gap, rest) ← blanks? rest
  return (staticKeyword ++ gap, rest)

def pattern : Pattern FnHeader := fun prev cs =>
  if inWord prev then none
  else
    match static? cs with
    | some (lead, rest) =>
        (plain? rest).map fun (h, rest) =>
          ({ h with isStatic := true, lead := lead ++ h.lead }, rest)
    | none => plain? cs

end FnHeader

structure PipelineHeader where
  lead : Text
  name : Text
  deriving DecidableEq, Repr

namespace PipelineHeader

def keyword : Text := "pipeline".toList

def pattern : Pattern PipelineHeader := fun prev cs =>
  if inWord prev then none
  else (named? keyword cs).map fun ((lead, name), rest) => (⟨lead, name⟩, rest)

end PipelineHeader

/-- A declaration that has a line to itself: its name and the value given to it. -/
structure LineHeader where
  lead : Text
  name : Text
  value : Text
  deriving DecidableEq, Repr

namespace LineHeader

def named? (keyword : Text) (line : Text) : Option ((Text × Text) × Text) := do
  let rest ← after? keyword (line.dropWhile isSpacing)
  let (gap, rest) ← some? isSpacing rest
  let (name, rest) ← name? rest
  return ((line.takeWhile isSpacing ++ keyword ++ gap, name), rest)

/-- `keyword name = value`. -/
def assigned? (keyword : Text) (line : Text) : Option LineHeader := do
  let ((lead, name), rest) ← named? keyword line
  let value ← after? ['='] (rest.dropWhile isSpacing)
  return ⟨lead, name, value⟩

/-- `keyword name` or `keyword name value`. -/
def spaced? (keyword : Text) (line : Text) : Option LineHeader := do
  let ((lead, name), rest) ← named? keyword line
  match rest with
  | [] => return ⟨lead, name, []⟩
  | c :: cs => if isSpacing c then return ⟨lead, name, cs⟩ else none

/-- A value without the blanks around it and the semicolons behind it. -/
def literal (value : Text) : Text :=
  trimEnd (trimEndOf ';' (trim value))

def linesFrom : Nat → List Text → List (Nat × Text)
  | _, [] => []
  | offset, l :: ls => (offset, l) :: linesFrom (offset + width l + 1) ls

/-- Every line on which a recogniser succeeds, with the place where the line starts. -/
def all (recognise : Text → Option LineHeader) (cs : Text) : List (Nat × LineHeader) :=
  (linesFrom 0 (lines cs)).filterMap fun (offset, line) =>
    (recognise line).map fun h => (offset, h)

end LineHeader

def versionPattern : Pattern Text := fun prev cs =>
  if inWord prev then none
  else do
    let rest ← after? "version".toList cs
    let rest ← after? [':'] (rest.dropWhile isBlank)
    let rest ← after? ['"'] (rest.dropWhile isBlank)
    let behind ← after? ['"'] (rest.dropWhile (· != '"'))
    return (rest.takeWhile (· != '"'), behind)

def versionIn (params : Text) : Option String :=
  (firstHit? versionPattern params).map fun h => String.ofList h.value

end ProcedureIndex
