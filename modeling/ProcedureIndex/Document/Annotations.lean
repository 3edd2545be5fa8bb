import ProcedureIndex.Text.Lines

/-!
Labels and documentation above a declaration. The lines are read upward from the
declaration; blank lines and plain comments are passed over, and the first line
of anything else ends the reading.
-/

namespace ProcedureIndex
namespace Annotations

open Text

inductive LineNote where
  | blank
  | label (value : Text)
  | doc (value : Text)
  | comment
  | other
  deriving DecidableEq, Repr

/-- The value of a line `@label("value")` without the blanks around it. -/
def label? (line : Text) : Option Text := do
  let rest ← after? "@label(".toList line
  let rest ← after? ['"'] (rest.dropWhile isBlank)
  let behind ← after? ['"'] (rest.dropWhile (· != '"'))
  let behind ← after? [')'] (behind.dropWhile isBlank)
  if behind.isEmpty then some (rest.takeWhile (· != '"')) else none

def LineNote.ofLine (line : Text) : LineNote :=
  let line := trim line
  if line.isEmpty then .blank
  else
    match label? line, after? "///".toList line, after? "//".toList line with
    | some value, _, _ => .label value
    | none, some rest, _ => .doc (trim rest)
    | none, none, some _ => .comment
    | none, none, none => .other

/-- The labels on some lines and the first documentation among them; the lines come nearest
first, and so do the labels. -/
def read : List Text → List Text × Option Text
  | [] => ([], none)
  | line :: above =>
      match LineNote.ofLine line with
      | .blank | .comment => read above
      | .label value => (value :: (read above).1, (read above).2)
      | .doc value => ((read above).1, some value)
      | .other => ([], none)

/-- The labels, in source order and each once, and the documentation of a declaration that follows
a text. Code before the declaration on its own line leaves it without any. -/
def above (before : Text) : List String × Option String :=
  match (lines before).reverse with
  | [] => ([], none)
  | own :: rest =>
      if (trim own).isEmpty then
        let (labels, doc) := read rest
        ((labels.reverse.map String.ofList).eraseDups, doc.map String.ofList)
      else
        ([], none)

end Annotations
end ProcedureIndex
