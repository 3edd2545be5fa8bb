import ProcedureIndex.Text.Classes

/-!
The name that a text starts with, the identifier that a text ends with and the
identifier around a column. The last two take the maximal run of identifier
characters and give it up if it does not start like an identifier.
-/

namespace ProcedureIndex
namespace Text

def name? : Text → Option (Text × Text)
  | [] => none
  | c :: cs =>
      if isNameStart c then
        some (c :: cs.takeWhile isNameContinue, cs.dropWhile isNameContinue)
      else
        none

def trailingRun (cs : Text) : Text :=
  (cs.reverse.takeWhile isIdentContinue).reverse

/-- The identifier that a text ends with, or nothing: a run such as `12` is no identifier. -/
def trailingIdent (cs : Text) : Text :=
  if (trailingRun cs).head?.any isIdentStart then trailingRun cs else []

/-- Where the identifier under, or just before, a column starts, and its characters. Columns past
the end stand for the end; there is nothing inside a character. -/
def identAt (line : Text) (col : Nat) : Option (Nat × Text) :=
  let col := min col (width line)
  if isBoundary col line then
    let left := trailingRun (takeBytes col line)
    let word := left ++ (dropBytes col line).takeWhile isIdentContinue
    if word.head?.any isIdentStart then some (col - width left, word) else none
  else
    none

end Text
end ProcedureIndex
