import ProcedureIndex.Text.Basic

/-!
How alike two names are: one minus the edit distance over the longer length,
both counted in characters.
-/

namespace ProcedureIndex
namespace Text

/-- The next row of the table of edit distances. The row so far holds the distances from the
beginnings of one text to some beginning of the other, and `left` the entry to the left. -/
def editRow (c : Char) : Text → Nat → Nat → List Nat → List Nat
  | b :: bs, left, diagonal, up :: ups =>
      let entry := min (min (up + 1) (left + 1)) (if b = c then diagonal else diagonal + 1)
      entry :: editRow c bs entry up ups
  | _, _, _, _ => []

def editRows (b : Text) : Text → List Nat → Nat
  | [], row => row.getLast?.getD 0
  | c :: cs, row =>
      match row with
      | [] => 0
      | first :: ups => editRows b cs ((first + 1) :: editRow c b (first + 1) first ups)

/-- The least number of insertions, deletions and replacements that turn one text into the other. -/
def editDistance (a b : Text) : Nat :=
  editRows b a (List.range (b.length + 1))

def similarity (a b : Text) : Float :=
  if a.isEmpty && b.isEmpty then 1.0
  else 1.0 - (editDistance a b).toFloat / (max a.length b.length).toFloat

end Text
end ProcedureIndex
