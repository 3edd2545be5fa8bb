import ProcedureIndex.Text.Ident

/-!
Searching a text. A pattern is tried at one place: it sees the character before
the place and the text from there on, and answers what it captured and what it
left. Searching tries every place from left to right and goes on behind each
hit, so that hits never overlap.
-/

namespace ProcedureIndex
namespace Text

abbrev Pattern (α : Type) := Option Char → Text → Option (α × Text)

/-- One match: where it starts, what it captured, and the text behind it. -/
structure Hit (α : Type) where
  start : Nat
  value : α
  rest : Text

/-- The hits of a pattern in a text that starts at `offset` behind the character `prev`. The next
`covered` characters belong to the hit before and are passed over. -/
def hitsFrom {α : Type} (p : Pattern α) : Option Char → Nat → Nat → Text → List (Hit α)
  | _, _, _ + 1, [] => []
  | prev, offset, 0, [] =>
      match p prev [] with
      | some (a, rest) => [⟨offset, a, rest⟩]
      | none => []
  | _, offset, covered + 1, c :: cs =>
      hitsFrom p (some c) (offset + c.utf8Size) covered cs
  | prev, offset, 0, c :: cs =>
      match p prev (c :: cs) with
      | some (a, rest) =>
          ⟨offset, a, rest⟩ ::
            hitsFrom p (some c) (offset + c.utf8Size) (cs.length - rest.length) cs
      | none => hitsFrom p (some c) (offset + c.utf8Size) 0 cs

def hits {α : Type} (p : Pattern α) (cs : Text) : List (Hit α) :=
  hitsFrom p none 0 0 cs

def firstHit? {α : Type} (p : Pattern α) (cs : Text) : Option (Hit α) :=
  (hits p cs).head?

def inWord (prev : Option Char) : Bool :=
  prev.any isWordChar

def some? (p : Char → Bool) (cs : Text) : Option (Text × Text) :=
  if cs.head?.any p then some (cs.takeWhile p, cs.dropWhile p) else none

def blanks? (cs : Text) : Option (Text × Text) :=
  some? isBlank cs

/-- A keyword, blanks and a name: the text before the name, the name, and what follows. -/
def named? (keyword : Text) (cs : Text) : Option ((Text × Text) × Text) := do
  let rest ← after? keyword cs
  let (gap, rest) ← blanks? rest
  let (name, rest) ← name? rest
  return ((keyword ++ gap, name), rest)

end Text
end ProcedureIndex
