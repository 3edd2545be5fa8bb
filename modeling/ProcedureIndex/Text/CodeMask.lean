import ProcedureIndex.Text.Code

/-!
The mask of one line: its strings, quotes included, and the start of a `//`
comment. A string that is not closed runs to the end of the line.
-/

namespace ProcedureIndex

/-- What of a line is not code: half-open byte ranges of strings, and a comment's start. -/
structure CodeMask where
  strings : List (Nat × Nat)
  comment : Option Nat
  deriving DecidableEq, Repr

namespace CodeMask

inductive Stage where
  | code
  | within (quote : Char) (start : Nat)
  | hidden (quote : Char) (start : Nat)
  deriving DecidableEq, Repr

def scan : Stage → Nat → Text → CodeMask
  | .code, _, [] => ⟨[], none⟩
  | .within _ start, offset, [] => ⟨[(start, offset)], none⟩
  | .hidden _ start, offset, [] => ⟨[(start, offset)], none⟩
  | .code, offset, c :: cs =>
      if Text.Quoting.isQuote c then scan (.within c offset) (offset + c.utf8Size) cs
      else if c = '/' ∧ cs.head? = some '/' then ⟨[], some offset⟩
      else scan .code (offset + c.utf8Size) cs
  | .within q start, offset, c :: cs =>
      if c = '\\' then scan (.hidden q start) (offset + c.utf8Size) cs
      else if c = q then
        let rest := scan .code (offset + c.utf8Size) cs
        ⟨(start, offset + 1) :: rest.strings, rest.comment⟩
      else scan (.within q start) (offset + c.utf8Size) cs
  | .hidden q start, offset, c :: cs => scan (.within q start) (offset + c.utf8Size) cs

def ofLine (line : Text) : CodeMask :=
  scan .code 0 line

def isCode (mask : CodeMask) (offset : Nat) : Bool :=
  !(mask.comment.any (· ≤ offset)) &&
    !(mask.strings.any fun s => s.1 ≤ offset && offset < s.2)

end CodeMask
end ProcedureIndex
