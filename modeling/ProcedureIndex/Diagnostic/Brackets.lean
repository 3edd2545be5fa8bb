import ProcedureIndex.Diagnostic.Basic
import ProcedureIndex.Text.Code

/-!
Unbalanced brackets. The brackets outside strings and comments are matched with a
stack; a closing bracket that does not fit the top of the stack is reported and
otherwise ignored, and what is left on the stack at the end is reported after.
-/

namespace ProcedureIndex
namespace Brackets

def isOpening (c : Char) : Bool :=
  c == '{' || c == '(' || c == '['

def opening? (c : Char) : Option Char :=
  if c = '}' then some '{'
  else if c = ')' then some '('
  else if c = ']' then some '['
  else none

/-- The code characters that are not in a comment. A comment starts at two slashes with no code
character between them and ends behind the next newline that is a code character. -/
def outsideComments : Bool → List (Nat × Char) → List (Nat × Char)
  | _, [] => []
  | true, (_, c) :: rest => outsideComments (c != '\n') rest
  | false, (i, c) :: rest =>
      if c = '/' ∧ (rest.head?.map Prod.snd) = some '/' then outsideComments true rest
      else (i, c) :: outsideComments false rest

/-- What is wrong with some brackets: the closers that fit nothing, and the openers never closed. -/
structure Faults where
  closers : List (Nat × Char)
  openers : List (Nat × Char)
  deriving DecidableEq, Repr

def pairUp : List (Nat × Char) → List (Nat × Char) → Faults
  | stack, [] => ⟨[], stack.reverse⟩
  | stack, (i, c) :: rest =>
      if isOpening c then pairUp ((i, c) :: stack) rest
      else
        match opening? c with
        | none => pairUp stack rest
        | some o =>
            if (stack.head?.map Prod.snd) = some o then pairUp stack.tail rest
            else
              let faults := pairUp stack rest
              ⟨(i, c) :: faults.closers, faults.openers⟩

def faults (cs : Text) : Faults :=
  pairUp [] (outsideComments false (Text.codeChars cs))

def report (file : FileId) (lines : LineMap) (code : String) (message : Char → String)
    (bracket : Nat × Char) : Diagnostic :=
  let p := lines.position bracket.1
  { file := file
    start := p
    stop := ⟨p.line, p.col + 1⟩
    severity := .error
    code := some code
    message := message bracket.2
    related := [] }

/-- The diagnostics of unbalanced brackets: closers first, then openers, each in text order. -/
def check (file : FileId) (cs : Text) : List Diagnostic :=
  let lines := LineMap.ofText cs
  let found := faults cs
  found.closers.map (report file lines Diagnostic.unexpectedCloserCode
      fun c => "unexpected closing '" ++ String.singleton c ++ "'") ++
    found.openers.map (report file lines Diagnostic.unclosedBracketCode
      fun c => "unclosed '" ++ String.singleton c ++ "'")

end Brackets
end ProcedureIndex
