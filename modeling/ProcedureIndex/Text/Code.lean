import ProcedureIndex.Text.Basic
import ProcedureIndex.Fault

/-!
Code and strings. Either quote opens a string, a backslash inside one hides the
next character, and a string ends at its own quote or at the end of the line.
The code characters are those outside strings; braces are matched among them.
-/

namespace ProcedureIndex
namespace Text

/-- Where a scan stands: in code, in a string, or after a backslash in a string. -/
inductive Quoting where
  | code
  | within (quote : Char)
  | hidden (quote : Char)
  deriving DecidableEq, Repr

namespace Quoting

def isQuote (c : Char) : Bool :=
  c == '"' || c == '\''

def next : Quoting → Char → Quoting
  | .code, c => if isQuote c then .within c else .code
  | .within q, c =>
      if c = '\\' then .hidden q else if c = q ∨ c = '\n' then .code else .within q
  | .hidden q, _ => .within q

def isCode : Quoting → Char → Bool
  | .code, c => !isQuote c
  | _, _ => false

def after (q : Quoting) (cs : Text) : Quoting :=
  cs.foldl next q

@[simp] theorem after_nil (q : Quoting) : q.after [] = q := rfl

@[simp] theorem after_cons (q : Quoting) (c : Char) (cs : Text) :
    q.after (c :: cs) = (q.next c).after cs := rfl

@[simp] theorem after_append (q : Quoting) (a b : Text) :
    q.after (a ++ b) = (q.after a).after b :=
  List.foldl_append

end Quoting

def endsInString (cs : Text) : Bool :=
  Quoting.code.after cs != .code

def codeCharsFrom : Quoting → Nat → Text → List (Nat × Char)
  | _, _, [] => []
  | q, offset, c :: cs =>
      let rest := codeCharsFrom (q.next c) (offset + c.utf8Size) cs
      if q.isCode c then (offset, c) :: rest else rest

/-- Scanning a text goes on from any place with the state reached there. -/
theorem codeCharsFrom_append (q : Quoting) (offset : Nat) (a b : Text) :
    codeCharsFrom q offset (a ++ b) =
      codeCharsFrom q offset a ++ codeCharsFrom (q.after a) (offset + width a) b := by
  induction a generalizing q offset with
  | nil => simp [codeCharsFrom]
  | cons c cs ih =>
      simp only [List.cons_append, codeCharsFrom, ih, Quoting.after_cons, width_cons,
        Nat.add_assoc]
      split <;> rfl

/-- The characters outside strings, with their offsets. -/
def codeChars (cs : Text) : List (Nat × Char) :=
  codeCharsFrom .code 0 cs

/-- The text before the code `}` that brings the depth to zero, or all of it. -/
def untilClosed : Quoting → Nat → Text → Text
  | _, _, [] => []
  | q, depth, c :: cs =>
      if q.isCode c && c == '}' then
        if depth ≤ 1 then [] else c :: untilClosed (q.next c) (depth - 1) cs
      else if q.isCode c && c == '{' then c :: untilClosed (q.next c) (depth + 1) cs
      else c :: untilClosed (q.next c) depth cs

/-- The offset of the `}` that closes the `{` at `start`, or the end of the text. The place has
to lie on a character boundary inside the text. -/
def matchingBrace (cs : Text) (start : Nat) : Except Fault Nat :=
  if isBoundary start cs then
    .ok (start + width (untilClosed .code 0 (dropBytes start cs)))
  else
    .error .badOffset

def stackBrace (stack : List Nat) : Nat × Char → List Nat
  | (offset, '{') => offset :: stack
  | (_, '}') => stack.tail
  | _ => stack

def openBraces (cs : Text) : List Nat :=
  (codeChars cs).foldl stackBrace []

/-- The braces still open at the end of a text, outermost first. -/
def unclosedBraces (cs : Text) : List Nat :=
  (openBraces cs).reverse

end Text
end ProcedureIndex
