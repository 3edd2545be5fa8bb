import ProcedureIndex.Document.Header
import ProcedureIndex.Document.Keyword
import ProcedureIndex.Text.Code

/-!
What is being typed at the cursor. The line up to the cursor and the rest of the
line behind it decide; the checks stand in a fixed order and the first that
applies gives the context.
-/

namespace ProcedureIndex

open Text

/-- Where the cursor stands, with the word being typed. -/
inductive Context where
  /-- Inside `@label(` or the string behind it. -/
  | label (typed : Text)
  /-- Where a statement or a call is expected; at the start of a statement nothing but blanks or a
  brace precedes the word. -/
  | call (typed : Text) (atStart : Bool)
  /-- Behind a control keyword. -/
  | keyword (typed : Text)
  /-- Behind a colon or an arrow. -/
  | type (typed : Text)
  /-- At the name of an argument of a call. -/
  | parameter (typed : Text) (function : Option Text)
  /-- At the value of a version argument. -/
  | version (typed : Text) (function : Option Text)
  /-- At the name of a variable or behind an equals sign. -/
  | variable (typed : Text)
  /-- Anywhere else. -/
  | general (typed : Text)
  deriving DecidableEq, Repr

namespace Context

/-- The short name that is remembered with accepted completions. -/
def tag : Context → String
  | .label _ => "label"
  | .call _ _ => "call"
  | .keyword _ => "keyword"
  | .type _ => "type"
  | .parameter _ _ => "parameter"
  | .version _ _ => "version"
  | .variable _ => "variable"
  | .general _ => "intelligent"

def typed : Context → Text
  | .label t | .call t _ | .keyword t | .type t | .parameter t _ | .version t _ | .variable t
  | .general t => t

def wantsVariables : Context → Bool
  | .label _ | .version _ _ | .type _ => false
  | _ => true

/-- Is this nothing, or one name and nothing behind it? -/
def isWordStart (cs : Text) : Bool :=
  match cs with
  | [] => true
  | cs => (name? cs).any fun (_, rest) => rest.isEmpty

/-- `@label(` with nothing behind it, or with the beginning of a string. -/
def labelPattern : Pattern Text := fun _ cs => do
  let rest ← after? "@label(".toList cs
  match rest.dropWhile isBlank with
  | [] => return ([], [])
  | '"' :: value => if value.contains '"' then none else return (value, [])
  | _ => none

def keywordPattern (keywords : List String) : Pattern Unit := fun prev cs =>
  if inWord prev then none
  else
    keywords.findSome? fun k => do
      let rest ← after? k.toList cs
      let (_, rest) ← blanks? rest
      if isWordStart rest then some ((), []) else none

/-- A mark, and behind it at most blanks and the beginning of a word. -/
def markPattern (mark : Text) : Pattern Unit := fun _ cs => do
  let rest ← after? mark cs
  if isWordStart (rest.dropWhile isBlank) then some ((), []) else none

def versionKey? (prev : Option Char) (cs : Text) : Option Text :=
  if inWord prev then none
  else do
    let rest ← after? "version".toList cs
    let rest ← after? [':'] (rest.dropWhile isBlank)
    return rest.dropWhile isBlank

def versionKeyPattern : Pattern Unit := fun prev cs => do
  let rest ← versionKey? prev cs
  if rest.isEmpty then some ((), []) else none

/-- The characters of a version that is typed without a closing quote. -/
def isVersionChar (c : Char) : Bool :=
  isWordChar c || c == '.' || c == '-'

def versionValuePattern : Pattern Text := fun prev cs => do
  let rest ← versionKey? prev cs
  let value := (after? ['"'] rest).getD rest
  if value.all isVersionChar then some (value, []) else none

/-- A call whose arguments hold no parenthesis and end with the beginning of a version. -/
def versionCallPattern : Pattern Text := fun _ cs => do
  let (name, rest) ← name? cs
  let inner ← after? ['('] (rest.dropWhile isBlank)
  if inner.all (fun c => c != '(' && c != ')') && (firstHit? versionValuePattern inner).isSome then
    some (name, [])
  else
    none

def occurs {α : Type} (p : Pattern α) (cs : Text) : Bool :=
  (firstHit? p cs).isSome

def occursAny (ps : List (Pattern Unit)) (cs : Text) : Bool :=
  ps.any fun p => occurs p cs

/-- One code character's effect on the stack of open parentheses, innermost first. -/
def stackParen (stack : List Nat) : Nat × Char → List Nat
  | (offset, '(') => offset :: stack
  | (_, ')') => stack.tail
  | _ => stack

/-- The innermost parenthesis that a line leaves open in code. -/
def openParen? (line : Text) : Option Nat :=
  ((codeChars line).foldl stackParen []).head?

def endsWith (cs ending : Text) : Bool :=
  (after? ending.reverse cs.reverse).isSome

def isCallPosition (head : Text) : Bool :=
  match head.getLast? with
  | none => true
  | some last =>
      let trimmed := trimEnd head
      let word := String.ofList (trailingIdent trimmed)
      (isBlank last || ['{', '}', '(', ')', ','].contains last) &&
        !(endsWith trimmed [':'] || endsWith trimmed ['-', '>'] || endsWith trimmed ['=']) &&
        !(trimmed.length < head.length &&
          (Keyword.declaring.contains word || Keyword.control.contains word))

def calleeOf (cs : Text) : Option Text :=
  let name := trailingIdent (trimEnd cs)
  if name.isEmpty then none else some name

/-- The context at the end of a line, with the rest of that line behind the cursor. -/
def ofLine (line rest : Text) : Context :=
  let typed := trailingIdent line
  let head := line.take (line.length - typed.length)
  let inString := endsInString line
  let version := (firstHit? versionValuePattern line).map Hit.value
  let inArguments :=
    (openParen? line).isSome && !inString && version.isNone && rest.contains ')'
  match firstHit? labelPattern line with
  | some hit => .label hit.value
  | none =>
      if !inString && !inArguments && isCallPosition head then
        .call typed ((trimEnd head).getLast?.all fun c => c == '{' || c == '}')
      else if !inString && occurs (keywordPattern Keyword.control) line then .keyword typed
      else if !inString && occursAny [markPattern [':'], markPattern ['-', '>']] line &&
          !occurs versionKeyPattern head then
        .type typed
      else if inArguments then
        .parameter typed ((openParen? line).bind fun start => calleeOf (takeBytes start line))
      else
        match version with
        | some value => .version value ((firstHit? versionCallPattern line).map Hit.value)
        | none =>
            if !inString &&
                occursAny [keywordPattern ["let", "const"], markPattern ['=']] line then
              .variable typed
            else
              .general typed

def classify (before after : Text) : Context :=
  ofLine (lastLine before) (firstLine after)

end Context

/-- The name of the function whose body is open at the end of a text. Blocks that are not opened by
a function header are passed over from the inside out. -/
def enclosingFunction (before : Text) : Option Text :=
  let headers := (hits FnHeader.pattern before).reverse
  (openBraces before).findSome? fun brace => do
    let header ← headers.find? fun h => width before - width h.rest ≤ brace
    let between := takeBytes (brace - (width before - width header.rest)) header.rest
    if between.any (fun c => c == '{' || c == '}') then none else some header.value.name

end ProcedureIndex
