import ProcedureIndex.Symbol.Basic
import ProcedureIndex.Text.CodeMask
import ProcedureIndex.Text.Pattern

/-!
Uses of a name in a text. Four patterns look for the name on every line; what lies
in a string or a comment is dropped, and of several patterns that meet at one
place the first one counts. An engine builds the patterns; for a name that it
refuses nothing is reported.
-/

namespace ProcedureIndex

open Text

inductive ReferenceKind where
  | call
  | typePosition
  | member
  | bare
  | declaration
  deriving DecidableEq, Repr

/-- What builds the patterns of a name before a search, or refuses to. -/
structure PatternEngine where
  builds : String → Bool

/-- An engine that spends at most ten mebibytes on a pattern, and thirty-two bytes on each byte of
the name in it. -/
def PatternEngine.limited : PatternEngine where
  builds name := 32 * name.utf8ByteSize < 0xA00000

structure Reference where
  file : FileId
  position : Position
  length : Nat
  kind : ReferenceKind
  deriving DecidableEq, Repr

namespace Reference

/-- A name, between word boundaries or not, as given by the two sides. -/
def nameAt (name : Text) (edgeBefore edgeAfter : Bool) : Pattern Unit := fun prev cs => do
  let rest ← after? name cs
  let last := name.getLast?.or prev
  if (!edgeBefore || isWordEdge prev cs.head?) && (!edgeAfter || isWordEdge last rest.head?) then
    some ((), rest)
  else
    none

def callPattern (name : Text) : Pattern Unit := fun prev cs => do
  let (_, rest) ← nameAt name true false prev cs
  let rest ← after? ['('] (rest.dropWhile isBlank)
  return ((), rest)

/-- Tries a pattern behind as many blanks as there are, then behind fewer; the answer says how wide
the blanks are. -/
def behindBlanks (p : Pattern Unit) : Nat → Option Char → Text → Option (Nat × Text)
  | skipped, prev, [] => (p prev []).map fun (_, rest) => (skipped, rest)
  | skipped, prev, c :: cs =>
      let here := (p prev (c :: cs)).map fun (_, rest) => (skipped, rest)
      if isBlank c then (behindBlanks p (skipped + c.utf8Size) (some c) cs).or here else here

/-- A mark that puts a type behind it, and the name behind the mark; the answer is how far behind
the start of the mark the name starts. -/
def markedPattern (mark : Text) (edge : Bool) (name : Text) : Pattern Nat := fun prev cs => do
  let (_, rest) ← nameAt mark edge false prev cs
  behindBlanks (nameAt name false true) (width mark) mark.getLast? rest

def typePattern (name : Text) : Pattern Nat := fun prev cs =>
  (markedPattern [':'] false name prev cs).or (markedPattern "extends".toList true name prev cs)

def memberPattern (name : Text) : Pattern Unit := fun _ cs => do
  let rest ← after? ['.'] cs
  nameAt name false true (some '.') rest

/-- Everything that the patterns find on a line, the ones that count before others first. -/
def onLine (name line : Text) : List (Nat × ReferenceKind) :=
  (hits (callPattern name) line).map (fun h => (h.start, .call)) ++
  (hits (typePattern name) line).map (fun h => (h.start + h.value, .typePosition)) ++
  (hits (memberPattern name) line).map (fun h => (h.start + 1, .member)) ++
  ((hits (nameAt name true true) line).filter fun h =>
      !(h.rest.head?.any fun c => c == ':' || c == '(' || c == '=')).map
    fun h => (h.start, .bare)

/-- Keeps the first of several entries for one position, and none for the positions in `seen`. -/
def firstOf (seen : List Position) : List (Position × ReferenceKind) →
    List (Position × ReferenceKind)
  | [] => []
  | e :: rest => if seen.contains e.1 then firstOf seen rest else e :: firstOf (e.1 :: seen) rest

def onLines (name : Text) (declared : List Position) : Nat → List Text →
    List (Position × ReferenceKind)
  | _, [] => []
  | n, line :: rest =>
      let here :=
        if includes line name then
          let mask := CodeMask.ofLine line
          ((onLine name line).filter fun u =>
            mask.isCode u.1 && !declared.contains ⟨n, u.1⟩).map fun u => (⟨n, u.1⟩, u.2)
        else []
      here ++ onLines name declared (n + 1) rest

/-- The uses of a name that its patterns find in a text, in reading order. The places in `declared`
are where the name is declared; they are reported, as declarations, only on demand. -/
def search (file : FileId) (cs : Text) (name : String) (declared : List Position)
    (withDeclarations : Bool) : List Reference :=
  let places := if withDeclarations then declared else []
  let found := firstOf []
    (places.map (fun p => (p, .declaration)) ++ onLines name.toList declared 0 (readLines cs))
  (found.mergeSort fun a b => a.1.notAfter b.1).map fun (p, kind) =>
    ⟨file, p, width name.toList, kind⟩

/-- The uses of a name in a text. A name that has no patterns has no uses, not even where it is
declared. -/
def all (file : FileId) (cs : Text) (name : String) (declared : List Position)
    (withDeclarations : Bool) (engine : PatternEngine := .limited) : List Reference :=
  if engine.builds name then search file cs name declared withDeclarations else []

end Reference
end ProcedureIndex
