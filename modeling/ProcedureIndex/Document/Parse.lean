import ProcedureIndex.Document.Annotations
import ProcedureIndex.Document.Header
import ProcedureIndex.Symbol.Table
import ProcedureIndex.Text.Code

/-!
From a document to its declarations. There is no syntax tree: every family of
declarations is found by its own header, family after family, and nesting counts
only where the body of a class is concerned. Reading a document never fails;
what is not understood declares nothing.
-/

namespace ProcedureIndex

open Text

/-- A declaration as found in a text: where its header and its name start, the name, and what it
declares. -/
structure Site where
  header : Nat
  start : Nat
  name : Text
  form : SymbolForm
  deriving DecidableEq, Repr

namespace Site

/-- The last of some increasing places that lies before an offset. -/
def lastBefore (places : List Nat) (offset : Nat) : Option Nat :=
  (places.filter (· < offset)).getLast?

/-- A place counts as lying in a class while the nearest class header before it stands behind the
nearest closing brace before it. -/
def inClass (classes closers : List Nat) (offset : Nat) : Bool :=
  match lastBefore classes offset, lastBefore closers offset with
  | some c, some b => b < c
  | some _, none => true
  | none, _ => false

def classes (cs : Text) : List (Hit ClassHeader) :=
  hits ClassHeader.pattern cs

def closers (cs : Text) : List Nat :=
  ((codeChars cs).filter fun p => p.2 == '}').map Prod.fst

/-- The functions that do not count as lying in a class. -/
def functions (cs : Text) : List Site :=
  let starts := (classes cs).map Hit.start
  let closers := closers cs
  ((hits FnHeader.pattern cs).filter fun h => !inClass starts closers h.start).map fun h =>
    ⟨h.start, h.start + width h.value.lead, h.value.name, .function (versionIn h.value.params)⟩

def pipelines (cs : Text) : List Site :=
  (hits PipelineHeader.pattern cs).map fun h =>
    ⟨h.start, h.start + width h.value.lead, h.value.name, .pipeline⟩

/-- Where the body of a class starts, and its text: what lies between the brace behind the header
and the brace that closes it, or the end of the document. A header without a brace has no body. -/
def body? (total : Nat) (rest : Text) : Option (Nat × Text) :=
  match rest.dropWhile isBlank with
  | '{' :: inner => some (total - width inner, untilClosed .code 1 inner)
  | _ => none

def methods (owner : Text) (base : Nat) (body : Text) : List Site :=
  (hits FnHeader.pattern body).map fun h =>
    ⟨base + h.start, base + h.start + width h.value.lead, h.value.name,
      .method (String.ofList owner) (versionIn h.value.params) h.value.isStatic⟩

def types (cs : Text) : List Site :=
  (classes cs).flatMap fun h =>
    ⟨h.start, h.start + width h.value.lead, h.value.name,
      .classType (h.value.parent.map String.ofList)⟩ ::
      match body? (width cs) h.rest with
      | some (base, body) => methods h.value.name base body
      | none => []

def onLines (recognise : Text → Option LineHeader) (form : String → SymbolForm) (cs : Text) :
    List Site :=
  (LineHeader.all recognise cs).map fun (offset, h) =>
    ⟨offset, offset + width h.lead, h.name, form (String.ofList (LineHeader.literal h.value))⟩

def aliases : Text → List Site :=
  onLines (LineHeader.assigned? "alias".toList) .typeAlias

def macros : Text → List Site :=
  onLines (LineHeader.spaced? "macro".toList) .macroText

def constants : Text → List Site :=
  onLines (LineHeader.assigned? "const".toList) .constant

def all (cs : Text) : List Site :=
  functions cs ++ pipelines cs ++ types cs ++ aliases cs ++ macros cs ++ constants cs

def symbol (file : FileId) (cs : Text) (site : Site) : Symbol :=
  let (labels, doc) := Annotations.above (takeBytes site.header cs)
  { name := String.ofList site.name
    form := site.form
    file := file
    start := site.start
    position := (LineMap.ofText cs).position site.start
    labels := labels
    doc := doc }

end Site

def parse (file : FileId) (cs : Text) : Declarations :=
  Declarations.ofSymbols ((Site.all cs).map (Site.symbol file cs))

end ProcedureIndex
