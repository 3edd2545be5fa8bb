import ProcedureIndex.Document.Parse

/-!
Canonical documents. A canonical document is a list of declarations, each under its
annotations, printed with one item on a line. What it declares is read off the list,
family by family, and never off the printed text.
-/

namespace ProcedureIndex
namespace Canonical

open Text

def reserved : List Text :=
  ["class".toList, "extends".toList, "fn".toList, "static".toList, "pipeline".toList,
   "alias".toList, "macro".toList, "const".toList]

/-- An ASCII identifier that is not a keyword of declarations. -/
structure Word where
  text : Text
  start : text.head?.any (fun c => c.isAlpha || c == '_') = true
  all : ∀ c ∈ text, (c.isAlphanum || c == '_') = true
  free : text ∉ reserved

def Word.name (w : Word) : String :=
  String.ofList w.text

inductive Note where
  | label (value : Word)
  | doc (value : Word)

namespace Note

def label? : Note → Option Word
  | .label value => some value
  | .doc _ => none

def doc? : Note → Option Word
  | .label _ => none
  | .doc value => some value

end Note

structure Method where
  name : Word
  version : Option Word
  isStatic : Bool

inductive Item where
  | function (name : Word) (version : Option Word)
  | pipeline (name : Word)
  | typeAlias (name target : Word)
  | macroText (name value : Word)
  | constant (name value : Word)
  | classType (name : Word) (parent : Option Word) (methods : List Method)

/-- A declaration under its notes: any number of labels, all distinct, and at most one
documentation, in any order. -/
structure Declaration where
  notes : List Note
  item : Item
  distinct : ((notes.filterMap Note.label?).map Word.name).Nodup
  single : (notes.filterMap Note.doc?).length ≤ 1

inductive Line where
  | blank
  | note (value : Note)
  | function (name : Word) (version : Option Word)
  | pipeline (name : Word)
  | typeAlias (name target : Word)
  | macroText (name value : Word)
  | constant (name value : Word)
  | classOpen (name : Word) (parent : Option Word)
  | method (value : Method)
  | classClose

inductive Piece where
  | fixed (text : String)
  | word (value : Word)

namespace Piece

instance : Coe String Piece := ⟨.fixed⟩

instance : Coe Word Piece := ⟨.word⟩

def text : Piece → Text
  | .fixed s => s.toList
  | .word w => w.text

end Piece

/-- The parameters of a function or method, none but perhaps its version, and what closes them. -/
def params (close : String) : Option Word → List Piece
  | none => ["(", close]
  | some v => ["(version: \"", v, "\"", close]

def Line.pieces : Line → List Piece
  | .blank => []
  | .note (.label l) => ["@label(\"", l, "\")"]
  | .note (.doc d) => ["/// ", d]
  | .function n v => "fn " :: n :: params ") {}" v
  | .pipeline n => ["pipeline ", n]
  | .typeAlias n t => ["alias ", n, " = ", t]
  | .macroText n v => ["macro ", n, " ", v]
  | .constant n v => ["const ", n, " = ", v]
  | .classOpen n none => ["class ", n, " \x7b"]
  | .classOpen n (some p) => ["class ", n, " extends ", p, " \x7b"]
  | .method ⟨m, v, false⟩ => "    fn " :: m :: params ")" v
  | .method ⟨m, v, true⟩ => "    static fn " :: m :: params ")" v
  | .classClose => ["\x7d"]

def Line.text (l : Line) : Text :=
  l.pieces.flatMap Piece.text

def Item.lines : Item → List Line
  | .function n v => [.function n v]
  | .pipeline n => [.pipeline n]
  | .typeAlias n t => [.typeAlias n t]
  | .macroText n v => [.macroText n v]
  | .constant n v => [.constant n v]
  | .classType n p ms => .classOpen n p :: (ms.map .method ++ [.classClose])

def Declaration.lines (d : Declaration) : List Line :=
  d.notes.map .note ++ d.item.lines

def join (ls : List Line) : Text :=
  ['\n'].intercalate (ls.map Line.text)

/-- The lines of a document. A newline at its end is an empty last line. -/
def page (ds : List Declaration) (closed : Bool) : List Line :=
  ds.flatMap Declaration.lines ++ if closed then [.blank] else []

/-- The printed document, with or without a newline at its end. -/
def print (ds : List Declaration) (closed : Bool) : Text :=
  join (page ds closed)

/-- What is known of a symbol without regard to its place in a text. -/
structure Entry where
  name : String
  form : SymbolForm
  labels : List String
  doc : Option String
  deriving DecidableEq, Repr

namespace Declaration

def labels (d : Declaration) : List String :=
  (d.notes.filterMap Note.label?).map Word.name

def doc (d : Declaration) : Option String :=
  (d.notes.filterMap Note.doc?).head?.map Word.name

def entry (d : Declaration) (name : Word) (form : SymbolForm) : Entry :=
  ⟨name.name, form, d.labels, d.doc⟩

def functions (d : Declaration) : List Entry :=
  match d.item with
  | .function n v => [d.entry n (.function (v.map Word.name))]
  | _ => []

def pipelines (d : Declaration) : List Entry :=
  match d.item with
  | .pipeline n => [d.entry n .pipeline]
  | _ => []

/-- A method carries no annotations of its own, and none of its class. -/
def methodEntry (owner : Word) (m : Method) : Entry :=
  ⟨m.name.name, .method owner.name (m.version.map Word.name) m.isStatic, [], none⟩

def types (d : Declaration) : List Entry :=
  match d.item with
  | .classType n p ms =>
      d.entry n (.classType (p.map Word.name)) :: ms.map (methodEntry n)
  | _ => []

def aliases (d : Declaration) : List Entry :=
  match d.item with
  | .typeAlias n t => [d.entry n (.typeAlias t.name)]
  | _ => []

def macros (d : Declaration) : List Entry :=
  match d.item with
  | .macroText n v => [d.entry n (.macroText v.name)]
  | _ => []

def constants (d : Declaration) : List Entry :=
  match d.item with
  | .constant n v => [d.entry n (.constant v.name)]
  | _ => []

end Declaration

def entries (ds : List Declaration) : List Entry :=
  ds.flatMap Declaration.functions ++ ds.flatMap Declaration.pipelines ++
    ds.flatMap Declaration.types ++ ds.flatMap Declaration.aliases ++
    ds.flatMap Declaration.macros ++ ds.flatMap Declaration.constants

/-- Entries grouped by name, in the order in which the names are first used. -/
def grouped (es : List Entry) : List (String × List Entry) :=
  (es.map Entry.name).eraseDups.map fun name => (name, es.filter (·.name = name))

end Canonical

def Symbol.entry (s : Symbol) : Canonical.Entry :=
  ⟨s.name, s.form, s.labels, s.doc⟩

end ProcedureIndex
