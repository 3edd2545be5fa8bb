/-!
Fixed suggestions. In the text to insert, `$1`, `$2` and so on are cursor stops and
`$0` is where the cursor ends up.
-/

namespace ProcedureIndex
namespace Catalog

structure Entry where
  label : String
  template : String
  description : String
  deriving DecidableEq, Repr

def keywords : List Entry :=
  [⟨"fn", "fn $\x7b1:name\x7d($2) \x7b\n    $0\n\x7d", "declare a method"⟩,
   ⟨"pipeline", "pipeline $\x7b1:Name\x7d \x7b\n    $0\n\x7d", "declare a multi-step workflow"⟩,
   ⟨"class", "class $\x7b1:Name\x7d \x7b\n    $0\n\x7d", "declare a type"⟩,
   ⟨"extends", "extends $\x7b1:Parent\x7d", "inherit from another type"⟩,
   ⟨"static", "static fn $\x7b1:name\x7d($2) \x7b\n    $0\n\x7d", "declare a type-level method"⟩,
   ⟨"alias", "alias $\x7b1:Name\x7d = $\x7b2:Type\x7d", "declare a type alias"⟩,
   ⟨"macro", "macro $\x7b1:NAME\x7d $0", "declare a macro"⟩,
   ⟨"const", "const $\x7b1:NAME\x7d = $0", "declare a constant"⟩,
   ⟨"let", "let $\x7b1:name\x7d = $0", "declare a variable"⟩,
   ⟨"if", "if $\x7b1:condition\x7d \x7b\n    $0\n\x7d", "conditional"⟩,
   ⟨"else", "else \x7b\n    $0\n\x7d", "alternative branch"⟩,
   ⟨"for", "for $\x7b1:item\x7d in $\x7b2:items\x7d \x7b\n    $0\n\x7d", "loop over items"⟩,
   ⟨"while", "while $\x7b1:condition\x7d \x7b\n    $0\n\x7d", "loop while a condition holds"⟩,
   ⟨"return", "return $0", "return from the method"⟩,
   ⟨"step", "step $\x7b1:name\x7d($2)", "one step of a pipeline"⟩,
   ⟨"@label", "@label(\"$1\")", "classify the next declaration"⟩]

def types : List Entry :=
  [⟨"string", "string", "text value"⟩,
   ⟨"number", "number", "numeric value"⟩,
   ⟨"boolean", "boolean", "true or false"⟩,
   ⟨"duration", "duration", "length of time"⟩,
   ⟨"date", "date", "calendar date"⟩,
   ⟨"list", "list<$1>", "ordered collection"⟩,
   ⟨"map", "map<$1, $2>", "key/value collection"⟩,
   ⟨"text", "text", "long-form text"⟩,
   ⟨"note", "note", "captured note"⟩,
   ⟨"source", "source", "material being studied"⟩,
   ⟨"any", "any", "unconstrained value"⟩,
   ⟨"void", "void", "no value"⟩]

def parameters : List Entry :=
  [⟨"version", "version: \"$1\"", "select an overload"⟩,
   ⟨"source", "source: $1", "material to work on"⟩,
   ⟨"topic", "topic: $1", "subject"⟩,
   ⟨"duration", "duration: $1", "time box"⟩,
   ⟨"goal", "goal: $1", "intended outcome"⟩,
   ⟨"level", "level: $1", "difficulty or depth"⟩,
   ⟨"notes", "notes: $1", "notes to use or produce"⟩,
   ⟨"input", "input: $1", "input value"⟩,
   ⟨"output", "output: $1", "output target"⟩,
   ⟨"options", "options: $1", "extra settings"⟩]

def labels : List String :=
  ["study", "reading", "writing", "memory", "review", "planning", "research", "focus", "analysis",
   "productivity"]

def versions : List String :=
  ["standard", "quick", "detailed", "beginner", "advanced", "v1", "v2"]

/-- Words on the line, with the names of the methods that they suggest. -/
def triggers : List (String × List String) :=
  [("read", ["survey", "question", "read", "recite", "review"]),
   ("remember", ["spacedRepetition", "activeRecall"]),
   ("memor", ["spacedRepetition", "mnemonic"]),
   ("understand", ["feynman", "summarize", "explain"]),
   ("plan", ["setGoals", "schedule", "prioritize"]),
   ("write", ["outline", "draft", "revise"]),
   ("focus", ["pomodoro", "deepWork"]),
   ("test", ["practiceTest", "selfQuiz"]),
   ("exam", ["practiceTest", "reviewNotes"]),
   ("note", ["cornell", "summarize", "mindMap"])]

/-- Parts of names that sound like a check; preferred in a conditional. -/
def validationHints : List String :=
  ["valid", "check", "verify", "ensure", "assert", "confirm"]

def predicateHints : List String :=
  ["is", "has", "can"]

def iterationHints : List String :=
  ["each", "all", "next", "iter", "process", "batch", "repeat"]

end Catalog
end ProcedureIndex
