import ProcedureIndex.Completion.ListCache
import ProcedureIndex.Completion.Catalog
import ProcedureIndex.Config
import ProcedureIndex.Completion.Context
import ProcedureIndex.Workspace.Snapshot

/-!
Sources of offers. A generator says in which contexts it applies and makes proposals
from what it can see of the request. The generators here answer to one context each.
-/

namespace ProcedureIndex

open Text

structure CompletionRequest where
  file : FileId
  before : Text
  after : Text

namespace CompletionRequest

def line (r : CompletionRequest) : Nat :=
  r.before.count '\n'

def lineBefore (r : CompletionRequest) : Text :=
  lastLine r.before

def key (r : CompletionRequest) : ListKey :=
  ⟨r.file, ⟨r.line, width r.lineBefore⟩, r.lineBefore, firstLine r.after⟩

end CompletionRequest

structure Situation where
  context : Context
  snapshot : Snapshot
  habits : Habits
  config : Config
  request : CompletionRequest
  enclosing : Option String

structure Generator where
  name : String
  applies : Context → Bool
  generate : Situation → List Proposal

namespace Generator

/-- One of several values, under the right number of the noun. -/
def listed (singular plural : String) (values : List String) : List String :=
  match values.eraseDups with
  | [] => []
  | [v] => [singular ++ ": " ++ v]
  | vs => [plural ++ ": " ++ ", ".intercalate vs]

def describe (group : List Symbol) : String :=
  " · ".intercalate
    (" / ".intercalate (group.map fun s => s.kind.display).eraseDups ::
      listed "version" "versions" (group.filterMap Symbol.version) ++
      listed "owner" "owners" (group.filterMap Symbol.owner) ++
      listed "label" "labels" (group.flatMap Symbol.labels))

/-- The offer for symbols of one name, which takes after the first of them. -/
def groupOffer? : List Symbol → Option Offer
  | [] => none
  | first :: rest =>
      let insert :=
        match first.kind with
        | .function | .method => first.name ++ "($1)"
        | _ => first.name
      some {
        label := first.name
        kind := .symbol first.kind
        insert := insert
        detail := some (describe (first :: rest))
        doc := (first :: rest).findSome? Symbol.doc
        origin := .workspace }

def grouped (symbols : List Symbol) (rationale : String) : List Proposal :=
  let groups : Grouping Symbol := symbols.foldl (fun g s => g.push s.name s) {}
  (groups.groups.filterMap fun g => groupOffer? g.2).map fun offer => ⟨offer, rationale⟩

def callables (w : Snapshot) : List Symbol :=
  w.symbols.filter fun s => s.kind.isCallable

def catalogOffer (kind : OfferKind) (e : Catalog.Entry) : Offer :=
  { label := e.label, kind := kind, insert := e.template, detail := some e.description,
    origin := .catalog }

def fromCatalog (entries : List Catalog.Entry) (kind : OfferKind) (rationale : String) :
    List Proposal :=
  entries.map fun e => ⟨catalogOffer kind e, rationale⟩

/-- A value in quotes, unless the line of the cursor has an odd number of double quotes. -/
def quoted (here : Situation) (value : String) : String :=
  if here.request.lineBefore.count '"' % 2 = 1 then value else "\"" ++ value ++ "\""

/-- What keeps values in use above every suggestion. -/
def inUseBoost : Nat := 250

/-- Values in use, each with a detail, and behind them the suggested values that are not in use. -/
def valuesInUse (here : Situation) (kind : OfferKind) (inUse : List String)
    (detail : String → String) (inUseReason : String) (suggested : List String)
    (suggestedDetail suggestedReason : String) : List Proposal :=
  (inUse.map fun v =>
    ⟨{ label := v, kind := kind, insert := quoted here v, detail := some (detail v),
       origin := .workspace, boost := inUseBoost }, inUseReason⟩) ++
  ((suggested.filter fun v => !inUse.contains v).map fun v =>
    ⟨{ label := v, kind := kind, insert := quoted here v, detail := some suggestedDetail,
       origin := .catalog }, suggestedReason⟩)

def labelDetail (w : Snapshot) (label : String) : String :=
  let uses := w.labelCount label
  "existing label · " ++ toString uses ++ " use" ++ (if uses = 1 then "" else "s")

def labels : Generator where
  name := "label"
  applies
    | .label _ => true
    | _ => false
  generate here :=
    valuesInUse here .label here.snapshot.labels (labelDetail here.snapshot)
      "label already in use" Catalog.labels "suggested label" "common label"

def calls : Generator where
  name := "call"
  applies
    | .call _ _ => true
    | _ => false
  generate here := grouped (callables here.snapshot) "callable in workspace"

def keywords : Generator where
  name := "keyword"
  applies
    | .keyword _ => true
    | .call _ atStart => atStart
    | _ => false
  generate _ := fromCatalog Catalog.keywords .keyword "keyword"

def types : Generator where
  name := "type"
  applies
    | .type _ => true
    | _ => false
  generate here :=
    ((here.snapshot.symbols.filter fun s => s.kind = .classType || s.kind = .typeAlias).filterMap
        fun s => groupOffer? [s]).map (fun offer => ⟨offer, "declared type"⟩) ++
      fromCatalog Catalog.types .type "built-in type"

def parameters : Generator where
  name := "parameter"
  applies
    | .parameter _ _ => true
    | _ => false
  generate _ := fromCatalog Catalog.parameters .parameter "common parameter"

def versionsOf (w : Snapshot) (name : String) : List String :=
  (((w.named name).filter fun s => s.kind.isCallable).filterMap Symbol.version).eraseDups

def versions : Generator where
  name := "version"
  applies
    | .version _ _ => true
    | _ => false
  generate here :=
    match here.context with
    | .version _ function =>
        let name := String.ofList (function.getD [])
        let inUse :=
          match function with
          | some _ => versionsOf here.snapshot name
          | none => []
        valuesInUse here .version inUse (fun _ => "existing version of " ++ name)
          "version already declared" Catalog.versions "suggested version" "conventional version"
    | _ => []

def variablePattern : Pattern Text := fun prev cs =>
  if inWord prev then none
  else
    ((named? "let".toList cs).or (named? "const".toList cs)).map fun ((_, name), rest) =>
      (name, rest)

/-- The variables named in a text, the last first and each once. -/
def variablesIn (cs : Text) : List String :=
  ((hits variablePattern cs).map fun h => String.ofList h.value).reverse.eraseDups

def beforeWord (here : Situation) : Text :=
  here.request.before.take (here.request.before.length - here.context.typed.length)

def localNames : Generator where
  name := "variable"
  applies := Context.wantsVariables
  generate here :=
    (variablesIn (beforeWord here)).map fun name =>
      ⟨{ label := name, kind := .variable, insert := name, detail := some "variable",
         origin := .workspace }, "declared above the cursor"⟩

def contextual : List Generator :=
  [labels, calls, keywords, types, parameters, versions]

end Generator
end ProcedureIndex
