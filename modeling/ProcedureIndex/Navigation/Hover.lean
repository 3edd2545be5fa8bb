import ProcedureIndex.Workspace.Snapshot
import ProcedureIndex.Text.Ident

/-!
What is shown when the cursor rests on a name: a section for every declaration of
that name in the workspace.
-/

namespace ProcedureIndex

structure Hover where
  contents : String
  line : Nat
  startCol : Nat
  stopCol : Nat
  deriving DecidableEq, Repr

namespace Hover

def quoted (s : String) : String :=
  "`" ++ s ++ "`"

def paragraph (write : String → String) : Option String → String
  | none => ""
  | some s => "\n\n" ++ write s

def describe (s : Symbol) : String :=
  let qualifier := if s.isStatic then "static " else ""
  let owner := (s.owner.map (· ++ ".")).getD ""
  let labels :=
    if s.labels.isEmpty then none else some (", ".intercalate (s.labels.map quoted))
  "**" ++ qualifier ++ s.kind.display ++ " " ++ quoted (owner ++ s.name) ++ "**" ++
    paragraph (fun v => "version: " ++ quoted v) s.version ++
    paragraph (fun p => "extends " ++ quoted p) s.parent ++
    paragraph (fun v => "```\n" ++ v ++ "\n```") s.literal ++
    paragraph (fun l => "labels: " ++ l) labels ++
    paragraph id s.doc

def at? (w : Snapshot) (cs : Text) (p : Position) : Option Hover := do
  let line ← (LineMap.ofText cs).lineText p.line
  let (start, word) ← Text.identAt line p.col
  let sections := (w.named (String.ofList word)).map describe
  if sections.isEmpty then none
  else some ⟨"\n\n---\n\n".intercalate sections, p.line, start, start + Text.width word⟩

end Hover
end ProcedureIndex
