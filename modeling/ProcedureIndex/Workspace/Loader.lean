import ProcedureIndex.Workspace.Disk
import ProcedureIndex.Workspace.Basic

/-!
Loading files into a workspace ahead of the first question. One file that cannot be
read does not keep the others from being loaded.
-/

namespace ProcedureIndex

structure LoadSummary where
  loaded : Nat := 0
  failed : List (Path × AccessError) := []
  deriving DecidableEq, Repr

namespace LoadSummary

def isComplete (s : LoadSummary) : Bool :=
  s.failed.isEmpty

end LoadSummary

namespace Disk

def loadFile (d : Disk) (path : Path) (w : Workspace) : Except AccessError Workspace := do
  let stamp ← d.stamp path
  let text ← d.read path
  return (w.update path stamp text).2

def loadFiles (d : Disk) : List Path → Workspace → LoadSummary × Workspace
  | [], w => ({}, w)
  | path :: rest, w =>
      match d.loadFile path w with
      | .ok w =>
          let (summary, w) := d.loadFiles rest w
          ({ summary with loaded := summary.loaded + 1 }, w)
      | .error e =>
          let (summary, w) := d.loadFiles rest w
          ({ summary with failed := (path, e) :: summary.failed }, w)

def loadDirectory (d : Disk) (config : Config) (path : Path) (w : Workspace) :
    Except AccessError (LoadSummary × Workspace) := do
  let paths ← d.sources config path
  return d.loadFiles paths w

end Disk
end ProcedureIndex
