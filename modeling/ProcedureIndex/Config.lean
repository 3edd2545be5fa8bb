import ProcedureIndex.Workspace.Path

/-!
What can be adjusted: how duplicates are reported, how many suggestions the usage
history makes, how long completion lists are kept, and which files are sources.
-/

namespace ProcedureIndex

inductive DuplicatePolicy where
  | off
  | versionedOnly
  | all
  deriving DecidableEq, Repr

structure Config where
  /-- For how many milliseconds a completion list is reused. -/
  listLifetime : Nat := 30000
  /-- How many accepted completions are remembered in order. -/
  historyCapacity : Nat := 50
  /-- How many lines above and below the cursor count as near. -/
  proximityWindow : Nat := 10
  /-- How many of the most frequently used names are suggested. -/
  frequentLimit : Nat := 5
  /-- How many of the most recently used names are suggested. -/
  recencyLimit : Nat := 5
  /-- How alike related names have to be; a name exactly this alike is not related. -/
  similarityThreshold : Float := 0.3
  duplicatePolicy : DuplicatePolicy := .versionedOnly
  /-- The endings, without the dot, of the names of source files. -/
  extensions : List String := ["method", "mth"]

namespace Config

/-- The history holds at least one acceptance. -/
def withHistoryCapacity (c : Config) (capacity : Nat) : Config :=
  { c with historyCapacity := max capacity 1 }

def isSource (c : Config) (path : Path) : Bool :=
  path.extension?.any c.extensions.contains

end Config
end ProcedureIndex
