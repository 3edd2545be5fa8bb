import ProcedureIndex.Workspace.Path
import ProcedureIndex.Workspace.Stamp

/-!
Access to source files. A workspace does not own any text: it asks a source which
files there are, when each was changed and what it holds, and every question can
fail.
-/

namespace ProcedureIndex

inductive AccessCause where
  | notFound
  | invalidData
  | permissionDenied
  | accessDenied
  | isDirectory
  | notDirectory
  | nameTooLong
  | nulInName
  | other (text : String)
  deriving DecidableEq, Repr

namespace AccessCause

def message : AccessCause → String
  | .notFound => "entity not found"
  | .invalidData => "invalid data"
  | .permissionDenied => "permission denied"
  | .accessDenied => "Permission denied (os error 13)"
  | .isDirectory => "Is a directory (os error 21)"
  | .notDirectory => "Not a directory (os error 20)"
  | .nameTooLong => "File name too long (os error 36)"
  | .nulInName => "file name contained an unexpected NUL byte"
  | .other text => text

end AccessCause

inductive AccessError where
  | failed (path : Path) (cause : AccessCause)
  | fileNotFound (path : Path)
  | directoryNotFound (path : Path)
  | invalidUtf8 (path : Path)
  deriving DecidableEq, Repr

namespace AccessError

/-- The error for a cause; a missing file and a file that is no text have their own. -/
def ofCause (path : Path) : AccessCause → AccessError
  | .notFound => .fileNotFound path
  | .invalidData => .invalidUtf8 path
  | cause => .failed path cause

def message : AccessError → String
  | .failed path cause => "failed to access " ++ path.text ++ ": " ++ cause.message
  | .fileNotFound path => "file not found: " ++ path.text
  | .directoryNotFound path => "directory not found: " ++ path.text
  | .invalidUtf8 path => path.text ++ " is not valid UTF-8"

end AccessError

/-- A source of files as it is at one moment. `external` says for which files a question reaches the
environment. -/
structure Source where
  discover : Except AccessError (List Path)
  stamp : Path → Except AccessError Stamp
  read : Path → Except AccessError Text
  external : Path → Bool := fun _ => true

/-- What is counted while a source is asked: the reads that succeeded, whether the work was
cancelled, and how many more stamps are asked for until it is. -/
structure Watch where
  reads : Nat := 0
  cancelled : Bool := false
  stampsLeft : Option Nat := none
  deriving DecidableEq, Repr

namespace Watch

def onStamp (w : Watch) : Watch :=
  match w.stampsLeft with
  | none => w
  | some n =>
      if n ≤ 1 then { w with cancelled := w.cancelled || n == 1, stampsLeft := none }
      else { w with stampsLeft := some (n - 1) }

def onRead (w : Watch) (succeeded : Bool) : Watch :=
  if succeeded then { w with reads := w.reads + 1 } else w

end Watch

namespace Source

def watchStamp (src : Source) (path : Path) (w : Watch) : Watch :=
  if src.external path then w.onStamp else w

def watchRead (src : Source) (path : Path) (w : Watch) : Watch :=
  if src.external path then w.onRead (src.read path).isOk else w

end Source
end ProcedureIndex
