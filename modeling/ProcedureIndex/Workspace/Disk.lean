import ProcedureIndex.Config
import ProcedureIndex.Workspace.Access

/-!
Files on a disk, and the root directory that a workspace has there. A path is followed
name by name: every name but the last has to be that of a directory, and `..` leads
back to the directory above. A directory is walked in the order of names, and a
directory's files come where its own name stands.
-/

namespace ProcedureIndex

structure DiskFile where
  stamp : Stamp
  bytes : ByteArray

/-- The names on the way from the top of a disk, without any `..`. -/
abbrev Route := List Text

structure Disk where
  /-- How the root directory is written. -/
  root : Path
  /-- Where the root directory is; a path that starts nowhere else starts there. -/
  home : Route
  /-- Directories count as changed at this moment. -/
  now : Stamp
  files : List (Route × DiskFile) := []
  /-- The files that may not be read. -/
  locked : List Route := []
  /-- Every directory, the top included as the empty route. -/
  directories : List Route

namespace Disk

def blank (root : Path) (home : Route) (now : Stamp) : Disk where
  root := root
  home := home
  now := now
  directories := (List.range (home.length + 1)).map home.take

def up : Text := ['.', '.']

def nameLimit : Nat := 255

def pathLimit : Nat := 4096

inductive Found where
  | file (route : Route) (f : DiskFile)
  | directory (route : Route)
  | missing (cause : AccessCause)

/-- Follows names from a place. The top is the directory above itself. -/
def follow (d : Disk) (here : Route) : List Text → Found
  | [] =>
      match d.files.lookup here with
      | some f => .file here f
      | none => if d.directories.contains here then .directory here else .missing .notFound
  | name :: rest =>
      if d.directories.contains here then
        if name = up then d.follow here.dropLast rest
        else if nameLimit < Text.width name then .missing .nameTooLong
        else d.follow (here ++ [name]) rest
      else if (d.files.lookup here).isSome then .missing .notDirectory
      else .missing .notFound

def names (d : Disk) (path : Path) : List Text :=
  let base := d.root.parts
  if path.parts.take base.length = base then d.home ++ path.parts.drop base.length
  else if path.isAbsolute then path.parts.tail
  else d.home ++ path.parts.filter (· ≠ ['.'])

/-- Does the path ask for a directory by a slash or a dot at its end? -/
def wantsDirectory (path : Path) : Bool :=
  (Path.segments path.text.toList).getLast?.any Path.isIdle

def lastSegment? (path : Path) : Option Text :=
  ((Path.segments path.text.toList).filter (!·.isEmpty)).getLast?

def endsInDots (path : Path) : Bool :=
  (lastSegment? path).any fun s => s == ['.'] || s == up

def refusal? (path : Path) : Option AccessCause :=
  if path.text.isEmpty then some .notFound
  else if path.text.toList.contains '\x00' then some .nulInName
  else if pathLimit ≤ Text.width path.text.toList then some .nameTooLong
  else none

def find (d : Disk) (path : Path) : Found :=
  match refusal? path with
  | some cause => .missing cause
  | none =>
      match d.follow [] (d.names path) with
      | .file route f => if wantsDirectory path then .missing .notDirectory else .file route f
      | found => found

def stamp (d : Disk) (path : Path) : Except AccessError Stamp :=
  match d.find path with
  | .file _ f => .ok f.stamp
  | .directory _ => .ok d.now
  | .missing cause => .error (.ofCause path cause)

def read (d : Disk) (path : Path) : Except AccessError Text :=
  match d.find path with
  | .file route f =>
      if d.locked.contains route then .error (.ofCause path .accessDenied)
      else
        match String.fromUTF8? f.bytes with
        | some s => .ok s.toList
        | none => .error (.ofCause path .invalidData)
  | .directory _ => .error (.ofCause path .isDirectory)
  | .missing cause => .error (.ofCause path cause)

def routeBefore : Route → Route → Bool
  | [], _ => true
  | _ :: _, [] => false
  | a :: as, b :: bs => if a = b then routeBefore as bs else a < b

def isWithin (directory route : Route) : Bool :=
  route.take directory.length = directory

def sources (d : Disk) (config : Config) (path : Path) : Except AccessError (List Path) :=
  match d.find path with
  | .directory route =>
      let below := (d.files.map Prod.fst).filter (isWithin route)
      let paths := (below.mergeSort routeBefore).map fun r =>
        (r.drop route.length).foldl Path.join path
      .ok (paths.filter config.isSource)
  | _ => .error (.directoryNotFound path)

def source (d : Disk) (config : Config) : Source where
  discover := d.sources config d.root
  stamp := d.stamp
  read := d.read

def addDirectory (d : Disk) (route : Route) : Disk :=
  if d.directories.contains route then d
  else { d with directories := d.directories ++ [route] }

/-- Makes the directories that are missing on the way along some names, until a name cannot be that
of a directory; the answer says where the way ends, if it does. -/
def makeWay (d : Disk) (here : Route) : List Text → Disk × Option Route
  | [] => (d, some here)
  | name :: rest =>
      if name = up then d.makeWay here.dropLast rest
      else if nameLimit < Text.width name || (d.files.lookup (here ++ [name])).isSome then (d, none)
      else (d.addDirectory (here ++ [name])).makeWay (here ++ [name]) rest

/-- A directory and every directory on the way to it. A dot at the end stands for a directory that
has to be there already. -/
def makeDirectory (d : Disk) (path : Path) : Disk :=
  if (refusal? path).isSome then d
  else if lastSegment? path = some ['.'] then (d.makeWay [] (d.names path).dropLast).1
  else (d.makeWay [] (d.names path)).1

/-- Puts a file in a directory, unless its name is that of a directory or no name at all. -/
def putFile (d : Disk) (here : Route) (name : Text) (f : DiskFile) : Disk :=
  let route := here ++ [name]
  if name = up || nameLimit < Text.width name || d.directories.contains route then d
  else { d with files := (d.files.filter fun e => e.1 ≠ route) ++ [(route, f)] }

def write (d : Disk) (path : Path) (f : DiskFile) : Disk :=
  if (refusal? path).isSome then d
  else
    match d.makeWay [] (d.names path).dropLast, (d.names path).getLast? with
    | (d, some here), some name => if wantsDirectory path then d else d.putFile here name f
    | (d, none), _ | (d, _), none => d

/-- Deletes a file, or a directory with all that is in it; a directory that is named by dots is
emptied and stays. -/
def delete (d : Disk) (path : Path) : Disk :=
  match d.find path with
  | .file route _ =>
      { d with
        files := d.files.filter fun e => e.1 ≠ route
        locked := d.locked.filter (· ≠ route) }
  | .directory route =>
      { d with
        files := d.files.filter fun e => !isWithin route e.1
        locked := d.locked.filter (!isWithin route ·)
        directories := d.directories.filter fun r =>
          !isWithin route r || (r == route && endsInDots path) }
  | .missing _ => d

end Disk
end ProcedureIndex
