import ProcedureIndex.Completion.Complete
import ProcedureIndex.Diagnostic.Duplicates
import ProcedureIndex.Navigation.Hover
import ProcedureIndex.Navigation.Reference
import ProcedureIndex.Navigation.Resolve
import ProcedureIndex.Workspace.Basic

/-!
What an editor talks to. The host keeps the open documents, the workspace, the usage
history and the recent completion lists. Open documents hide the files of the same
path; every question first brings the workspace up to date.
-/

namespace ProcedureIndex

structure Buffer where
  stamp : Stamp
  text : Text
  deriving DecidableEq, Repr

structure Host where
  config : Config
  opened : PathMap Buffer := {}
  workspace : Workspace := {}
  habits : Habits
  cache : ListCache

def Source.overlaid (base : Source) (opened : PathMap Buffer) : Source where
  discover := do
    let paths ← base.discover
    return paths ++ opened.paths.filter fun p => !paths.any (·.same p)
  stamp path :=
    match opened.get? path with
    | some doc => .ok doc.stamp
    | none => base.stamp path
  read path :=
    match opened.get? path with
    | some doc => .ok doc.text
    | none => base.read path
  external path := !opened.contains path && base.external path

namespace Host

/-- A host that knows of nothing yet, if its history can be as long as the configuration asks. -/
def ofConfig (config : Config) : Except Fault Host :=
  (Habits.ofCapacity config.historyCapacity).map fun habits =>
    { config := config, habits := habits, cache := { lifetime := config.listLifetime } }

/-- Takes in a document that is being edited. Its text hides the file until it is closed. -/
def openDocument (h : Host) (path : Path) (stamp : Stamp) (text : Text) : FileId × Host :=
  let (table, workspace) := h.workspace.update path stamp text
  (table.file,
    { h with
      workspace := workspace
      opened := h.opened.insert path ⟨stamp, text⟩
      cache := h.cache.invalidate table.file })

/-- Forgets the table and the completion lists of a file. -/
def forget (h : Host) (path : Path) : Host :=
  let workspace := h.workspace.forget path
  { h with
    workspace := workspace
    cache :=
      match workspace.number? path with
      | some file => h.cache.invalidate file
      | none => h.cache }

/-- Lets the file show again, if the document was open. -/
def closeDocument (h : Host) (path : Path) : Host :=
  if h.opened.contains path then { h with opened := h.opened.erase path }.forget path else h

/-- Forgets every table, completion list and accepted name. -/
def reset (h : Host) : Host :=
  { h with workspace := h.workspace.forgetAll, cache := h.cache.clear, habits := h.habits.clear }

def accept (h : Host) (label context : String) (now : Moment) : Host :=
  { h with habits := h.habits.record label context now }

def source (h : Host) (base : Source) : Source :=
  base.overlaid h.opened

def snapshot (h : Host) (base : Source) (w : Watch) : Snapshot × Host × Watch :=
  let (snapshot, scan) := Scan.refresh (h.source base) ⟨h.workspace, w⟩
  (snapshot, { h with workspace := scan.workspace }, scan.watch)

/-- The offers at a cursor: the list that was computed a short while ago or a new one, which is then
kept. -/
def complete (h : Host) (base : Source) (path : Path) (before after : Text) (now : Moment)
    (w : Watch) : List Offer × Host × Watch :=
  let (file, workspace) := h.workspace.number path
  let h := { h with workspace := workspace }
  let request : CompletionRequest := ⟨file, before, after⟩
  match h.cache.get request.key now with
  | (some offers, cache) => (offers, { h with cache := cache }, w)
  | (none, cache) =>
      let (snapshot, h, w) := { h with cache := cache }.snapshot base w
      let offers := completions snapshot h.habits h.config request now
      (offers, { h with cache := h.cache.insert request.key offers now }, w)

def definition (h : Host) (base : Source) (path : Path) (p : Position) (w : Watch) :
    Resolution × Host × Watch :=
  let w := (h.source base).watchRead path w
  match (h.source base).read path with
  | .error _ => (.notFound, h, w)
  | .ok text =>
      let (snapshot, h, w) := h.snapshot base w
      (definitionAt snapshot text p, h, w)

def hover (h : Host) (base : Source) (path : Path) (p : Position) (w : Watch) :
    Option Hover × Host × Watch :=
  let w := (h.source base).watchRead path w
  match (h.source base).read path with
  | .error _ => (none, h, w)
  | .ok text =>
      let (snapshot, h, w) := h.snapshot base w
      (Hover.at? snapshot text p, h, w)

/-- The table of a file together with its text, which is read in any case. -/
def tableWithText (src : Source) (path : Path) (s : Scan) :
    Except AccessError (FileTable × Text) × Scan :=
  let watch := src.watchStamp path s.watch
  match src.stamp path with
  | .error e => (.error e, { s with watch := watch })
  | .ok stamp =>
      let watch := src.watchRead path watch
      match src.read path with
      | .error e => (.error e, { s with watch := watch })
      | .ok text =>
          let (table, workspace) := s.workspace.update path stamp text
          (.ok (table, text), ⟨workspace, watch⟩)

/-- The uses of a name in some files, until the work is cancelled. -/
def referencesIn (engine : PatternEngine) (src : Source) (name : String) (withDeclarations : Bool) :
    List Path → Scan → List Reference × Scan
  | [], s => ([], s)
  | path :: rest, s =>
      if s.watch.cancelled then ([], s)
      else
        let (result, s) := tableWithText src path s
        let (found, s) := referencesIn engine src name withDeclarations rest s
        match result with
        | .ok (table, text) =>
            let declared := (table.declared.symbols.bucket name).map Symbol.position
            (Reference.all table.file text name declared withDeclarations engine ++ found, s)
        | .error _ => (found, s)

def references (h : Host) (base : Source) (name : String) (withDeclarations : Bool) (w : Watch)
    (engine : PatternEngine := .limited) : List Reference × Host × Watch :=
  match (h.source base).discover with
  | .error _ => ([], h, w)
  | .ok paths =>
      let (found, scan) :=
        referencesIn engine (h.source base) name withDeclarations paths ⟨h.workspace, w⟩
      (found, { h with workspace := scan.workspace }, scan.watch)

def table (h : Host) (base : Source) (path : Path) (w : Watch) :
    Except AccessError FileTable × Host × Watch :=
  let (result, scan) := Scan.table (h.source base) path ⟨h.workspace, w⟩
  (result, { h with workspace := scan.workspace }, scan.watch)

def outline (h : Host) (base : Source) (path : Path) (w : Watch) :
    Except AccessError (List OutlineItem) × Host × Watch :=
  let (result, h, w) := h.table base path w
  (result.map documentOutline, h, w)

def diagnostics (h : Host) (base : Source) (path : Path) (w : Watch) :
    Except AccessError (List Diagnostic) × Host × Watch :=
  match h.table base path w with
  | (.error e, h, w) => (.error e, h, w)
  | (.ok table, h, w) =>
      let w := (h.source base).watchRead path w
      match (h.source base).read path with
      | .error e => (.error e, h, w)
      | .ok text =>
          (.ok (checkFile table.file text table.declared h.config.duplicatePolicy), h, w)

def search (h : Host) (base : Source) (query : String) (w : Watch) :
    List OutlineItem × Host × Watch :=
  let (snapshot, h, w) := h.snapshot base w
  (searchSymbols snapshot query, h, w)

end Host
end ProcedureIndex
