import ProcedureIndex.Completion.Generator
import ProcedureIndex.Navigation.Outline
import ProcedureIndex.Text.Similarity

/-!
Suggestions for a cursor at which nothing in particular is expected: names related
to the enclosing function, names used often or lately or declared nearby, names
that words on the line call to mind, and names that continue a sequence or fit the
block around the cursor.
-/

namespace ProcedureIndex
namespace Generator

open Text

def suggesting (name : String) (generate : Situation → List Proposal) : Generator where
  name := name
  applies
    | .general _ => true
    | _ => false
  generate := generate

def declaredAmong (w : Snapshot) (names : List String) (rationale : String) : List Proposal :=
  (names.filterMap fun n => groupOffer? (w.named n)).map fun offer => ⟨offer, rationale⟩

/-- Callables that share a label with the enclosing function or are named like it. -/
def related : Generator :=
  suggesting "related" fun here =>
    match here.enclosing with
    | none => []
    | some current =>
        let anchors := (here.snapshot.named current).filter fun s => s.kind.isCallable
        grouped ((callables here.snapshot).filter fun s =>
            s.name ≠ current &&
              (anchors.any (·.sharesLabel s) ||
                here.config.similarityThreshold < similarity s.name.toList current.toList))
          "related to the enclosing method"

def frequent : Generator :=
  suggesting "frequent" fun here =>
    declaredAmong here.snapshot (here.habits.mostFrequent here.config.frequentLimit)
      "frequently used"

def recent : Generator :=
  suggesting "recent" fun here =>
    declaredAmong here.snapshot (here.habits.recent here.config.recencyLimit) "recently used"

def lineDistance (a b : Nat) : Nat :=
  (a - b) + (b - a)

/-- Nearer to a line before farther, then higher up before farther down. -/
def nearer (line : Nat) (a b : Symbol) : Bool :=
  let da := lineDistance a.position.line line
  let db := lineDistance b.position.line line
  da < db || (da == db && a.position.line ≤ b.position.line)

def proximity : Generator :=
  suggesting "proximity" fun here =>
    match here.snapshot.table? here.request.file with
    | none => []
    | some table =>
        let line := here.request.line
        let near := table.declared.all.filter fun s =>
          lineDistance s.position.line line ≤ here.config.proximityWindow
        ((near.mergeSort (nearer line)).filterMap fun s => groupOffer? [s]).map fun offer =>
          ⟨offer, "declared nearby"⟩

/-- Does a declared name stand for a suggested one? A declared name of fewer than three bytes has to
be the suggested one or contain it. -/
def overlaps (name wanted : Text) : Bool :=
  name == wanted || (3 ≤ width name && includes wanted name) || includes name wanted

/-- The declared callables that stand for a suggested name or, without any, the name itself. -/
def forTrigger (w : Snapshot) (trigger name : String) : List Proposal :=
  match (callables w).filter fun s => overlaps (lowered s.name) (lowered name) with
  | [] =>
      [⟨{ label := name, kind := .symbol .function, insert := name ++ "($1)",
          detail := some ("suggested method for \"" ++ trigger ++ "\""), origin := .catalog },
        "semantic suggestion"⟩]
  | real => grouped real "matches a semantic suggestion"

/-- Names that words on the line of the cursor call to mind. -/
def semantic : Generator :=
  suggesting "semantic" fun here =>
    let line := lower here.request.lineBefore
    (Catalog.triggers.filter fun t => includes line t.1.toList).flatMap fun t =>
      t.2.flatMap fun name => forTrigger here.snapshot t.1 name

/-- A call whose arguments hold no parenthesis, at the end of the text but for blanks and a
semicolon. -/
def callAtEnd : Pattern Text := fun _ cs => do
  let (name, rest) ← name? cs
  let inner ← after? ['('] (rest.dropWhile isBlank)
  let behind ← after? [')'] (inner.dropWhile fun c => c != '(' && c != ')')
  let behind := behind.dropWhile isBlank
  if (((after? [';'] behind).getD behind).dropWhile isBlank).isEmpty then some (name, []) else none

/-- Behind a call, the callables that share a label with what was called, on a line of their own. -/
def chain : Generator :=
  suggesting "chain" fun here =>
    let line := here.request.lineBefore
    match firstHit? callAtEnd line with
    | none => []
    | some hit =>
        let called := String.ofList hit.value
        let previous := here.snapshot.named called
        let indent := String.ofList (line.takeWhile isBlank)
        (grouped ((callables here.snapshot).filter fun s =>
            s.name ≠ called && previous.any (·.sharesLabel s))
          "continues the sequence").map fun p =>
            { p with offer := { p.offer with insert := "\n" ++ indent ++ p.offer.insert } }

inductive Block where
  | conditional
  | loop
  deriving DecidableEq, Repr

def blockPattern : Pattern Block := fun prev cs =>
  if inWord prev then none
  else
    [("if", Block.conditional), ("else", .conditional), ("for", .loop), ("while", .loop)].findSome?
      fun (word, block) => do
        let rest ← after? word.toList cs
        if inWord rest.head? then none else some (block, rest)

/-- The last such word on the line of the innermost open brace, before the brace. -/
def blockAt (before : Text) : Option Block := do
  let brace ← (openBraces before).head?
  let hit ← (hits blockPattern (lastLine (takeBytes brace before))).getLast?
  return hit.value

def fits (name : Text) : Block → Bool
  | .conditional =>
      Catalog.validationHints.any (fun h => includes name h.toList) ||
        Catalog.predicateHints.any fun h => (after? h.toList name).isSome
  | .loop => Catalog.iterationHints.any fun h => includes name h.toList

def controlFlow : Generator :=
  suggesting "control-flow" fun here =>
    match blockAt here.request.before with
    | none => []
    | some block =>
        grouped ((callables here.snapshot).filter fun s => fits (lowered s.name) block)
          "fits the enclosing construct"

def suggestions : List Generator :=
  [related, frequent, recent, proximity, semantic, chain, controlFlow]

/-- Every generator, in the order in which proposals win; variables yield to everything. -/
def all : List Generator :=
  contextual ++ suggestions ++ [localNames]

end Generator
end ProcedureIndex
