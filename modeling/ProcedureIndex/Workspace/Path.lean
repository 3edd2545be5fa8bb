import ProcedureIndex.Text.Basic

/-!
Paths and maps over paths. A path is written text, but two paths are the same
when their parts are: repeated slashes, slashes at the end and single dots, except
one at the very start, do not matter. Nothing is resolved, so `..` stays.
-/

namespace ProcedureIndex

structure Path where
  text : String
  deriving DecidableEq, Repr

namespace Path

def segments : Text → List Text
  | [] => [[]]
  | c :: cs =>
      if c = '/' then [] :: segments cs
      else
        match segments cs with
        | [] => [[c]]
        | s :: ss => (c :: s) :: ss

def isIdle (segment : Text) : Bool :=
  segment == [] || segment == ['.']

/-- The parts that paths are compared by; a leading slash and a leading dot are parts. -/
def parts (p : Path) : List Text :=
  match segments p.text.toList with
  | [] => []
  | first :: rest =>
      let kept := rest.filter (!isIdle ·)
      if first == [] then
        if rest.isEmpty then [] else ['/'] :: kept
      else first :: kept

def isAbsolute (p : Path) : Bool :=
  p.text.toList.head? == some '/'

def same (p q : Path) : Bool :=
  p.parts == q.parts

theorem same_iff {p q : Path} : p.same q = true ↔ p.parts = q.parts := by
  simp [same]

@[simp] theorem same_refl (p : Path) : p.same p = true := by
  simp [same]

def fileName? (p : Path) : Option Text :=
  p.parts.getLast?.filter fun s => s != ['/'] && s != ['.'] && s != ['.', '.']

/-- What follows the last dot of the file name, unless that dot comes first or is missing. -/
def extension? (p : Path) : Option String := do
  let name ← p.fileName?
  let ending := (name.reverse.takeWhile (· != '.')).reverse
  let stem := (name.reverse.dropWhile (· != '.')).tail
  if stem.isEmpty then none else some (String.ofList ending)

def join (p : Path) (name : Text) : Path :=
  let base := p.text.toList
  if base.getLast? = some '/' then ⟨String.ofList (base ++ name)⟩
  else ⟨String.ofList (base ++ '/' :: name)⟩

end Path

/-- Values kept under paths, in the order in which the paths came. -/
structure PathMap (β : Type) where
  entries : List (Path × β) := []

namespace PathMap

variable {β : Type}

def get? (m : PathMap β) (p : Path) : Option β :=
  (m.entries.find? fun e => e.1.same p).map Prod.snd

def contains (m : PathMap β) (p : Path) : Bool :=
  m.entries.any fun e => e.1.same p

def paths (m : PathMap β) : List Path :=
  m.entries.map Prod.fst

def put (p : Path) (b : β) : List (Path × β) → List (Path × β)
  | [] => [(p, b)]
  | (q, x) :: rest => if q.same p then (q, b) :: rest else (q, x) :: put p b rest

/-- Sets the value of a path. A path that is already there keeps its place and its spelling. -/
def insert (m : PathMap β) (p : Path) (b : β) : PathMap β :=
  ⟨put p b m.entries⟩

def erase (m : PathMap β) (p : Path) : PathMap β :=
  ⟨m.entries.filter fun e => !e.1.same p⟩

theorem find?_put (p q : Path) (b : β) (entries : List (Path × β)) :
    ((put p b entries).find? fun e => e.1.same q).map Prod.snd =
      if p.same q then some b else (entries.find? fun e => e.1.same q).map Prod.snd := by
  induction entries with
  | nil => by_cases h : p.same q <;> simp [put, h]
  | cons e rest ih =>
      obtain ⟨r, x⟩ := e
      by_cases hr : r.same p
      · have hparts : r.parts = p.parts := Path.same_iff.1 hr
        have hq : r.same q = p.same q := by simp [Path.same, hparts]
        by_cases h : p.same q <;> simp [put, hr, hq, h]
      · by_cases hq : r.same q
        · have hp : ¬ p.same q := fun hp =>
            hr (Path.same_iff.2 ((Path.same_iff.1 hq).trans (Path.same_iff.1 hp).symm))
          simp [put, hr, hq, hp]
        · simp [put, hr, hq, ih]

/-- A path that was set has its new value, however it is spelled; the others keep theirs. -/
theorem get?_insert (m : PathMap β) (p q : Path) (b : β) :
    (m.insert p b).get? q = if p.same q then some b else m.get? q :=
  find?_put p q b m.entries

def modify (m : PathMap β) (p : Path) (f : β → β) : PathMap β :=
  ⟨m.entries.map fun e => if e.1.same p then (e.1, f e.2) else e⟩

end PathMap
end ProcedureIndex
