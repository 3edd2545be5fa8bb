import ProcedureIndex.Text.Classes
import ProcedureIndex.Fault

/-!
Lines and positions. A text is cut at its newlines; a position is a line number
and a byte column, both counted from zero. Offsets past the end stand for the
end, columns past the end of a line for the end of that line.
-/

namespace ProcedureIndex

structure Position where
  line : Nat
  col : Nat
  deriving DecidableEq, Repr

namespace Position

def before (p q : Position) : Bool :=
  p.line < q.line || (p.line == q.line && p.col < q.col)

def notAfter (p q : Position) : Bool :=
  p.line < q.line || (p.line == q.line && p.col ≤ q.col)

def display (p : Position) : String :=
  s!"{p.line + 1}:{p.col + 1}"

end Position

namespace Text

/-- The stretches between newlines; there is always at least one. -/
def lines : Text → List Text
  | [] => [[]]
  | c :: cs =>
      if c = '\n' then [] :: lines cs
      else
        match lines cs with
        | [] => [[c]]
        | l :: ls => (c :: l) :: ls

theorem lines_ne_nil (cs : Text) : lines cs ≠ [] := by
  cases cs with
  | nil => simp [lines]
  | cons c cs =>
      simp only [lines]
      split
      · simp
      · split <;> simp

/-- Nothing but the newlines is lost. -/
theorem intercalate_lines (cs : Text) : ['\n'].intercalate (lines cs) = cs := by
  induction cs with
  | nil => rfl
  | cons c cs ih =>
      simp only [lines]
      cases h : lines cs with
      | nil => exact absurd h (lines_ne_nil cs)
      | cons l ls =>
          rw [h] at ih
          split
          · next hc => simp [List.intercalate_cons_cons, ih, hc]
          · cases ls <;> simp_all [List.intercalate_cons_cons]

def lastLine (cs : Text) : Text :=
  (lines cs).getLast?.getD []

def firstLine (cs : Text) : Text :=
  cs.takeWhile (· != '\n')

def dropReturn (line : Text) : Text :=
  if line.getLast? = some '\r' then line.dropLast else line

/-- The lines as a reader sees them: without line ends, and without an empty line behind the last
newline. A carriage return belongs to a line end only in front of a newline. -/
def readLines (cs : Text) : List Text :=
  let all := lines cs
  all.dropLast.map dropReturn ++ all.getLast?.toList.filter (!·.isEmpty)

end Text

structure LineMap where
  lines : List Text

namespace LineMap

def ofText (cs : Text) : LineMap :=
  ⟨Text.lines cs⟩

def lineCount (m : LineMap) : Nat :=
  m.lines.length

/-- The position of an offset among lines, each but the last followed by one newline byte. -/
def locate : List Text → Nat → Position
  | [], _ => ⟨0, 0⟩
  | [l], offset => ⟨0, min offset (Text.width l)⟩
  | l :: ls, offset =>
      if offset ≤ Text.width l then ⟨0, offset⟩
      else
        let p := locate ls (offset - Text.width l - 1)
        ⟨p.line + 1, p.col⟩

def position (m : LineMap) (offset : Nat) : Position :=
  locate m.lines offset

def spanOf : List Text → Nat
  | [] => 0
  | l :: ls => Text.width l + 1 + spanOf ls

def lineRange (m : LineMap) (line : Nat) : Option (Nat × Nat) :=
  m.lines[line]?.map fun l =>
    let start := spanOf (m.lines.take line)
    (start, start + Text.width l)

/-- The byte offset of a position, or nothing for a line that is not there. The start of the line
and the column are added as counts before the sum is clamped to the end of the line. -/
def offset (m : LineMap) (p : Position) : Except Fault (Option Nat) :=
  match m.lineRange p.line with
  | none => .ok none
  | some (start, stop) => (counted (start + p.col)).map fun n => some (min n stop)

def lineText (m : LineMap) (line : Nat) : Option Text :=
  m.lines[line]?.map (Text.trimEndOf '\r')

end LineMap
end ProcedureIndex
