/-!
Requests without an answer. A fault is not an error of the environment: it means
that the caller asked for something that a 32-bit or 128-bit count, the text itself or
the memory cannot hold.
-/

namespace ProcedureIndex

inductive Fault where
  /-- A count left the range of its word. -/
  | overflow
  /-- An offset lies outside the text or inside a character. -/
  | badOffset
  /-- A collection was to hold more than memory can be addressed for. -/
  | noRoom
  deriving DecidableEq, Repr

/-- Offsets, columns and scores are 32-bit counts, which stay below this. -/
def countLimit : Nat := 0x100000000

def counted (n : Nat) : Except Fault Nat :=
  if n < countLimit then .ok n else .error .overflow

end ProcedureIndex
