import ProcedureIndex.Fault

/-!
Stamps say when a file was last changed. They are only compared: a table stays
good while the stamp of its file has not advanced.
-/

namespace ProcedureIndex

/-- A count of ticks below the limit; more is newer. -/
structure Stamp where
  ticks : Nat
  deriving DecidableEq, Repr

namespace Stamp

def limit : Nat := 0x100000000000000000000000000000000

def zero : Stamp := ⟨0⟩

/-- A moment given in milliseconds, as nanoseconds; moments before the epoch are its start. -/
def ofMillis (ms : Int) : Stamp :=
  ⟨ms.toNat * 1000000⟩

def isNewerThan (s t : Stamp) : Bool :=
  t.ticks < s.ticks

/-- One tick later; the last stamp has no successor. -/
def next (s : Stamp) : Except Fault Stamp :=
  if s.ticks + 1 < limit then .ok ⟨s.ticks + 1⟩ else .error .overflow

def later (s t : Stamp) : Stamp :=
  if t.isNewerThan s then t else s

end Stamp
end ProcedureIndex
