import ProcedureIndex.Fault

/-!
What the person typing accepts. For every name that was accepted the habits say
how often, when last and in which contexts; next to that stands a bounded history
of the names in the order in which they were accepted. Room for the whole history is
set aside at the start.
-/

namespace ProcedureIndex

/-- A moment in milliseconds; negative moments lie before the epoch. -/
abbrev Moment := Int

structure Habit where
  frequency : Nat
  lastUsed : Moment
  contexts : List String
  deriving DecidableEq, Repr

/-- Frequencies are 32-bit counts that stay at their largest value. -/
def frequencyCap : Nat := 0xFFFFFFFF

namespace Habit

/-- One more acceptance, in any order of time. -/
def accept (r : Habit) (context : String) (moment : Moment) : Habit :=
  { frequency := min (r.frequency + 1) frequencyCap
    lastUsed := max r.lastUsed moment
    contexts := if r.contexts.contains context then r.contexts else r.contexts ++ [context] }

end Habit

structure Habits where
  capacity : Nat := 50
  records : List (String × Habit) := []
  history : List String := []
  deriving DecidableEq, Repr

namespace Habits

/-- The largest capacity: a name of the history takes 24 bytes, and together they stay below
`2 ^ 63` bytes. -/
def capacityLimit : Nat := 0x7FFFFFFFFFFFFFFF / 24

/-- Habits without any acceptance, if there can be room for a history of this length. -/
def ofCapacity (capacity : Nat) : Except Fault Habits :=
  if capacity ≤ capacityLimit then .ok { capacity := capacity } else .error .noRoom

def habit? (h : Habits) (name : String) : Option Habit :=
  h.records.lookup name

def frequency (h : Habits) (name : String) : Nat :=
  ((h.habit? name).map Habit.frequency).getD 0

def lastUsed? (h : Habits) (name : String) : Option Moment :=
  (h.habit? name).map Habit.lastUsed

def acceptIn (name context : String) (moment : Moment) :
    List (String × Habit) → List (String × Habit)
  | [] => [(name, Habit.accept ⟨0, moment, []⟩ context moment)]
  | (n, r) :: rest =>
      if n = name then (n, r.accept context moment) :: rest
      else (n, r) :: acceptIn name context moment rest

/-- The history with one more name; the oldest names make room. -/
def remember (capacity : Nat) (history : List String) (name : String) : List String :=
  if capacity = 0 then history
  else history.drop (history.length + 1 - capacity) ++ [name]

def record (h : Habits) (name context : String) (moment : Moment) : Habits :=
  { h with
    records := acceptIn name context moment h.records
    history := remember h.capacity h.history name }

/-- More frequent before less, then later before earlier, then by name. -/
def usedMore (a b : String × Habit) : Bool :=
  if a.2.frequency ≠ b.2.frequency then b.2.frequency < a.2.frequency
  else if a.2.lastUsed ≠ b.2.lastUsed then b.2.lastUsed < a.2.lastUsed
  else a.1 ≤ b.1

def mostFrequent (h : Habits) (limit : Nat) : List String :=
  ((h.records.mergeSort usedMore).take limit).map Prod.fst

/-- The names that were accepted last, newest first, each once. -/
def recent (h : Habits) (limit : Nat) : List String :=
  h.history.reverse.eraseDups.take limit

def clear (h : Habits) : Habits :=
  { h with records := [], history := [] }

def isEmpty (h : Habits) : Bool :=
  h.records.isEmpty

end Habits
end ProcedureIndex
