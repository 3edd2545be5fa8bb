import ProcedureIndex.Completion.Offer
import ProcedureIndex.Completion.Habits

/-!
Completion lists that were computed a short while ago. A list is good for one
cursor in one document with the same line on both sides of it, and only for a
limited time.
-/

namespace ProcedureIndex

structure ListKey where
  file : FileId
  position : Position
  lineBefore : Text
  lineAfter : Text
  deriving DecidableEq, Repr

/-- Lists by key, each with the moment when it was stored; a list lives for `lifetime`
milliseconds. -/
structure ListCache where
  lifetime : Nat
  entries : List (ListKey × Moment × List Offer) := []
  deriving DecidableEq, Repr

namespace ListCache

/-- Is a list that was stored at one moment still good at another? Time that runs backwards does
not make a list older. -/
def isFresh (c : ListCache) (stored now : Moment) : Bool :=
  (now - stored).toNat < c.lifetime

def remove (c : ListCache) (key : ListKey) : ListCache :=
  { c with entries := c.entries.filter fun e => e.1 ≠ key }

/-- The list for a key if it is still good; a list that is not is dropped. -/
def get (c : ListCache) (key : ListKey) (now : Moment) :
    Option (List Offer) × ListCache :=
  match c.entries.lookup key with
  | some (stored, offers) =>
      if c.isFresh stored now then (some offers, c) else (none, c.remove key)
  | none => (none, c)

/-- Stores a list for a key, and drops the lists that are no longer good. -/
def insert (c : ListCache) (key : ListKey) (offers : List Offer) (now : Moment) :
    ListCache :=
  let kept := c.entries.filter fun e => c.isFresh e.2.1 now && e.1 ≠ key
  { c with entries := (key, now, offers) :: kept }

def invalidate (c : ListCache) (file : FileId) : ListCache :=
  { c with entries := c.entries.filter fun e => e.1.file ≠ file }

def clear (c : ListCache) : ListCache :=
  { c with entries := [] }

def size (c : ListCache) : Nat :=
  c.entries.length

def isEmpty (c : ListCache) : Bool :=
  c.size = 0

end ListCache
end ProcedureIndex
