import ProcedureIndex.Symbol.Basic

/-!
Offers: what is proposed to the person typing, and why. An offer refers
to something declared in the workspace or is a suggestion from a catalog.
-/

namespace ProcedureIndex

inductive OfferKind where
  | symbol (kind : SymbolKind)
  | keyword
  | type
  | parameter
  | label
  | version
  | variable
  deriving DecidableEq, Repr

inductive Origin where
  | workspace
  | catalog
  deriving DecidableEq, Repr

/-- One offer. The text to insert may hold cursor stops such as `$1`; the score and the sort key are
filled in by ranking. -/
structure Offer where
  label : String
  kind : OfferKind
  insert : String
  detail : Option String := none
  doc : Option String := none
  origin : Origin
  boost : Nat := 0
  score : Nat := 0
  sortKey : String := ""
  deriving DecidableEq, Repr

namespace Offer

def isSnippet (offer : Offer) : Bool :=
  offer.insert.toList.contains '$'

end Offer

structure Proposal where
  offer : Offer
  rationale : String
  deriving DecidableEq, Repr

end ProcedureIndex
