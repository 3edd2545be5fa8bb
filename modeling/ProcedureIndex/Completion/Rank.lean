import ProcedureIndex.Completion.Offer
import ProcedureIndex.Completion.Habits
import ProcedureIndex.Navigation.Outline

/-!
Which offers come first. Scores are sums of bonuses; the order is that of sort
keys, which are made so that a higher score gives an earlier key and equal scores
are told apart by label.
-/

namespace ProcedureIndex

structure RankBasis where
  typed : Text
  habits : Habits
  enclosing : Option String
  now : Moment

namespace Rank

/-- Scores are meant to stay below this. -/
def ceiling : Nat := 1000

def matchBonus (label typed : Text) : Nat :=
  if (Text.after? typed label).isSome then 100
  else if Text.includes label typed then 50
  else 0

/-- The bonus for a use that is so many milliseconds old. -/
def recencyBonus (age : Nat) : Nat :=
  if age ≤ 60000 then 30
  else if age ≤ 300000 then 20
  else if age ≤ 3600000 then 10
  else 0

/-- The bonus for having been accepted before; uses in the future are new. -/
def usageBonus (basis : RankBasis) (label : String) : Nat :=
  match basis.habits.habit? label with
  | some r => min (r.frequency * 10) 50 + recencyBonus (basis.now - r.lastUsed).toNat
  | none => 0

def mentionBonus (basis : RankBasis) (detail : Option String) : Nat :=
  match basis.enclosing, detail with
  | some name, some d => if Text.includes d.toList name.toList then 25 else 0
  | _, _ => 0

def score (basis : RankBasis) (offer : Offer) : Nat :=
  offer.boost + matchBonus (lowered offer.label) (Text.lower basis.typed) +
    usageBonus basis offer.label + mentionBonus basis offer.detail

def fourDigits (n : Nat) : Text :=
  let digits := Nat.toDigits 10 n
  List.replicate (4 - digits.length) '0' ++ digits

def sortKey (score : Nat) (label : String) : String :=
  String.ofList (fourDigits (ceiling - score)) ++ label

def scored (basis : RankBasis) (offer : Offer) : Offer :=
  { offer with score := score basis offer, sortKey := sortKey (score basis offer) offer.label }

end Rank

/-- Scores the offers and puts the best first; equal keys keep their order. -/
def rank (basis : RankBasis) (offers : List Offer) : List Offer :=
  (offers.map (Rank.scored basis)).mergeSort fun a b => a.sortKey ≤ b.sortKey

/-- Ranks offers whose boosts may be anything, and fails if a score leaves its range. -/
def rankChecked (basis : RankBasis) (offers : List Offer) : Except Fault (List Offer) :=
  if offers.all fun o => Rank.score basis o < countLimit then .ok (rank basis offers)
  else .error .overflow

end ProcedureIndex
