import ProcedureIndex.Completion.Rank
import ProcedureIndex.Completion.Suggestion

/-!
Completion: the context of the cursor chooses the generators, their proposals are
merged so that every label is offered once, and the offers are ranked.
-/

namespace ProcedureIndex
namespace Completion

def proposals (generators : List Generator) (situation : Situation) : List Proposal :=
  (generators.filter fun g => g.applies situation.context).flatMap fun g => g.generate situation

/-- Keeps the first proposal for each label, and none for the labels in `seen`. -/
def firstByLabel (seen : List String) : List Proposal → List Proposal
  | [] => []
  | p :: rest =>
      if seen.contains p.offer.label then firstByLabel seen rest
      else p :: firstByLabel (p.offer.label :: seen) rest

/-- One proposal for each label, the first that was made. -/
def candidates (generators : List Generator) (situation : Situation) : List Proposal :=
  firstByLabel [] (proposals generators situation)

def situation (w : Snapshot) (habits : Habits) (config : Config) (request : CompletionRequest) :
    Situation where
  context := Context.classify request.before request.after
  snapshot := w
  habits := habits
  config := config
  request := request
  enclosing := (enclosingFunction request.before).map String.ofList

end Completion

def completions (w : Snapshot) (habits : Habits) (config : Config) (request : CompletionRequest)
    (now : Moment) : List Offer :=
  let situation := Completion.situation w habits config request
  rank ⟨situation.context.typed, habits, situation.enclosing, now⟩
    ((Completion.candidates Generator.all situation).map Proposal.offer)

end ProcedureIndex
