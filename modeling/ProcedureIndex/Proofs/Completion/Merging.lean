import ProcedureIndex.Completion.Complete
import ProcedureIndex.Proofs.Completion.LocalNames
import ProcedureIndex.Proofs.Completion.SortKeys
import ProcedureIndex.Proofs.Symbol.Groups
import ProcedureIndex.Proofs.Text.Positions
import ProcedureIndex.Workspace.Basic

/-!
How proposals become offers. Of the proposals of all generators that apply, the first for
each label is offered and no other; ranking gives it a score and a place. Where a call may
start, the labels are the names of the callables and of the variables, and the keywords too
at the start of a statement.
-/

namespace ProcedureIndex
namespace Completion

/-- The proposal is the first for its label: its generator applies, no generator before that
applies and proposes the label, and its generator does not propose the label before. -/
def IsFirst (generators : List Generator) (here : Situation) (p : Proposal) : Prop :=
  ∃ earlier g later front back, generators = earlier ++ g :: later ∧
    g.applies here.context = true ∧ g.generate here = front ++ p :: back ∧
    (∀ g' ∈ earlier, g'.applies here.context = true →
      ∀ q ∈ g'.generate here, q.offer.label ≠ p.offer.label) ∧
    ∀ q ∈ front, q.offer.label ≠ p.offer.label

/-- The offers are in order, and there is exactly one for each label that a generator proposes: its
first proposal but for the score and the sort key. -/
structure Merged (generators : List Generator) (here : Situation) (offers : List Offer) :
    Prop where
  ordered : offers.Pairwise fun a b => a.sortKey ≤ b.sortKey
  once : (offers.map Offer.label).Nodup
  complete : ∀ label, label ∈ offers.map Offer.label ↔
    ∃ g ∈ generators, g.applies here.context = true ∧
      ∃ p ∈ g.generate here, p.offer.label = label
  first : ∀ o ∈ offers, ∃ p, IsFirst generators here p ∧
    { o with score := p.offer.score, sortKey := p.offer.sortKey } = p.offer

section FirstByLabel

variable {seen : List String} {ps : List Proposal}

theorem mem_labels_firstByLabel {label : String} :
    label ∈ (firstByLabel seen ps).map (fun p => p.offer.label) ↔
      label ∈ ps.map (fun p => p.offer.label) ∧ label ∉ seen := by
  induction ps generalizing seen with
  | nil => simp [firstByLabel]
  | cons p rest ih =>
      rw [firstByLabel]
      split
      · next hseen =>
          have hp : p.offer.label ∈ seen := by simpa using hseen
          rw [ih, List.map_cons, List.mem_cons]
          constructor
          · rintro ⟨hlabel, hnew⟩
            exact ⟨.inr hlabel, hnew⟩
          · rintro ⟨rfl | hlabel, hnew⟩
            · exact absurd hp hnew
            · exact ⟨hlabel, hnew⟩
      · next hseen =>
          have hp : p.offer.label ∉ seen := by simpa using hseen
          rw [List.map_cons, List.map_cons, List.mem_cons, List.mem_cons, ih, List.mem_cons]
          by_cases hlabel : label = p.offer.label
          · simp [hlabel, hp]
          · simp [hlabel]

theorem nodup_labels_firstByLabel (seen : List String) (ps : List Proposal) :
    ((firstByLabel seen ps).map fun p => p.offer.label).Nodup := by
  induction ps generalizing seen with
  | nil => exact List.nodup_nil
  | cons p rest ih =>
      rw [firstByLabel]
      split
      · exact ih seen
      · rw [List.map_cons, List.nodup_cons, mem_labels_firstByLabel]
        exact ⟨fun h => h.2 List.mem_cons_self, ih _⟩

/-- What is kept was not seen before, and nothing in front of it has its label. -/
theorem exists_split_of_mem_firstByLabel {p : Proposal} (h : p ∈ firstByLabel seen ps) :
    p.offer.label ∉ seen ∧ ∃ front back, ps = front ++ p :: back ∧
      ∀ q ∈ front, q.offer.label ≠ p.offer.label := by
  induction ps generalizing seen with
  | nil => cases h
  | cons q rest ih =>
      have further : ∀ {seen'}, q.offer.label ∈ seen' → p ∈ firstByLabel seen' rest →
          p.offer.label ∉ seen' ∧ ∃ front back, q :: rest = front ++ p :: back ∧
            ∀ q ∈ front, q.offer.label ≠ p.offer.label := by
        intro seen' hq hp
        obtain ⟨hnew, front, back, rfl, hfront⟩ := ih hp
        refine ⟨hnew, q :: front, back, rfl, ?_⟩
        intro r hr
        rcases List.mem_cons.1 hr with rfl | hr
        · exact fun heq => hnew (heq ▸ hq)
        · exact hfront r hr
      rw [firstByLabel] at h
      split at h
      · next hseen => exact further (by simpa using hseen) h
      · next hseen =>
          rcases List.mem_cons.1 h with rfl | h
          · exact ⟨by simpa using hseen, [], rest, rfl, fun _ hr => absurd hr List.not_mem_nil⟩
          · obtain ⟨hnew, hsplit⟩ := further List.mem_cons_self h
            exact ⟨fun hmem => hnew (List.mem_cons_of_mem _ hmem), hsplit⟩

end FirstByLabel

variable {generators : List Generator} {here : Situation}

theorem mem_proposals {p : Proposal} :
    p ∈ proposals generators here ↔
      ∃ g ∈ generators, g.applies here.context = true ∧ p ∈ g.generate here := by
  simp only [proposals, List.mem_flatMap, List.mem_filter, and_assoc]

theorem proposals_cons (g : Generator) :
    proposals (g :: generators) here =
      (if g.applies here.context = true then g.generate here else []) ++
        proposals generators here := by
  rw [proposals, List.filter_cons]
  split <;> rfl

/-- A proposal comes from one generator, behind what the generators before it propose. -/
theorem exists_generator_of_proposals_eq {front back : List Proposal} {p : Proposal}
    (h : proposals generators here = front ++ p :: back) :
    ∃ earlier g later front' back', generators = earlier ++ g :: later ∧
      g.applies here.context = true ∧ g.generate here = front' ++ p :: back' ∧
      front = proposals earlier here ++ front' := by
  induction generators generalizing front with
  | nil => cases front <;> cases h
  | cons g gs ih =>
      rw [proposals_cons] at h
      have further : ∀ {rest}, front = (if g.applies here.context = true then g.generate here
            else []) ++ rest → proposals gs here = rest ++ p :: back →
          ∃ earlier g' later front' back', g :: gs = earlier ++ g' :: later ∧
            g'.applies here.context = true ∧ g'.generate here = front' ++ p :: back' ∧
            front = proposals earlier here ++ front' := by
        intro rest hfront hrest
        obtain ⟨earlier, g', later, front', back', rfl, happlies, hgenerate, rfl⟩ := ih hrest
        refine ⟨g :: earlier, g', later, front', back', rfl, happlies, hgenerate, ?_⟩
        rw [hfront, proposals_cons, List.append_assoc]
      rcases List.append_eq_append_iff.1 h with ⟨rest, hfront, hrest⟩ | ⟨mid, hmine, hmid⟩
      · exact further hfront hrest
      · cases mid with
        | nil =>
            rw [List.append_nil] at hmine
            have hrest : proposals gs here = [] ++ p :: back := hmid.symm
            exact further (by rw [hmine, List.append_nil]) hrest
        | cons q mid =>
            cases hmid
            split at hmine
            · next happlies => exact ⟨[], g, gs, front, mid, rfl, happlies, hmine, rfl⟩
            · cases front <;> cases hmine

theorem isFirst_of_mem_candidates {p : Proposal} (h : p ∈ candidates generators here) :
    IsFirst generators here p := by
  obtain ⟨-, front, back, hsplit, hfront⟩ := exists_split_of_mem_firstByLabel h
  obtain ⟨earlier, g, later, front', back', hgenerators, happlies, hgenerate, rfl⟩ :=
    exists_generator_of_proposals_eq hsplit
  refine ⟨earlier, g, later, front', back', hgenerators, happlies, hgenerate, ?_, ?_⟩
  · intro g' hg' happlies' q hq
    exact hfront q (List.mem_append_left _ (mem_proposals.2 ⟨g', hg', happlies', hq⟩))
  · exact fun q hq => hfront q (List.mem_append_right _ hq)

/-- Ranking the candidates merges the proposals. -/
theorem merged_rank (basis : RankBasis) (generators : List Generator) (here : Situation) :
    Merged generators here (rank basis ((candidates generators here).map Proposal.offer)) := by
  have hperm := rank_perm basis ((candidates generators here).map Proposal.offer)
  have hlabels : ((rank basis ((candidates generators here).map Proposal.offer)).map
      Offer.label).Perm ((candidates generators here).map fun p => p.offer.label) := by
    have hmap := hperm.map Offer.label
    rwa [List.map_map, List.map_map] at hmap
  refine ⟨rank_pairwise basis _, hlabels.nodup_iff.2 (nodup_labels_firstByLabel [] _), ?_, ?_⟩
  · intro label
    rw [hlabels.mem_iff, candidates, mem_labels_firstByLabel, List.mem_map]
    constructor
    · rintro ⟨⟨p, hp, hlabel⟩, -⟩
      obtain ⟨g, hg, happlies, hgenerate⟩ := mem_proposals.1 hp
      exact ⟨g, hg, happlies, p, hgenerate, hlabel⟩
    · rintro ⟨g, hg, happlies, p, hgenerate, hlabel⟩
      exact ⟨⟨p, mem_proposals.2 ⟨g, hg, happlies, hgenerate⟩, hlabel⟩, List.not_mem_nil⟩
  · intro o ho
    obtain ⟨offer, hoffer, rfl⟩ := List.mem_map.1 (hperm.mem_iff.1 ho)
    obtain ⟨p, hp, rfl⟩ := List.mem_map.1 hoffer
    exact ⟨p, isFirst_of_mem_candidates hp, rfl⟩

end Completion

namespace Generator

theorem exists_first_of_groupOffer? {group : List Symbol} {offer : Offer}
    (h : groupOffer? group = some offer) : ∃ s ∈ group, offer.label = s.name := by
  cases group with
  | nil => cases h
  | cons first rest =>
      cases h
      exact ⟨first, List.mem_cons_self, rfl⟩

theorem exists_groupOffer? {group : List Symbol} {s : Symbol} (h : s ∈ group) :
    ∃ offer, groupOffer? group = some offer := by
  cases group with
  | nil => cases h
  | cons first rest => exact ⟨_, rfl⟩

/-- Symbols of one name make one proposal, whatever they are and wherever they are declared. -/
theorem mem_labels_grouped {symbols : List Symbol} {rationale label : String} :
    label ∈ (grouped symbols rationale).map (fun p => p.offer.label) ↔
      ∃ s ∈ symbols, s.name = label := by
  have hgroups : (symbols.foldl (fun g s => g.push s.name s) ({} : Grouping Symbol)).groups =
      (symbols.map Symbol.name).eraseDups.map fun name =>
        (name, symbols.filter (·.name = name)) :=
    Grouping.groups_collect Symbol.name symbols
  simp only [grouped, hgroups, List.map_map, List.filterMap_map, List.mem_map, List.mem_filterMap,
    List.mem_eraseDups, Function.comp_apply]
  constructor
  · rintro ⟨offer, ⟨name, -, hoffer⟩, rfl⟩
    obtain ⟨s, hs, hlabel⟩ := exists_first_of_groupOffer? hoffer
    exact ⟨s, (List.mem_filter.1 hs).1, hlabel.symm⟩
  · rintro ⟨s, hs, rfl⟩
    have hmem : s ∈ symbols.filter (·.name = s.name) := by simp [hs]
    obtain ⟨offer, hoffer⟩ := exists_groupOffer? hmem
    obtain ⟨t, ht, hlabel⟩ := exists_first_of_groupOffer? hoffer
    refine ⟨offer, ⟨s.name, ⟨s, hs, rfl⟩, hoffer⟩, ?_⟩
    rw [hlabel]
    simpa using (List.mem_filter.1 ht).2

theorem mem_labels_calls (here : Situation) {label : String} :
    (∃ p ∈ calls.generate here, p.offer.label = label) ↔
      ∃ s ∈ here.snapshot.symbols, s.kind.isCallable = true ∧ s.name = label := by
  have hgrouped : (∃ p ∈ calls.generate here, p.offer.label = label) ↔
      ∃ s ∈ callables here.snapshot, s.name = label := by
    rw [← mem_labels_grouped, List.mem_map]
    rfl
  rw [hgrouped]
  simp only [callables, List.mem_filter, and_assoc]

theorem mem_labels_keywords (here : Situation) {label : String} :
    (∃ p ∈ keywords.generate here, p.offer.label = label) ↔
      label ∈ Catalog.keywords.map Catalog.Entry.label := by
  simp [keywords, fromCatalog, catalogOffer]

theorem mem_labels_localNames (here : Situation) {label : String} :
    (∃ p ∈ localNames.generate here, p.offer.label = label) ↔
      label ∈ variablesIn (beforeWord here) := by
  simp [localNames]

end Generator

namespace Text

theorem trailingIdent_suffix (cs : Text) : trailingIdent cs <:+ cs := by
  rw [trailingIdent]
  split
  · exact trailingRun_suffix cs
  · exact List.nil_suffix

theorem lastLine_suffix (cs : Text) : lastLine cs <:+ cs := by
  obtain ⟨init, last, hlines, hsuffix, -⟩ := exists_lines_append cs
  rwa [lastLine, hlines, List.getLast?_concat, Option.getD_some]

end Text

namespace Context

theorem typed_of_call {line rest typed : Text} {atStart : Bool}
    (h : ofLine line rest = .call typed atStart) : typed = Text.trailingIdent line := by
  simp only [ofLine] at h
  split at h
  · cases h
  · split at h
    · cases h
      rfl
    · repeat' split at h
      all_goals cases h

/-- The word at a call is what the text before the cursor ends with. -/
theorem typed_suffix_of_call {before after typed : Text} {atStart : Bool}
    (h : classify before after = .call typed atStart) : typed <:+ before := by
  rw [typed_of_call h]
  exact (Text.trailingIdent_suffix _).trans (Text.lastLine_suffix before)

end Context

/-- At a call the callables, the variables and, at the start of a statement, the keywords are
proposed; all other generators are silent. -/
theorem Completion.exists_proposal_at_call {here : Situation} {typed : Text} {atStart : Bool}
    (hcontext : here.context = .call typed atStart) {label : String} :
    (∃ g ∈ Generator.all, g.applies here.context = true ∧
        ∃ p ∈ g.generate here, p.offer.label = label) ↔
      (∃ s ∈ here.snapshot.symbols, s.kind.isCallable = true ∧ s.name = label) ∨
        (atStart = true ∧ label ∈ Catalog.keywords.map Catalog.Entry.label) ∨
        label ∈ Generator.variablesIn (Generator.beforeWord here) := by
  have happlies : (Generator.all.filter fun g => g.applies (.call typed atStart)) =
      if atStart then [Generator.calls, Generator.keywords, Generator.localNames]
      else [Generator.calls, Generator.localNames] := by
    cases atStart <;> rfl
  have hfilter : (∃ g ∈ Generator.all, g.applies here.context = true ∧
        ∃ p ∈ g.generate here, p.offer.label = label) ↔
      ∃ g ∈ Generator.all.filter fun g => g.applies (.call typed atStart),
        ∃ p ∈ g.generate here, p.offer.label = label := by
    simp only [hcontext, List.mem_filter, and_assoc]
  rw [hfilter, happlies, ← Generator.mem_labels_calls, ← Generator.mem_labels_keywords here,
    ← Generator.mem_labels_localNames]
  cases atStart with
  | true => simp only [if_true, List.exists_mem_cons_iff, List.not_mem_nil, false_and, exists_false,
      or_false, true_and]
  | false => simp only [Bool.false_eq_true, if_false, List.exists_mem_cons_iff, List.not_mem_nil,
      false_and, exists_false, or_false, false_or]

/-- Merging loses nothing and repeats nothing: there is one offer for each label that a generator
proposes, the first proposal for it, and the variables, which come last, yield to everything else.
At a call the labels are the names of the callables, the keywords if a statement starts there, and
the names that the text before the word declares. -/
theorem completions_merged (w : Snapshot) (habits : Habits) (config : Config)
    (request : CompletionRequest) (now : Moment) :
    let here := Completion.situation w habits config request
    let offers := completions w habits config request now
    (∃ others, Generator.all = others ++ [Generator.localNames]) ∧
      Completion.Merged Generator.all here offers ∧
      ∀ typed atStart, here.context = .call typed atStart →
        ∃ front names, request.before = front ++ typed ∧ Declares none front names ∧
          ∀ label, label ∈ offers.map Offer.label ↔
            (∃ s ∈ w.symbols, s.kind.isCallable = true ∧ s.name = label) ∨
              (atStart = true ∧ label ∈ Catalog.keywords.map Catalog.Entry.label) ∨
              label ∈ names.map String.ofList := by
  intro here offers
  have hmerged : Completion.Merged Generator.all here offers :=
    Completion.merged_rank _ Generator.all here
  refine ⟨⟨_, rfl⟩, hmerged, ?_⟩
  intro typed atStart hcontext
  obtain ⟨front, hfront⟩ := Context.typed_suffix_of_call hcontext
  have hbefore : Generator.beforeWord here = front := by
    have hrequest : here.request.before = front ++ typed := hfront.symm
    simp [Generator.beforeWord, hcontext, Context.typed, hrequest]
  obtain ⟨names, hnames, hvariables⟩ := Generator.exists_variablesIn front
  refine ⟨front, names, hfront.symm, hnames, ?_⟩
  intro label
  rw [hmerged.complete, Completion.exists_proposal_at_call hcontext, hbefore, hvariables]
  rfl

def threefold : Snapshot :=
  ⟨[Workspace.tabulate ⟨0⟩ ⟨"/a.method"⟩ ⟨1⟩
      "fn drill() \x7b\x7d\nfn drill(version: \"odd\") \x7b\x7d\n".toList,
    Workspace.tabulate ⟨1⟩ ⟨"/b.method"⟩ ⟨1⟩ "fn drill() \x7b\x7d\n".toList]⟩

theorem completions_merged_threefold :
    let request : CompletionRequest := ⟨⟨0⟩, "let drill = 1\nconst drill = 2\ndr".toList, []⟩
    let here := Completion.situation threefold {} {} request
    let offers := completions threefold {} {} request 0
    here.context = .call "dr".toList true ∧
      Completion.Merged Generator.all here offers ∧
      ∃ front names, request.before = front ++ "dr".toList ∧ Declares none front names ∧
        ∀ label, label ∈ offers.map Offer.label ↔
          (∃ s ∈ threefold.symbols, s.kind.isCallable = true ∧ s.name = label) ∨
            label ∈ Catalog.keywords.map Catalog.Entry.label ∨
            label ∈ names.map String.ofList := by
  intro request here offers
  have hcontext : here.context = .call "dr".toList true := by decide +kernel
  obtain ⟨-, hmerged, hlabels⟩ := completions_merged threefold {} {} request 0
  obtain ⟨front, names, hbefore, hnames, hall⟩ := hlabels _ _ hcontext
  refine ⟨hcontext, hmerged, front, names, hbefore, hnames, ?_⟩
  intro label
  rw [hall label, eq_self, true_and]

end ProcedureIndex
