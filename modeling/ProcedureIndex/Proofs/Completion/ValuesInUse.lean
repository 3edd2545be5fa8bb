import ProcedureIndex.Completion.Complete
import ProcedureIndex.Proofs.Completion.SortKeys
import ProcedureIndex.Proofs.Navigation.Targets

/-!
Labels and versions in use. A cursor at a label or at a version is answered by one
generator; it offers every value in use and every suggested value that is not, and the
boost of the values in use is more than all bonuses of a suggestion together, so they
come first whatever was typed or accepted before.
-/

namespace ProcedureIndex

/-- One offer for each value in use, and behind them one for each suggested value that is not in
use. -/
def InUseFirst (kind : OfferKind) (inUse : String → Prop) (suggested : List String)
    (offers : List Offer) : Prop :=
  ∃ used others, offers = used ++ others ∧
    (∀ o ∈ used, o.kind = kind ∧ o.origin = .workspace) ∧
    (∀ o ∈ others, o.kind = kind ∧ o.origin = .catalog) ∧
    (used.map Offer.label).Nodup ∧ (∀ v, v ∈ used.map Offer.label ↔ inUse v) ∧
    (others.map Offer.label).Nodup ∧
    ∀ v, v ∈ others.map Offer.label ↔ v ∈ suggested ∧ ¬ inUse v

namespace Completion

theorem firstByLabel_eq_self {seen : List String} {ps : List Proposal}
    (hnodup : (ps.map fun p => p.offer.label).Nodup)
    (hseen : ∀ p ∈ ps, p.offer.label ∉ seen) : firstByLabel seen ps = ps := by
  induction ps generalizing seen with
  | nil => rfl
  | cons p rest ih =>
      obtain ⟨hp, hrest⟩ := List.nodup_cons.1 hnodup
      have hnew : ¬ (seen.contains p.offer.label) = true := by
        simpa using hseen p List.mem_cons_self
      rw [firstByLabel, if_neg hnew, ih hrest]
      intro q hq hmem
      rcases List.mem_cons.1 hmem with heq | hmem
      · exact hp (List.mem_map.2 ⟨q, hq, heq⟩)
      · exact hseen q (List.mem_cons_of_mem p hq) hmem

end Completion

namespace Generator

section

variable (here : Situation) (kind : OfferKind)

def inUseOffer (detail : String → String) (v : String) : Offer :=
  { label := v, kind := kind, insert := quoted here v, detail := some (detail v),
    origin := .workspace, boost := inUseBoost }

def suggestedOffer (detail : String) (v : String) : Offer :=
  { label := v, kind := kind, insert := quoted here v, detail := some detail, origin := .catalog }

variable {inUse suggested : List String} {detail : String → String}
  {inUseReason suggestedDetail suggestedReason : String}

theorem offers_valuesInUse :
    (valuesInUse here kind inUse detail inUseReason suggested suggestedDetail
        suggestedReason).map Proposal.offer =
      inUse.map (inUseOffer here kind detail) ++
        (suggested.filter fun v => !inUse.contains v).map
          (suggestedOffer here kind suggestedDetail) := by
  rw [valuesInUse, List.map_append, List.map_map, List.map_map]
  rfl

theorem firstByLabel_valuesInUse (hinUse : inUse.Nodup) (hsuggested : suggested.Nodup) :
    Completion.firstByLabel [] (valuesInUse here kind inUse detail inUseReason suggested
        suggestedDetail suggestedReason) =
      valuesInUse here kind inUse detail inUseReason suggested suggestedDetail
        suggestedReason := by
  apply Completion.firstByLabel_eq_self
  · have hlabels : ((valuesInUse here kind inUse detail inUseReason suggested suggestedDetail
        suggestedReason).map fun p => p.offer.label) =
        inUse ++ suggested.filter fun v => !inUse.contains v := by
      simp [valuesInUse, Function.comp_def]
    rw [hlabels, List.nodup_append]
    refine ⟨hinUse, hsuggested.filter _, ?_⟩
    rintro a ha b hb rfl
    simp [ha] at hb
  · exact fun p _ => List.not_mem_nil

/-- Ranking leaves the values in use in front of the suggestions. -/
theorem inUseFirst_rank (basis : RankBasis) (hinUse : inUse.Nodup) (hsuggested : suggested.Nodup) :
    InUseFirst kind (· ∈ inUse) suggested
      (rank basis ((valuesInUse here kind inUse detail inUseReason suggested suggestedDetail
        suggestedReason).map Proposal.offer)) := by
  have hused : ∀ o ∈ inUse.map (inUseOffer here kind detail),
      inUseBoost ≤ Rank.score basis o ∧ Rank.score basis o ≤ Rank.ceiling := by
    rw [List.forall_mem_map]
    intro v _
    refine ⟨Rank.boost_le_score basis (inUseOffer here kind detail v),
      Nat.le_trans (Rank.score_le basis _) ?_⟩
    change inUseBoost + Rank.bonusLimit ≤ Rank.ceiling
    decide
  have hothers : ∀ o ∈ (suggested.filter fun v => !inUse.contains v).map
      (suggestedOffer here kind suggestedDetail), Rank.score basis o < inUseBoost := by
    rw [List.forall_mem_map]
    intro v _
    refine Nat.lt_of_le_of_lt (Rank.score_le basis _) ?_
    change 0 + Rank.bonusLimit < inUseBoost
    decide
  obtain ⟨front, back, hrank, hfront, hback⟩ := exists_rank_append hused hothers (by decide)
  rw [List.map_map] at hfront hback
  have hfrontLabels : (front.map Offer.label).Perm inUse := by
    have hperm := hfront.map Offer.label
    rwa [List.map_map, show Offer.label ∘ Rank.scored basis ∘ inUseOffer here kind detail = id
      from rfl, List.map_id] at hperm
  have hbackLabels : (back.map Offer.label).Perm (suggested.filter fun v => !inUse.contains v) := by
    have hperm := hback.map Offer.label
    rwa [List.map_map, show Offer.label ∘ Rank.scored basis ∘
      suggestedOffer here kind suggestedDetail = id from rfl, List.map_id] at hperm
  rw [offers_valuesInUse]
  refine ⟨front, back, hrank, ?_, ?_, hfrontLabels.nodup_iff.2 hinUse,
    fun _ => hfrontLabels.mem_iff, hbackLabels.nodup_iff.2 (hsuggested.filter _), ?_⟩
  · intro o ho
    obtain ⟨v, -, rfl⟩ := List.mem_map.1 (hfront.mem_iff.1 ho)
    exact ⟨rfl, rfl⟩
  · intro o ho
    obtain ⟨v, -, rfl⟩ := List.mem_map.1 (hback.mem_iff.1 ho)
    exact ⟨rfl, rfl⟩
  · intro v
    rw [hbackLabels.mem_iff, List.mem_filter]
    simp

end
end Generator

theorem InUseFirst.congr {kind : OfferKind} {inUse inUse' : String → Prop} {suggested : List String}
    {offers : List Offer} (h : InUseFirst kind inUse suggested offers)
    (hsame : ∀ v, inUse v ↔ inUse' v) : InUseFirst kind inUse' suggested offers := by
  rwa [show inUse' = inUse from funext fun v => propext (hsame v).symm]

variable {w : Snapshot} {text : FileTable → Text}

theorem Snapshot.Shows.mem_versionsOf (h : w.Shows text) {name version : String} :
    version ∈ Generator.versionsOf w name ↔
      ∃ s ∈ w.symbols, s.kind.isCallable = true ∧ s.name = name ∧ s.version = some version := by
  simp only [Generator.versionsOf, List.mem_eraseDups, List.mem_filterMap, List.mem_filter,
    h.mem_named]
  constructor
  · rintro ⟨s, ⟨⟨hs, hname⟩, hkind⟩, hversion⟩
    exact ⟨s, hs, hkind, hname, hversion⟩
  · rintro ⟨s, hs, hkind, hname, hversion⟩
    exact ⟨s, ⟨⟨hs, hname⟩, hkind⟩, hversion⟩

namespace Completion

theorem candidates_label {here : Situation} {typed : Text} (h : here.context = .label typed) :
    candidates Generator.all here =
      Generator.valuesInUse here .label here.snapshot.labels
        (Generator.labelDetail here.snapshot) "label already in use" Catalog.labels
        "suggested label" "common label" := by
  have happlies : (Generator.all.filter fun g => g.applies (.label typed)) =
      [Generator.labels] := rfl
  simp only [candidates, proposals, h, happlies, List.flatMap_singleton]
  exact Generator.firstByLabel_valuesInUse _ _ (nodup_eraseDups _) (by decide)

theorem candidates_version {here : Situation} {typed function : Text}
    (h : here.context = .version typed (some function)) :
    candidates Generator.all here =
      Generator.valuesInUse here .version
        (Generator.versionsOf here.snapshot (String.ofList function))
        (fun _ => "existing version of " ++ String.ofList function) "version already declared"
        Catalog.versions "suggested version" "conventional version" := by
  have happlies : (Generator.all.filter fun g => g.applies (.version typed (some function))) =
      [Generator.versions] := rfl
  simp only [candidates, proposals, h, happlies, List.flatMap_singleton, Generator.versions]
  exact Generator.firstByLabel_valuesInUse _ _ (nodup_eraseDups _) (by decide)

end Completion

/-- At a label the labels in use come first, and at a version of a function its versions in use;
each is offered once, and behind them each suggested value that is not in use. -/
theorem completions_in_use_first (h : w.Shows text) (habits : Habits) (config : Config)
    (request : CompletionRequest) (now : Moment) :
    (∀ typed, Context.classify request.before request.after = .label typed →
      InUseFirst .label (fun label => ∃ s ∈ w.symbols, label ∈ s.labels) Catalog.labels
        (completions w habits config request now)) ∧
    ∀ typed function,
      Context.classify request.before request.after = .version typed (some function) →
      InUseFirst .version
        (fun version => ∃ s ∈ w.symbols, s.kind.isCallable = true ∧
          s.name = String.ofList function ∧ s.version = some version)
        Catalog.versions (completions w habits config request now) := by
  constructor
  · intro typed hcontext
    rw [completions, Completion.candidates_label hcontext]
    exact (Generator.inUseFirst_rank _ _ _ (nodup_eraseDups _) (by decide)).congr
      fun _ => h.mem_labels
  · intro typed function hcontext
    rw [completions, Completion.candidates_version hcontext]
    exact (Generator.inUseFirst_rank _ _ _ (nodup_eraseDups _) (by decide)).congr
      fun _ => h.mem_versionsOf

def drill : Text := "@label(\"zeal\")\nfn drill(version: \"odd\") \x7b\x7d\n".toList

def drillSnapshot : Snapshot :=
  ⟨[Workspace.tabulate ⟨0⟩ ⟨"/a.method"⟩ ⟨1⟩ drill]⟩

def drillHabits : Habits :=
  (({} : Habits).record "study" "label" 7).record "quick" "version" 8

theorem completions_in_use_first_drill :
    drillSnapshot.Shows (fun _ => drill) ∧
    Context.classify "@label(\"stu".toList [] = .label "stu".toList ∧
    InUseFirst .label (fun label => ∃ s ∈ drillSnapshot.symbols, label ∈ s.labels) Catalog.labels
      (completions drillSnapshot drillHabits {} ⟨⟨0⟩, "@label(\"stu".toList, []⟩ 9) ∧
    Context.classify "drill(version: \"qu".toList [] =
      .version "qu".toList (some "drill".toList) ∧
    InUseFirst .version
      (fun version => ∃ s ∈ drillSnapshot.symbols, s.kind.isCallable = true ∧
        s.name = "drill" ∧ s.version = some version)
      Catalog.versions
      (completions drillSnapshot drillHabits {} ⟨⟨0⟩, "drill(version: \"qu".toList, []⟩ 9) := by
  have hshows : drillSnapshot.Shows (fun _ => drill) := by
    intro t ht
    cases List.mem_singleton.1 ht
    rfl
  have hlabel : Context.classify "@label(\"stu".toList [] = .label "stu".toList := by
    decide +kernel
  have hversion : Context.classify "drill(version: \"qu".toList [] =
      .version "qu".toList (some "drill".toList) := by
    decide +kernel
  exact ⟨hshows, hlabel,
    (completions_in_use_first hshows drillHabits {} ⟨⟨0⟩, _, _⟩ 9).1 _ hlabel, hversion,
    (completions_in_use_first hshows drillHabits {} ⟨⟨0⟩, _, _⟩ 9).2 _ _ hversion⟩

end ProcedureIndex
