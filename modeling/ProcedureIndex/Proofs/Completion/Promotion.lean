import Mathlib.Data.List.Nodup
import ProcedureIndex.Proofs.Completion.AcceptanceLog
import ProcedureIndex.Proofs.Completion.SortKeys

/-!
Accepting an offer never demotes it. An acceptance, at whatever moment, leaves the score of every
other label as it is and does not lower that of its own; among offers of different labels the
index of an offer is the number of smaller keys, so the accepted one cannot fall behind and the
others keep their order.
-/

namespace ProcedureIndex

theorem labels_rank_perm (basis : RankBasis) (offers : List Offer) :
    ((rank basis offers).map Offer.label).Perm (offers.map Offer.label) := by
  have hperm := (rank_perm basis offers).map Offer.label
  rwa [List.map_map] at hperm

/-- In a list with growing keys, what is smaller than a key stands in front of it. -/
theorem countP_sortKey_lt {front back : List Offer} {o : Offer}
    (h : (front ++ o :: back).Pairwise fun a b => a.sortKey < b.sortKey) :
    (front ++ o :: back).countP (fun a => decide (a.sortKey < o.sortKey)) = front.length := by
  rw [List.pairwise_append, List.pairwise_cons] at h
  obtain ⟨-, ⟨hback, -⟩, hfront⟩ := h
  have hsmaller : front.countP (fun a => decide (a.sortKey < o.sortKey)) = front.length := by
    rw [List.countP_eq_length]
    intro a ha
    exact decide_eq_true (hfront a ha o List.mem_cons_self)
  have hlarger : (o :: back).countP (fun a => decide (a.sortKey < o.sortKey)) = 0 := by
    rw [List.countP_eq_zero]
    intro a ha
    rw [decide_eq_true_eq]
    rcases List.mem_cons.1 ha with rfl | ha
    · exact String.lt_irrefl _
    · exact String.lt_asymm (hback a ha)
  rw [List.countP_append, hsmaller, hlarger, Nat.add_zero]

section DistinctLabels

variable {basis : RankBasis} {offers : List Offer}
  (hscores : ∀ o ∈ offers, Rank.score basis o ≤ Rank.ceiling)
  (hdistinct : (offers.map Offer.label).Nodup)
include hscores hdistinct

/-- Offers of different labels have different keys. -/
theorem rank_pairwise_lt :
    (rank basis offers).Pairwise fun a b => a.sortKey < b.sortKey := by
  have hlabels := (labels_rank_perm basis offers).nodup_iff.2 hdistinct
  rw [List.Nodup, List.pairwise_map] at hlabels
  refine ((rank_pairwise basis offers).and hlabels).imp_of_mem ?_
  intro a b ha hb h
  obtain ⟨o, ho, rfl⟩ := exists_of_mem_rank ha
  obtain ⟨o', ho', rfl⟩ := exists_of_mem_rank hb
  apply Std.lt_of_le_of_ne h.1
  intro heq
  exact h.2 (Rank.sortKey_inj (hscores o ho) (hscores o' ho') heq).2

/-- The index of an offer is the number of offers with a smaller key. -/
theorem idxOf_labels_rank {o : Offer} (ho : o ∈ offers) :
    ((rank basis offers).map Offer.label).idxOf o.label =
      offers.countP fun a =>
        decide ((Rank.scored basis a).sortKey < (Rank.scored basis o).sortKey) := by
  have hordered := rank_pairwise_lt hscores hdistinct
  have hlabels := (labels_rank_perm basis offers).nodup_iff.2 hdistinct
  have hcount : offers.countP (fun a =>
      decide ((Rank.scored basis a).sortKey < (Rank.scored basis o).sortKey)) =
        (rank basis offers).countP fun a => decide (a.sortKey < (Rank.scored basis o).sortKey) := by
    rw [(rank_perm basis offers).countP_eq, List.countP_map, Function.comp_def]
  have hmem : Rank.scored basis o ∈ rank basis offers :=
    (rank_perm basis offers).mem_iff.2 (List.mem_map_of_mem ho)
  obtain ⟨front, back, hsplit⟩ := List.append_of_mem hmem
  rw [hsplit] at hordered
  rw [hsplit, List.map_append, List.nodup_append] at hlabels
  have hnew : o.label ∉ front.map Offer.label :=
    fun hin => hlabels.2.2 _ hin _ List.mem_cons_self rfl
  have hlabel : (Rank.scored basis o).label = o.label := rfl
  rw [hcount, hsplit, countP_sortKey_lt hordered, List.map_append,
    List.idxOf_append_of_notMem hnew, List.map_cons, hlabel, List.idxOf_cons_self, List.length_map,
    Nat.add_zero]

end DistinctLabels

/-- Offers whose scores are the same on two grounds are in the same order on both. -/
theorem filter_rank_eq {basis basis' : RankBasis} {offers : List Offer}
    (hscores : ∀ o ∈ offers, Rank.score basis o ≤ Rank.ceiling)
    (hscores' : ∀ o ∈ offers, Rank.score basis' o ≤ Rank.ceiling)
    (hdistinct : (offers.map Offer.label).Nodup) {p : String → Bool}
    (hsame : ∀ o ∈ offers, p o.label = true → Rank.score basis' o = Rank.score basis o) :
    (rank basis' offers).filter (fun o => p o.label) =
      (rank basis offers).filter fun o => p o.label := by
  have hfilter : ∀ b, ((rank b offers).filter fun o => p o.label).Perm
      ((offers.filter fun o => p o.label).map (Rank.scored b)) := by
    intro b
    have hperm := (rank_perm b offers).filter fun o => p o.label
    rwa [List.filter_map] at hperm
  have hscored : (offers.filter fun o => p o.label).map (Rank.scored basis') =
      (offers.filter fun o => p o.label).map (Rank.scored basis) := by
    apply List.map_congr_left
    intro o ho
    obtain ⟨ho, hp⟩ := List.mem_filter.1 ho
    rw [Rank.scored, Rank.scored, hsame o ho hp]
  have hperm := (hfilter basis').trans (hscored ▸ (hfilter basis).symm)
  apply hperm.eq_of_pairwise _ ((rank_pairwise_lt hscores' hdistinct).filter _)
    ((rank_pairwise_lt hscores hdistinct).filter _)
  intro a b _ _ hab hba
  exact absurd hba (String.lt_asymm hab)

def RankBasis.accepting (basis : RankBasis) (name context : String) (moment : Moment) :
    RankBasis :=
  { basis with habits := basis.habits.record name context moment }

namespace Rank

theorem recencyBonus_antitone {a b : Nat} (h : a ≤ b) : recencyBonus b ≤ recencyBonus a := by
  unfold recencyBonus
  split_ifs <;> omega

variable (basis : RankBasis) (context : String) (moment : Moment)

theorem usageBonus_accepting_of_ne {name label : String} (h : label ≠ name) :
    usageBonus (basis.accepting name context moment) label = usageBonus basis label := by
  have hhabit : (basis.accepting name context moment).habits.habit? label =
      basis.habits.habit? label := Habits.lookup_acceptIn_of_ne name context moment h _
  rw [usageBonus, hhabit]
  rfl

/-- One more use is worth at least as much, however long ago it was: it raises the frequency up
to its cap, and the last use does not move back. -/
theorem usageBonus_le_accepting (name : String) :
    usageBonus basis name ≤ usageBonus (basis.accepting name context moment) name := by
  have hhabit : (basis.accepting name context moment).habits.habit? name =
      some (((basis.habits.habit? name).getD ⟨0, moment, []⟩).accept context moment) :=
    Habits.lookup_acceptIn_self name context moment _
  simp only [usageBonus, hhabit]
  cases hr : basis.habits.habit? name with
  | none => exact Nat.zero_le _
  | some r =>
      have hfrequency : min (r.frequency * 10) 50 ≤
          min ((r.accept context moment).frequency * 10) 50 := by
        simp only [Habit.accept, frequencyCap]
        omega
      have hage : (basis.now - (r.accept context moment).lastUsed).toNat ≤
          (basis.now - r.lastUsed).toNat := by
        simp only [Habit.accept]
        omega
      exact Nat.add_le_add hfrequency (recencyBonus_antitone hage)

theorem score_accepting_of_ne {name : String} {o : Offer} (h : o.label ≠ name) :
    score (basis.accepting name context moment) o = score basis o := by
  rw [score, usageBonus_accepting_of_ne basis context moment h]
  rfl

theorem score_le_accepting (o : Offer) :
    score basis o ≤ score (basis.accepting o.label context moment) o :=
  Nat.add_le_add_right (Nat.add_le_add_left
    (usageBonus_le_accepting basis context moment o.label) _) _

/-- What comes before an offer after it was accepted came before it all along. -/
theorem sortKey_lt_of_accepting {a o : Offer} (ha : a.boost ≤ 795) (ho : o.boost ≤ 795)
    (hdistinct : a.label = o.label → a = o)
    (h : (scored (basis.accepting o.label context moment) a).sortKey <
      (scored (basis.accepting o.label context moment) o).sortKey) :
    (scored basis a).sortKey < (scored basis o).sortKey := by
  by_cases hlabel : a.label = o.label
  · rw [hdistinct hlabel] at h
    exact absurd h (String.lt_irrefl _)
  · have hlt := (sortKey_lt_iff (score_le_ceiling _ ha) (score_le_ceiling _ ho)).1 h
    apply (sortKey_lt_iff (score_le_ceiling _ ha) (score_le_ceiling _ ho)).2
    rw [score_accepting_of_ne basis context moment hlabel] at hlt
    have hle := score_le_accepting basis context moment o
    cases hlt with
    | inl hscore => exact .inl (Nat.lt_of_le_of_lt hle hscore)
    | inr htie =>
        rw [← htie.1] at hle
        cases Nat.lt_or_eq_of_le hle with
        | inl hscore => exact .inl hscore
        | inr hscore => exact .inr ⟨hscore.symm, htie.2⟩

end Rank

/-- Ranking the same offers before and after an acceptance, at any moment and in any state of
the habits: the accepted label does not move back, and all other offers keep their scores and
their order. -/
theorem acceptance_never_demotes (basis : RankBasis) {offers : List Offer}
    (hdistinct : (offers.map Offer.label).Nodup) (hboosts : ∀ o ∈ offers, o.boost ≤ 795)
    (name context : String) (moment : Moment) :
    ∃ earlier later,
      rankChecked basis offers = .ok earlier ∧
      rankChecked (basis.accepting name context moment) offers = .ok later ∧
      (earlier.map Offer.label).Perm (offers.map Offer.label) ∧
      (later.map Offer.label).Perm (offers.map Offer.label) ∧
      (later.map Offer.label).idxOf name ≤ (earlier.map Offer.label).idxOf name ∧
      (later.filter fun o => o.label ≠ name) = earlier.filter fun o => o.label ≠ name := by
  have hscores := fun b o ho => Rank.score_le_ceiling b (hboosts o ho)
  have hlabels := fun b => labels_rank_perm b offers
  refine ⟨rank basis offers, rank (basis.accepting name context moment) offers,
    rankChecked_eq_ok (hscores _), rankChecked_eq_ok (hscores _), hlabels _, hlabels _, ?_, ?_⟩
  · by_cases hname : name ∈ offers.map Offer.label
    · obtain ⟨o, ho, rfl⟩ := List.mem_map.1 hname
      rw [idxOf_labels_rank (hscores _) hdistinct ho, idxOf_labels_rank (hscores _) hdistinct ho]
      apply List.countP_mono_left
      intro a ha hlt
      rw [decide_eq_true_eq] at hlt ⊢
      exact Rank.sortKey_lt_of_accepting basis context moment (hboosts a ha) (hboosts o ho)
        (fun heq => List.inj_on_of_nodup_map hdistinct ha ho heq) hlt
    · apply Nat.le_of_eq
      rw [List.idxOf_of_notMem (by rwa [(hlabels _).mem_iff]),
        List.idxOf_of_notMem (by rwa [(hlabels _).mem_iff]), (hlabels _).length_eq,
        (hlabels _).length_eq]
  · apply filter_rank_eq (hscores _) (hscores _) hdistinct (p := fun label => label ≠ name)
    intro o _ hne
    exact Rank.score_accepting_of_ne basis context moment (of_decide_eq_true hne)

def reviewing : RankBasis where
  typed := "r".toList
  habits := (({} : Habits).record "recite" "call" 0).record "review" "call" 3480000
  enclosing := some "study"
  now := 3600000

def distinctOffers : List Offer :=
  [ { label := "recite", kind := .variable, insert := "recite", origin := .workspace },
    { label := "rehearse", kind := .variable, insert := "rehearse", detail := some "let in study",
      origin := .workspace },
    { label := "review", kind := .variable, insert := "review", origin := .workspace } ]

theorem acceptance_never_demotes_backdated :
    (distinctOffers.map Offer.label).Nodup ∧ (∀ o ∈ distinctOffers, o.boost ≤ 795) ∧
    distinctOffers.map (Rank.score reviewing) = [120, 125, 130] ∧
    distinctOffers.map (Rank.score (reviewing.accepting "recite" "call" (-1))) =
      [130, 125, 130] ∧
    ∃ earlier later,
      rankChecked reviewing distinctOffers = .ok earlier ∧
      rankChecked (reviewing.accepting "recite" "call" (-1)) distinctOffers = .ok later ∧
      (later.map Offer.label).idxOf "recite" ≤ (earlier.map Offer.label).idxOf "recite" ∧
      (later.filter fun o => o.label ≠ "recite") = earlier.filter fun o => o.label ≠ "recite" := by
  have hdistinct : (distinctOffers.map Offer.label).Nodup := by decide
  have hboosts : ∀ o ∈ distinctOffers, o.boost ≤ 795 := by decide
  obtain ⟨earlier, later, hearlier, hlater, -, -, hindex, hothers⟩ :=
    acceptance_never_demotes reviewing hdistinct hboosts "recite" "call" (-1)
  exact ⟨hdistinct, hboosts, by decide +kernel, by decide +kernel, earlier, later, hearlier,
    hlater, hindex, hothers⟩

end ProcedureIndex
