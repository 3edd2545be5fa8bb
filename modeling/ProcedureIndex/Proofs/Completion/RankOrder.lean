import Mathlib.Data.List.Nodup
import ProcedureIndex.Proofs.Completion.SortKeys
import ProcedureIndex.Proofs.Text.ByteOrder

/-!
Ranking as a stable sort. As long as boosts leave room for all bonuses, the ranked offers
are the offers in the order of their scores, the highest first; offers of one score are in the
order of the bytes of their labels, and offers of one score and label stay as they were.
-/

namespace ProcedureIndex

open Text

namespace Rank

/-- By score, the highest first, then by the bytes of the label, then by place in the list. -/
def Precedes (basis : RankBasis) (a b : Offer × Nat) : Prop :=
  score basis b.1 < score basis a.1 ∨
    score basis a.1 = score basis b.1 ∧
      (bytes a.1.label.toList < bytes b.1.label.toList ∨ a.1.label = b.1.label ∧ a.2 < b.2)

def placed (basis : RankBasis) (a b : Offer × Nat) : Bool :=
  List.zipIdxLE notBehind (Prod.map (scored basis) id a) (Prod.map (scored basis) id b)

theorem placed_trans (basis : RankBasis) (a b c : Offer × Nat)
    (hab : placed basis a b = true) (hbc : placed basis b c = true) : placed basis a c = true :=
  List.zipIdxLE_trans notBehind_trans _ _ _ hab hbc

theorem placed_total (basis : RankBasis) (a b : Offer × Nat) :
    (placed basis a b || placed basis b a) = true :=
  List.zipIdxLE_total notBehind_total _ _

theorem precedes_of_placed {basis : RankBasis} {a b : Offer × Nat}
    (ha : score basis a.1 ≤ ceiling) (hb : score basis b.1 ≤ ceiling) (hne : a.2 ≠ b.2)
    (h : placed basis a b = true) : Precedes basis a b := by
  simp only [placed, List.zipIdxLE, notBehind, Prod.map_fst, Prod.map_snd, id_eq, scored] at h
  by_cases hle : sortKey (score basis a.1) a.1.label ≤ sortKey (score basis b.1) b.1.label
  · by_cases hge : sortKey (score basis b.1) b.1.label ≤ sortKey (score basis a.1) a.1.label
    · obtain ⟨hscore, hlabel⟩ := sortKey_inj ha hb (String.le_antisymm hle hge)
      have hplace : a.2 ≤ b.2 := by simpa [hle, hge] using h
      exact .inr ⟨hscore, .inr ⟨hlabel, by omega⟩⟩
    · cases (sortKey_lt_iff ha hb).1 (String.not_le.1 hge) with
      | inl hscore => exact .inl hscore
      | inr hlabel =>
          refine .inr ⟨hlabel.1, .inl ?_⟩
          rw [bytes_lt_bytes_iff, ← String.lt_iff]
          exact hlabel.2
  · simp [hle] at h

end Rank

/-- Sorting the offers together with their places shows that the sort is stable. -/
theorem exists_rank_order {basis : RankBasis} {offers : List Offer}
    (hscores : ∀ o ∈ offers, Rank.score basis o ≤ Rank.ceiling) :
    ∃ order : List (Offer × Nat), order.Perm offers.zipIdx ∧
      order.Pairwise (Rank.Precedes basis) ∧
      rank basis offers = order.map fun e => Rank.scored basis e.1 := by
  have hperm := List.mergeSort_perm offers.zipIdx (Rank.placed basis)
  refine ⟨offers.zipIdx.mergeSort (Rank.placed basis), hperm, ?_, ?_⟩
  · have hsorted : (offers.zipIdx.mergeSort (Rank.placed basis)).Pairwise
        fun a b => Rank.placed basis a b = true :=
      List.pairwise_mergeSort (Rank.placed_trans basis) (Rank.placed_total basis) _
    have hplaces : ((offers.zipIdx.mergeSort (Rank.placed basis)).map Prod.snd).Nodup :=
      (hperm.map Prod.snd).nodup_iff.2 (by rw [List.zipIdx_map_snd]; exact List.nodup_range')
    rw [List.Nodup, List.pairwise_map] at hplaces
    refine (hsorted.and hplaces).imp_of_mem ?_
    intro a b ha hb hab
    have hmem : ∀ {e}, e ∈ offers.zipIdx.mergeSort (Rank.placed basis) → e.1 ∈ offers :=
      fun he => List.fst_mem_of_mem_zipIdx (hperm.mem_iff.1 he)
    exact Rank.precedes_of_placed (hscores _ (hmem ha)) (hscores _ (hmem hb)) hab.2 hab.1
  · have hdecorated : (offers.zipIdx.mergeSort (Rank.placed basis)).map
        (Prod.map (Rank.scored basis) id) =
          ((offers.map (Rank.scored basis)).zipIdx).mergeSort (List.zipIdxLE Rank.notBehind) := by
      rw [List.zipIdx_map]
      exact List.map_mergeSort fun a _ b _ => rfl
    have hrank : rank basis offers =
        (offers.map (Rank.scored basis)).mergeSort Rank.notBehind := rfl
    rw [hrank, ← List.mergeSort_zipIdx, ← hdecorated, List.map_map]
    rfl

/-- Ranking gives every offer back, with a score of at most 1000 and a key, in the order of
scores, labels and places; and the keys compare as what is left to the ceiling and the label
do. -/
theorem rank_by_score (basis : RankBasis) {offers : List Offer}
    (hboosts : ∀ o ∈ offers, o.boost ≤ 795) :
    ∃ order : List (Offer × Nat),
      rankChecked basis offers = .ok (order.map fun e =>
        { e.1 with
          score := Rank.score basis e.1
          sortKey := Rank.sortKey (Rank.score basis e.1) e.1.label }) ∧
      order.Perm offers.zipIdx ∧ order.Pairwise (Rank.Precedes basis) ∧
      (∀ o ∈ offers, Rank.score basis o ≤ 1000) ∧
      ∀ o ∈ offers, ∀ o' ∈ offers,
        let rest := Rank.ceiling - Rank.score basis o
        let rest' := Rank.ceiling - Rank.score basis o'
        bytes (Rank.scored basis o).sortKey.toList < bytes (Rank.scored basis o').sortKey.toList ↔
          rest < rest' ∨ rest = rest' ∧ bytes o.label.toList < bytes o'.label.toList := by
  have hscores : ∀ o ∈ offers, Rank.score basis o ≤ Rank.ceiling :=
    fun o ho => Rank.score_le_ceiling basis (hboosts o ho)
  obtain ⟨order, hperm, hordered, hrank⟩ := exists_rank_order hscores
  refine ⟨order, ?_, hperm, hordered, hscores, ?_⟩
  · rw [rankChecked_eq_ok hscores, hrank]
    rfl
  · intro o ho o' ho' rest rest'
    have hle := hscores o ho
    have hle' := hscores o' ho'
    have hkeys : (Rank.scored basis o).sortKey < (Rank.scored basis o').sortKey ↔ _ :=
      Rank.sortKey_lt_iff hle hle'
    rw [bytes_lt_bytes_iff, bytes_lt_bytes_iff, ← String.lt_iff, ← String.lt_iff, hkeys]
    have hlt : rest < rest' ↔ Rank.score basis o' < Rank.score basis o := by omega
    have heq : rest = rest' ↔ Rank.score basis o = Rank.score basis o' := by omega
    rw [hlt, heq]

def zealous : RankBasis where
  typed := "ze".toList
  habits := (List.replicate 5 "zeal").foldl (fun h name => h.record name "call" 0) {}
  enclosing := some "study"
  now := 60000

def crowdedOffers : List Offer :=
  [ { label := "recite", kind := .variable, insert := "recite", origin := .workspace },
    { label := "zeal", kind := .variable, insert := "zeal", detail := some "let in study",
      origin := .workspace, boost := 795 },
    { label := "recite", kind := .keyword, insert := "recite", origin := .catalog },
    { label := "résumé", kind := .variable, insert := "résumé", origin := .workspace } ]

theorem rank_by_score_zealous :
    (∀ o ∈ crowdedOffers, o.boost ≤ 795) ∧
    crowdedOffers.map (Rank.score zealous) = [0, 1000, 0, 0] ∧
    ∃ order : List (Offer × Nat),
      rankChecked zealous crowdedOffers = .ok (order.map fun e =>
        { e.1 with
          score := Rank.score zealous e.1
          sortKey := Rank.sortKey (Rank.score zealous e.1) e.1.label }) ∧
      order.Perm crowdedOffers.zipIdx ∧ order.Pairwise (Rank.Precedes zealous) := by
  have hboosts : ∀ o ∈ crowdedOffers, o.boost ≤ 795 := by decide
  obtain ⟨order, hrank, hperm, hordered, -, -⟩ := rank_by_score zealous hboosts
  exact ⟨hboosts, by decide +kernel, order, hrank, hperm, hordered⟩

end ProcedureIndex
