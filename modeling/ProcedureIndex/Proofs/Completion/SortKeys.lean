import ProcedureIndex.Completion.Rank

/-!
The order of ranked offers. A sort key starts with four digits that fall as the score
grows, as long as scores stay within the ceiling, so offers of different scores are in
the order of their scores; and what the bonuses can add to a boost is bounded.
-/

namespace ProcedureIndex
namespace Rank

def padded (k n : Nat) : Text :=
  List.replicate (k - (Nat.toDigits 10 n).length) '0' ++ Nat.toDigits 10 n

theorem fourDigits_eq_padded (n : Nat) : fourDigits n = padded 4 n := rfl

theorem length_padded {k n : Nat} (h : (Nat.toDigits 10 n).length ≤ k) :
    (padded k n).length = k := by
  simp only [padded, List.length_append, List.length_replicate]
  omega

theorem padded_succ {k : Nat} (hk : 0 < k) (n : Nat) :
    padded (k + 1) n = padded k (n / 10) ++ [Nat.digitChar (n % 10)] := by
  by_cases hn : n < 10
  · obtain ⟨j, rfl⟩ : ∃ j, k = j + 1 := ⟨k - 1, by omega⟩
    have hzero : Nat.toDigits 10 0 = ['0'] := rfl
    simp only [padded, Nat.toDigits_of_lt_base hn, Nat.div_eq_of_lt hn, Nat.mod_eq_of_lt hn, hzero,
      List.length_singleton, Nat.add_sub_cancel, List.replicate_succ']
  · have hdigits : Nat.toDigits 10 n = Nat.toDigits 10 (n / 10) ++ [Nat.digitChar (n % 10)] := by
      rw [Nat.toDigits_eq_if (by decide), if_neg hn]
    simp only [padded, hdigits, List.length_append, List.length_singleton, Nat.add_sub_add_right,
      List.append_assoc]

theorem digitChar_lt_digitChar : ∀ n < 10, ∀ m < n, Nat.digitChar m < Nat.digitChar n := by
  decide

theorem append_lt_append {a b : Text} (hlength : a.length = b.length) (hlt : a < b)
    (x y : Text) : a ++ x < b ++ y := by
  induction a generalizing b with
  | nil =>
      cases b with
      | nil => exact absurd hlt (List.lt_irrefl [])
      | cons d ds => cases hlength
  | cons c cs ih =>
      cases b with
      | nil => cases hlength
      | cons d ds =>
          rw [List.cons_lt_cons_iff] at hlt
          rw [List.cons_append, List.cons_append, List.cons_lt_cons_iff]
          exact hlt.imp_right fun h => ⟨h.1, ih (Nat.succ.inj hlength) h.2⟩

/-- Among numbers with as many digits the order of the digits is the order of the numbers. -/
theorem padded_lt_padded {k m n : Nat} (hlt : m < n)
    (hm : (Nat.toDigits 10 m).length ≤ k + 1) (hn : (Nat.toDigits 10 n).length ≤ k + 1) :
    padded (k + 1) m < padded (k + 1) n := by
  induction k generalizing m n with
  | zero =>
      have hten : ∀ {i}, (Nat.toDigits 10 i).length ≤ 0 + 1 → i < 10 :=
        (Nat.length_toDigits_le_iff (by decide) (by decide)).1
      have hone : ∀ {i}, i < 10 → padded 1 i = [Nat.digitChar i] := by
        intro i hi
        simp only [padded, Nat.toDigits_of_lt_base hi]
        rfl
      rw [hone (hten hm), hone (hten hn), List.cons_lt_cons_iff]
      exact .inl (digitChar_lt_digitChar n (hten hn) m hlt)
  | succ k ih =>
      have hshorter : ∀ {i}, (Nat.toDigits 10 i).length ≤ k + 1 + 1 →
          (Nat.toDigits 10 (i / 10)).length ≤ k + 1 := by
        intro i hi
        rw [Nat.length_toDigits_le_iff (by decide) (by omega)] at hi ⊢
        rw [Nat.pow_succ] at hi
        omega
      rw [padded_succ (Nat.succ_pos k) m, padded_succ (Nat.succ_pos k) n]
      rcases Nat.lt_or_eq_of_le (Nat.div_le_div_right (c := 10) (Nat.le_of_lt hlt)) with hdiv | hdiv
      · apply append_lt_append
        · rw [length_padded (hshorter hm), length_padded (hshorter hn)]
        · exact ih hdiv (hshorter hm) (hshorter hn)
      · rw [hdiv]
        apply List.append_left_lt
        rw [List.cons_lt_cons_iff]
        have hmod : m % 10 < n % 10 := by omega
        exact .inl (digitChar_lt_digitChar _ (Nat.mod_lt n (by decide)) _ hmod)

theorem length_toDigits_le {n : Nat} (h : n ≤ ceiling) : (Nat.toDigits 10 n).length ≤ 3 + 1 := by
  rw [Nat.length_toDigits_le_iff (by decide) (by decide)]
  exact Nat.lt_of_le_of_lt h (by decide)

theorem sortKey_lt {high low : Nat} (hlt : low < high) (hhigh : high ≤ ceiling)
    (label label' : String) : sortKey high label < sortKey low label' := by
  rw [String.lt_iff, sortKey, sortKey, String.toList_append, String.toList_append,
    String.toList_ofList, String.toList_ofList, fourDigits_eq_padded, fourDigits_eq_padded]
  have hhighDigits := length_toDigits_le (Nat.sub_le ceiling high)
  have hlowDigits := length_toDigits_le (Nat.sub_le ceiling low)
  apply append_lt_append
  · rw [length_padded hhighDigits, length_padded hlowDigits]
  · exact padded_lt_padded (by omega) hhighDigits hlowDigits

/-- Within the ceiling, keys are in the order of the scores, the highest first, and then of the
labels. -/
theorem sortKey_lt_iff {s s' : Nat} (hs : s ≤ ceiling) (hs' : s' ≤ ceiling)
    {label label' : String} :
    sortKey s label < sortKey s' label' ↔ s' < s ∨ s = s' ∧ label < label' := by
  have hsame : ∀ {label label' : String}, label < label' → sortKey s label < sortKey s label' := by
    intro label label' hlt
    rw [String.lt_iff, sortKey, sortKey, String.toList_append, String.toList_append]
    exact List.append_left_lt (String.lt_iff.1 hlt)
  constructor
  · intro h
    rcases Nat.lt_trichotomy s s' with hlt | rfl | hgt
    · exact absurd h (String.lt_asymm (sortKey_lt hlt hs' label' label))
    · refine .inr ⟨rfl, ?_⟩
      rcases Std.lt_trichotomy label label' with hlt | rfl | hgt
      · exact hlt
      · exact absurd h (String.lt_irrefl _)
      · exact absurd h (String.lt_asymm (hsame hgt))
    · exact .inl hgt
  · rintro (hlt | ⟨rfl, hlt⟩)
    · exact sortKey_lt hlt hs label label'
    · exact hsame hlt

theorem sortKey_inj {s s' : Nat} (hs : s ≤ ceiling) (hs' : s' ≤ ceiling) {label label' : String}
    (h : sortKey s label = sortKey s' label') : s = s' ∧ label = label' := by
  have hle : ¬ (s' < s ∨ s = s' ∧ label < label') := by
    rw [← sortKey_lt_iff hs hs', h]
    exact String.lt_irrefl _
  have hge : ¬ (s < s' ∨ s' = s ∧ label' < label) := by
    rw [← sortKey_lt_iff hs' hs, h]
    exact String.lt_irrefl _
  have hscore : s = s' := by omega
  refine ⟨hscore, String.le_antisymm ?_ ?_⟩
  · exact String.not_lt.1 fun hlt => hge (.inr ⟨hscore.symm, hlt⟩)
  · exact String.not_lt.1 fun hlt => hle (.inr ⟨hscore, hlt⟩)

/-- What all bonuses together can add to the boost of an offer. -/
def bonusLimit : Nat := 205

theorem matchBonus_le (label typed : Text) : matchBonus label typed ≤ 100 := by
  rw [matchBonus]
  split
  · exact Nat.le_refl 100
  · split <;> decide

theorem recencyBonus_le (age : Nat) : recencyBonus age ≤ 30 := by
  rw [recencyBonus]
  split
  · exact Nat.le_refl 30
  · split
    · decide
    · split <;> decide

theorem usageBonus_le (basis : RankBasis) (label : String) : usageBonus basis label ≤ 80 := by
  rw [usageBonus]
  split
  · next r _ =>
      have hrecency := recencyBonus_le (basis.now - r.lastUsed).toNat
      omega
  · exact Nat.zero_le 80

theorem mentionBonus_le (basis : RankBasis) (detail : Option String) :
    mentionBonus basis detail ≤ 25 := by
  unfold mentionBonus
  split
  · split <;> decide
  · exact Nat.zero_le 25

theorem boost_le_score (basis : RankBasis) (offer : Offer) : offer.boost ≤ score basis offer := by
  rw [score]
  omega

theorem score_le (basis : RankBasis) (offer : Offer) :
    score basis offer ≤ offer.boost + bonusLimit := by
  have hmatch := matchBonus_le (lowered offer.label) (Text.lower basis.typed)
  have husage := usageBonus_le basis offer.label
  have hmention := mentionBonus_le basis offer.detail
  rw [score, bonusLimit]
  omega

/-- The largest boost that leaves room for all bonuses is 795. -/
theorem score_le_ceiling (basis : RankBasis) {offer : Offer} (h : offer.boost ≤ 795) :
    score basis offer ≤ ceiling :=
  Nat.le_trans (score_le basis offer) (Nat.add_le_add_right h bonusLimit)

def notBehind (a b : Offer) : Bool :=
  a.sortKey ≤ b.sortKey

theorem notBehind_trans (a b c : Offer) (hab : notBehind a b = true) (hbc : notBehind b c = true) :
    notBehind a c = true :=
  decide_eq_true (String.le_trans (of_decide_eq_true hab) (of_decide_eq_true hbc))

theorem notBehind_total (a b : Offer) : (notBehind a b || notBehind b a) = true := by
  rw [Bool.or_eq_true, notBehind, notBehind, decide_eq_true_iff, decide_eq_true_iff]
  exact String.le_total a.sortKey b.sortKey

end Rank

theorem rank_perm (basis : RankBasis) (offers : List Offer) :
    (rank basis offers).Perm (offers.map (Rank.scored basis)) :=
  List.mergeSort_perm _ _

theorem rank_pairwise (basis : RankBasis) (offers : List Offer) :
    (rank basis offers).Pairwise fun a b => a.sortKey ≤ b.sortKey :=
  (List.pairwise_mergeSort Rank.notBehind_trans Rank.notBehind_total _).imp of_decide_eq_true

theorem exists_of_mem_rank {basis : RankBasis} {offers : List Offer} {o : Offer}
    (h : o ∈ rank basis offers) : ∃ offer ∈ offers, o = Rank.scored basis offer := by
  obtain ⟨offer, hoffer, rfl⟩ := List.mem_map.1 ((rank_perm basis offers).mem_iff.1 h)
  exact ⟨offer, hoffer, rfl⟩

theorem rankChecked_eq_ok {basis : RankBasis} {offers : List Offer}
    (hscores : ∀ o ∈ offers, Rank.score basis o ≤ Rank.ceiling) :
    rankChecked basis offers = .ok (rank basis offers) := by
  rw [rankChecked, if_pos]
  rw [List.all_eq_true]
  intro o ho
  exact decide_eq_true (Nat.lt_of_le_of_lt (hscores o ho) (by decide))

/-- What has the higher score comes first. -/
theorem rank_pairwise_score {basis : RankBasis} {offers : List Offer}
    (hscores : ∀ o ∈ offers, Rank.score basis o ≤ Rank.ceiling) :
    (rank basis offers).Pairwise fun a b => b.score ≤ a.score := by
  refine (rank_pairwise basis offers).imp_of_mem ?_
  intro a b ha hb hle
  obtain ⟨o, -, rfl⟩ := exists_of_mem_rank ha
  obtain ⟨o', ho', rfl⟩ := exists_of_mem_rank hb
  apply Nat.le_of_not_lt
  intro hlt
  exact absurd (Rank.sortKey_lt hlt (hscores o' ho') o'.label o.label) (String.not_lt.2 hle)

/-- A list in which nothing with a property stands behind something without it. -/
theorem filter_append_filter_not {α : Type} {p : α → Bool} {l : List α}
    (h : l.Pairwise fun a b => p b = true → p a = true) :
    l.filter p ++ (l.filter fun a => !p a) = l := by
  induction h with
  | nil => rfl
  | @cons a l hall _ ih =>
      cases hp : p a with
      | true => simpa [hp] using ih
      | false =>
          have hnone : ∀ b ∈ l, p b = false := by
            intro b hb
            rw [Bool.eq_false_iff]
            intro hpb
            rw [hall b hb hpb] at hp
            cases hp
          have hfront : l.filter p = [] := List.filter_eq_nil_iff.2 (by simpa using hnone)
          have hback : (l.filter fun b => !p b) = l := List.filter_eq_self.2 (by simpa using hnone)
          simp [hp, hfront, hback]

theorem exists_append_of_perm {α : Type} {p : α → Bool} {l a b : List α}
    (h : l.Pairwise fun x y => p y = true → p x = true) (hperm : l.Perm (a ++ b))
    (ha : ∀ x ∈ a, p x = true) (hb : ∀ x ∈ b, p x = false) :
    ∃ front back, l = front ++ back ∧ front.Perm a ∧ back.Perm b := by
  refine ⟨l.filter p, l.filter fun x => !p x, (filter_append_filter_not h).symm, ?_, ?_⟩
  · have hfront : (a ++ b).filter p = a := by
      rw [List.filter_append, List.filter_eq_self.2 ha,
        List.filter_eq_nil_iff.2 (by simpa using hb), List.append_nil]
    exact hfront ▸ hperm.filter p
  · have hback : ((a ++ b).filter fun x => !p x) = b := by
      rw [List.filter_append, List.filter_eq_nil_iff.2 (by simpa using ha),
        List.filter_eq_self.2 (by simpa using hb), List.nil_append]
    exact hback ▸ hperm.filter fun x => !p x

/-- Offers that reach a score come before those that do not. -/
theorem exists_rank_append {basis : RankBasis} {reaching failing : List Offer} {least : Nat}
    (hreaching : ∀ o ∈ reaching, least ≤ Rank.score basis o ∧ Rank.score basis o ≤ Rank.ceiling)
    (hfailing : ∀ o ∈ failing, Rank.score basis o < least)
    (hleast : least ≤ Rank.ceiling) :
    ∃ front back, rank basis (reaching ++ failing) = front ++ back ∧
      front.Perm (reaching.map (Rank.scored basis)) ∧
      back.Perm (failing.map (Rank.scored basis)) := by
  have hscores : ∀ o ∈ reaching ++ failing, Rank.score basis o ≤ Rank.ceiling := by
    intro o ho
    rcases List.mem_append.1 ho with ho | ho
    · exact (hreaching o ho).2
    · exact Nat.le_trans (Nat.le_of_lt (hfailing o ho)) hleast
  have hperm := rank_perm basis (reaching ++ failing)
  rw [List.map_append] at hperm
  apply exists_append_of_perm (p := fun o => decide (least ≤ o.score)) _ hperm
  · rw [List.forall_mem_map]
    exact fun o ho => decide_eq_true (hreaching o ho).1
  · rw [List.forall_mem_map]
    exact fun o ho => decide_eq_false (Nat.not_le.2 (hfailing o ho))
  · refine (rank_pairwise_score hscores).imp fun hle h => ?_
    exact decide_eq_true (Nat.le_trans (of_decide_eq_true h) hle)

end ProcedureIndex
