import ProcedureIndex.Completion.Complete
import ProcedureIndex.Proofs.Navigation.SingleTable

/-!
The names used last and the names used most. The habits are asked for a limited number of names,
and those that are not declared are left out afterwards, so a name that is no longer declared, or
that never was because it is a keyword, takes the place of one that is.
-/

namespace ProcedureIndex

/-- Leaving out before counting and counting before leaving out come to the same if and only if
nothing is left out of what is counted, or nothing would come in its place. -/
theorem filter_take_eq_take_filter_iff {α : Type} {p : α → Bool} {l : List α} {n : Nat} :
    (l.take n).filter p = (l.filter p).take n ↔
      (∀ a ∈ l.take n, p a = true) ∨ ∀ a ∈ l.drop n, p a = false := by
  have hlength := List.length_filter_le p (l.take n)
  rw [List.length_take] at hlength
  have htake : (l.filter p).take n =
      (l.take n).filter p ++ ((l.drop n).filter p).take (n - ((l.take n).filter p).length) := by
    conv => lhs; rw [← List.take_append_drop n l]
    rw [List.filter_append, List.take_append, List.take_of_length_le (by omega)]
  rw [htake, List.self_eq_append_right, List.take_eq_nil_iff, List.filter_eq_nil_iff]
  simp only [Bool.not_eq_true]
  constructor
  · intro h
    cases h with
    | inl hfull =>
        refine .inl (List.length_filter_eq_length_iff.1 ?_)
        rw [List.length_take]
        omega
    | inr hnone => exact .inr hnone
  · intro h
    cases h with
    | inl hall =>
        have hsame := List.length_filter_eq_length_iff.2 hall
        rw [List.length_take] at hsame
        by_cases hlong : n ≤ l.length
        · exact .inl (by omega)
        · rw [List.drop_of_length_le (by omega)]
          exact .inr fun a ha => absurd ha List.not_mem_nil
    | inr hnone => exact .inr hnone

namespace Habits

/-- The names of the history, newest first and each once. -/
def newestFirst (h : Habits) : List String :=
  h.history.reverse.eraseDups

def mostUsedFirst (h : Habits) : List String :=
  (h.records.mergeSort usedMore).map Prod.fst

theorem mostFrequent_eq_take (h : Habits) (limit : Nat) :
    h.mostFrequent limit = h.mostUsedFirst.take limit :=
  List.map_take

end Habits

def Snapshot.declares (w : Snapshot) (name : String) : Bool :=
  w.symbols.any fun s => s.name = name

namespace Generator

variable {w : Snapshot}

/-- A name is offered under itself if it is declared, and not at all otherwise. -/
theorem label_groupOffer?_named (hw : w.Collected) (name : String) :
    (groupOffer? (w.named name)).map Offer.label = Option.guard (fun n => w.declares n) name := by
  rw [hw.named_eq]
  cases hgroup : w.symbols.filter fun s => decide (s.name = name) with
  | nil =>
      have hnone : w.declares name = false := by
        rw [Snapshot.declares, List.any_eq_false]
        exact List.filter_eq_nil_iff.1 hgroup
      rw [Option.guard, hnone]
      rfl
  | cons s rest =>
      have hs : s ∈ w.symbols.filter fun s => decide (s.name = name) := by
        rw [hgroup]
        exact List.mem_cons_self
      obtain ⟨hmem, hname⟩ := List.mem_filter.1 hs
      have hsome : w.declares name = true := List.any_eq_true.2 ⟨s, hmem, hname⟩
      rw [Option.guard, hsome, ← of_decide_eq_true hname]
      rfl

theorem labels_declaredAmong (hw : w.Collected) (names : List String) (rationale : String) :
    (declaredAmong w names rationale).map (fun p => p.offer.label) = names.filter w.declares := by
  rw [declaredAmong, List.map_map, List.map_filterMap, ← List.filterMap_eq_filter]
  congr 1
  funext name
  exact label_groupOffer?_named hw name

end Generator

/-- What is proposed from the habits are the declared ones among the first so many names. These are
the first so many declared names if and only if all of the first names are declared or no later name
is; otherwise a name that is not declared costs a place. -/
theorem usage_suggestions_keep_slots_iff (here : Situation) (hw : here.snapshot.Collected) :
    let declares := here.snapshot.declares
    let newest := here.habits.newestFirst
    let used := here.habits.mostUsedFirst
    let recent := (Generator.recent.generate here).map fun p => p.offer.label
    let frequent := (Generator.frequent.generate here).map fun p => p.offer.label
    recent = (newest.take here.config.recencyLimit).filter declares ∧
    frequent = (used.take here.config.frequentLimit).filter declares ∧
    (recent = (newest.filter declares).take here.config.recencyLimit ↔
      (∀ name ∈ newest.take here.config.recencyLimit, declares name = true) ∨
        ∀ name ∈ newest.drop here.config.recencyLimit, declares name = false) ∧
    (frequent = (used.filter declares).take here.config.frequentLimit ↔
      (∀ name ∈ used.take here.config.frequentLimit, declares name = true) ∨
        ∀ name ∈ used.drop here.config.frequentLimit, declares name = false) := by
  intro declares newest used recent frequent
  have hrecent : recent = (newest.take here.config.recencyLimit).filter declares :=
    Generator.labels_declaredAmong hw _ _
  have hfrequent : frequent = (used.take here.config.frequentLimit).filter declares := by
    rw [← Habits.mostFrequent_eq_take]
    exact Generator.labels_declaredAmong hw _ _
  refine ⟨hrecent, hfrequent, ?_, ?_⟩
  · rw [hrecent]
    exact filter_take_eq_take_filter_iff
  · rw [hfrequent]
    exact filter_take_eq_take_filter_iff

def keywordAccepted : Situation :=
  Completion.situation
    (Workspace.ofFiles [(⟨"/a.method"⟩, ⟨1⟩, "fn alpha() \x7b\x7d\n".toList)]).snapshot
    (((({} : Habits).record "let" "keyword" 0).record "alpha" "call" 1000).record "let" "keyword"
      2000)
    { recencyLimit := 1, frequentLimit := 1 } ⟨⟨1⟩, "x;".toList, []⟩

theorem usage_suggestions_keep_slots_iff_keywordAccepted :
    keywordAccepted.snapshot.Collected ∧
    Generator.recent.applies keywordAccepted.context = true ∧
    Generator.frequent.applies keywordAccepted.context = true ∧
    (Generator.recent.generate keywordAccepted).map (fun p => p.offer.label) ≠
      (keywordAccepted.habits.newestFirst.filter keywordAccepted.snapshot.declares).take 1 ∧
    (Generator.frequent.generate keywordAccepted).map (fun p => p.offer.label) ≠
      (keywordAccepted.habits.mostUsedFirst.filter keywordAccepted.snapshot.declares).take 1 := by
  have hcollected : keywordAccepted.snapshot.Collected := Snapshot.collected_ofFiles _
  have hnewest : keywordAccepted.habits.newestFirst = ["let", "alpha"] := by decide
  have hused : keywordAccepted.habits.mostUsedFirst = ["let", "alpha"] := by
    rw [Habits.mostUsedFirst, List.mergeSort_of_pairwise (by decide)]
    decide
  have hlet : keywordAccepted.snapshot.declares "let" = false := by decide +kernel
  have halpha : keywordAccepted.snapshot.declares "alpha" = true := by decide +kernel
  have hlost : ∀ {names : List String}, names = ["let", "alpha"] →
      ¬ ((∀ name ∈ names.take 1, keywordAccepted.snapshot.declares name = true) ∨
        ∀ name ∈ names.drop 1, keywordAccepted.snapshot.declares name = false) := by
    rintro _ rfl
    simp [hlet, halpha]
  obtain ⟨-, -, hrecent, hfrequent⟩ := usage_suggestions_keep_slots_iff keywordAccepted hcollected
  refine ⟨hcollected, by decide +kernel, by decide +kernel, ?_, ?_⟩
  · exact mt hrecent.1 (hlost hnewest)
  · exact mt hfrequent.1 (hlost hused)

end ProcedureIndex
