import Mathlib.Data.List.Induction
import Mathlib.Data.List.Nodup
import ProcedureIndex.Completion.Habits
import ProcedureIndex.Proofs.Symbol.Groups

/-!
Habits are told by a log. What is known of a name, the history and both lists of
favourites follow from the acceptances since the habits were last cleared, whatever the
order of their moments and however small the capacity; the order in which the records are
kept plays no part.
-/

namespace ProcedureIndex

structure Acceptance where
  name : String
  context : String
  moment : Moment

namespace Acceptance

def under (name : String) (log : List Acceptance) : List Acceptance :=
  log.filter (·.name = name)

theorem under_concat (name : String) (log : List Acceptance) (a : Acceptance) :
    under name (log ++ [a]) = if a.name = name then under name log ++ [a] else under name log := by
  rw [under, List.filter_append, ← under]
  split
  · next h => rw [List.filter_cons_of_pos (by simpa using h), List.filter_nil]
  · next h => rw [List.filter_cons_of_neg (by simpa using h), List.filter_nil, List.append_nil]

/-- How often a name was accepted, as far as can be counted. -/
def frequency (log : List Acceptance) (name : String) : Nat :=
  min (under name log).length frequencyCap

def lastUse (log : List Acceptance) (name : String) : Option Moment :=
  ((under name log).map moment).max?

/-- The contexts in which a name was accepted, in the order of their first use. -/
def contexts (log : List Acceptance) (name : String) : List String :=
  ((under name log).map context).eraseDups

/-- More frequent before less, then later before earlier, then by name. -/
def Precedes (log : List Acceptance) (a b : String) : Prop :=
  frequency log b < frequency log a ∨
    frequency log a = frequency log b ∧
      (lastUse log b < lastUse log a ∨ lastUse log a = lastUse log b ∧ a < b)

/-- What acceptances of one name say of it. -/
def habit? (log : List Acceptance) : Option Habit :=
  (log.map moment).max?.map fun last =>
    { frequency := min log.length frequencyCap
      lastUsed := last
      contexts := (log.map context).eraseDups }

theorem habit?_cases (log : List Acceptance) :
    log = [] ∧ habit? log = none ∨
      ∃ last, (log.map moment).max? = some last ∧
        habit? log = some ⟨min log.length frequencyCap, last, (log.map context).eraseDups⟩ := by
  cases hmax : (log.map moment).max? with
  | none =>
      have hnil : log = [] := List.map_eq_nil_iff.1 (List.max?_eq_none_iff.1 hmax)
      exact .inl ⟨hnil, by rw [hnil]; rfl⟩
  | some last => exact .inr ⟨last, rfl, by rw [habit?, hmax]; rfl⟩

theorem max?_concat (ms : List Moment) (m : Moment) :
    (ms ++ [m]).max? = some (max (ms.max?.getD m) m) := by
  cases ms with
  | nil => exact congrArg some (Int.max_self m).symm
  | cons a ms =>
      rw [List.cons_append, List.max?_cons', List.max?_cons', List.foldl_append]
      rfl

theorem habit?_concat (log : List Acceptance) (a : Acceptance) :
    habit? (log ++ [a]) =
      some (((habit? log).getD ⟨0, a.moment, []⟩).accept a.context a.moment) := by
  have hcontexts : (log.map context ++ [a.context]).eraseDups =
      if (log.map context).eraseDups.contains a.context then (log.map context).eraseDups
      else (log.map context).eraseDups ++ [a.context] := by
    rw [Grouping.eraseDups_concat]
    simp
  rcases habit?_cases log with ⟨hnil, -⟩ | ⟨last, hmax, hhabit⟩
  · simp [hnil, habit?, Habit.accept, List.eraseDups_cons]
  · rw [hhabit]
    simp only [habit?, List.map_append, List.map_singleton, max?_concat, hcontexts, hmax,
      Option.map_some, Option.getD_some, Habit.accept, List.length_append, List.length_singleton]
    congr 2
    omega

end Acceptance

namespace Habits

open Acceptance

inductive Event where
  | accepted (a : Acceptance)
  | cleared

def step (h : Habits) : Event → Habits
  | .accepted a => h.record a.name a.context a.moment
  | .cleared => h.clear

def after (capacity : Nat) (es : List Event) : Habits :=
  es.foldl step { capacity := capacity }

/-- The acceptances since the habits were last cleared, oldest first. -/
def log (es : List Event) : List Acceptance :=
  es.foldl (fun log e =>
    match e with
    | .accepted a => log ++ [a]
    | .cleared => []) []

section Records

variable (name context : String) (moment : Moment)

theorem lookup_acceptIn_self (records : List (String × Habit)) :
    (acceptIn name context moment records).lookup name =
      some (((records.lookup name).getD ⟨0, moment, []⟩).accept context moment) := by
  induction records with
  | nil => simp [acceptIn]
  | cons b rest ih =>
      obtain ⟨n, r⟩ := b
      by_cases h : n = name
      · simp [acceptIn, h]
      · have hne : (name == n) = false := by simpa using Ne.symm h
        simp [acceptIn, h, List.lookup_cons, hne, ih]

theorem lookup_acceptIn_of_ne {other : String} (h : other ≠ name)
    (records : List (String × Habit)) :
    (acceptIn name context moment records).lookup other = records.lookup other := by
  have hne : (other == name) = false := by simpa using h
  induction records with
  | nil => simp [acceptIn, List.lookup_cons, hne]
  | cons b rest ih =>
      obtain ⟨n, r⟩ := b
      by_cases hn : n = name
      · simp [acceptIn, hn, List.lookup_cons, hne]
      · simp [acceptIn, hn, List.lookup_cons, ih]

theorem names_acceptIn (records : List (String × Habit)) :
    (acceptIn name context moment records).map Prod.fst =
      if name ∈ records.map Prod.fst then records.map Prod.fst
      else records.map Prod.fst ++ [name] := by
  induction records with
  | nil => simp [acceptIn]
  | cons b rest ih =>
      obtain ⟨n, r⟩ := b
      by_cases h : n = name
      · simp [acceptIn, h]
      · have hmem : name ∈ n :: rest.map Prod.fst ↔ name ∈ rest.map Prod.fst := by
          rw [List.mem_cons, or_iff_right (Ne.symm h)]
        rw [acceptIn, if_neg h, List.map_cons, ih, List.map_cons]
        simp only [hmem]
        split <;> rfl

end Records

/-- What habits hold after a log: what the log says of every name, the names in the order of their
first use, and the end of the log as the history. -/
structure Reflects (h : Habits) (log : List Acceptance) : Prop where
  habit : ∀ name, h.habit? name = Acceptance.habit? (under name log)
  names : h.records.map Prod.fst = (log.map Acceptance.name).eraseDups
  history : h.history = (log.map Acceptance.name).drop (log.length - h.capacity)

namespace Reflects

variable {h : Habits} {log : List Acceptance}

theorem record (hr : h.Reflects log) (a : Acceptance) :
    (h.record a.name a.context a.moment).Reflects (log ++ [a]) where
  habit name := by
    rw [habit?, Habits.record, under_concat]
    split
    · next hname =>
        have hlog := hr.habit name
        rw [habit?] at hlog
        rw [hname, lookup_acceptIn_self, hlog, habit?_concat]
    · next hname => rw [lookup_acceptIn_of_ne _ _ _ (Ne.symm hname), ← hr.habit name, habit?]
  names := by
    rw [Habits.record, names_acceptIn, hr.names, List.map_append, List.map_singleton,
      Grouping.eraseDups_concat]
    simp only [List.mem_eraseDups]
  history := by
    have hlength : h.history.length = log.length - (log.length - h.capacity) := by
      rw [hr.history, List.length_drop, List.length_map]
    simp only [Habits.record, remember, List.map_append, List.map_singleton, List.length_append,
      List.length_singleton]
    split
    · next hzero =>
        rw [hr.history, hzero, List.drop_of_length_le (by simp), List.drop_of_length_le (by simp)]
    · next hpos =>
        have hdrop : log.length - h.capacity + (h.history.length + 1 - h.capacity) =
            log.length + 1 - h.capacity := by omega
        rw [List.drop_append_of_le_length (by rw [List.length_map]; omega), ← hdrop,
          ← List.drop_drop, ← hr.history]

theorem clear (h : Habits) : h.clear.Reflects [] :=
  ⟨fun _ => rfl, rfl, List.drop_nil.symm⟩

theorem step (hr : h.Reflects log) (e : Event) :
    (h.step e).Reflects (match e with | .accepted a => log ++ [a] | .cleared => []) := by
  cases e with
  | accepted a => exact hr.record a
  | cleared => exact clear h

end Reflects

@[simp] theorem capacity_after (capacity : Nat) (es : List Event) :
    (after capacity es).capacity = capacity := by
  induction es using List.reverseRecOn with
  | nil => rfl
  | append_singleton es e ih =>
      rw [after, List.foldl_append]
      cases e <;> exact ih

theorem reflects_after (capacity : Nat) (es : List Event) :
    (after capacity es).Reflects (log es) := by
  induction es using List.reverseRecOn with
  | nil => exact Reflects.clear { capacity := capacity }
  | append_singleton es e ih =>
      rw [after, log, List.foldl_append, List.foldl_append]
      exact ih.step e

theorem usedMore_iff {a b : String × Habit} :
    usedMore a b = true ↔ b.2.frequency < a.2.frequency ∨
      a.2.frequency = b.2.frequency ∧
        (b.2.lastUsed < a.2.lastUsed ∨ a.2.lastUsed = b.2.lastUsed ∧ a.1 ≤ b.1) := by
  rw [usedMore]
  split
  · next h => simp [h]
  · next h =>
      rw [not_not] at h
      split
      · next h' => simp [h, h']
      · next h' =>
          rw [not_not] at h'
          simp [h, h']

theorem usedMore_trans (a b c : String × Habit) (hab : usedMore a b = true)
    (hbc : usedMore b c = true) : usedMore a c = true := by
  rw [usedMore_iff] at hab hbc ⊢
  rcases hab with hab | ⟨hfreq, hab⟩
  · exact .inl (by omega)
  · rcases hbc with hbc | ⟨hfreq', hbc⟩
    · exact .inl (by omega)
    · refine .inr ⟨hfreq.trans hfreq', ?_⟩
      rcases hab with hab | ⟨hlast, hab⟩
      · rcases hbc with hbc | ⟨hlast', -⟩
        · exact .inl (Int.lt_trans hbc hab)
        · exact .inl (hlast' ▸ hab)
      · rcases hbc with hbc | ⟨hlast', hbc⟩
        · exact .inl (hlast ▸ hbc)
        · exact .inr ⟨hlast.trans hlast', String.le_trans hab hbc⟩

theorem usedMore_total (a b : String × Habit) : (usedMore a b || usedMore b a) = true := by
  rw [Bool.or_eq_true, usedMore_iff, usedMore_iff]
  rcases Nat.lt_trichotomy a.2.frequency b.2.frequency with hfreq | hfreq | hfreq
  · exact .inr (.inl hfreq)
  · rcases Int.lt_trichotomy a.2.lastUsed b.2.lastUsed with hlast | hlast | hlast
    · exact .inr (.inr ⟨hfreq.symm, .inl hlast⟩)
    · rcases String.le_total a.1 b.1 with hname | hname
      · exact .inl (.inr ⟨hfreq, .inr ⟨hlast, hname⟩⟩)
      · exact .inr (.inr ⟨hfreq.symm, .inr ⟨hlast.symm, hname⟩⟩)
    · exact .inl (.inr ⟨hfreq, .inl hlast⟩)
  · exact .inl (.inl hfreq)

theorem fst_eq_of_usedMore {a b : String × Habit} (hab : usedMore a b = true)
    (hba : usedMore b a = true) : a.1 = b.1 := by
  rw [usedMore_iff] at hab hba
  rcases hab with hab | ⟨hfreq, hab⟩
  · rcases hba with hba | ⟨hba, -⟩ <;> omega
  · rcases hba with hba | ⟨-, hba⟩
    · omega
    · rcases hab with hab | ⟨hlast, hab⟩
      · rcases hba with hba | ⟨hlast, -⟩
        · exact absurd hab (Int.lt_asymm hba)
        · exact absurd hab (hlast ▸ Int.lt_irrefl _)
      · rcases hba with hba | ⟨-, hba⟩
        · exact absurd hba (hlast ▸ Int.lt_irrefl _)
        · exact String.le_antisymm hab hba

namespace Reflects

variable {h : Habits} {log : List Acceptance}

theorem nodup_names (hr : h.Reflects log) : (h.records.map Prod.fst).Nodup := by
  rw [hr.names]
  exact nodup_eraseDups _

/-- A record holds what the log says of its name. -/
theorem of_mem (hr : h.Reflects log) {r : String × Habit} (hmem : r ∈ h.records) :
    r.2.frequency = Acceptance.frequency log r.1 ∧ some r.2.lastUsed = lastUse log r.1 := by
  have hfound : h.habit? r.1 = some r.2 := by
    obtain ⟨front, back, hsplit⟩ := List.append_of_mem hmem
    refine List.lookup_eq_some_iff.2 ⟨front, back, hsplit, ?_⟩
    intro e he
    have hnodup := hr.nodup_names
    rw [hsplit, List.map_append, List.nodup_append] at hnodup
    simpa using (hnodup.2.2 e.1 (List.mem_map_of_mem he) r.1 (by simp)).symm
  rw [hr.habit, Acceptance.habit?, Option.map_eq_some_iff] at hfound
  obtain ⟨last, hlast, heq⟩ := hfound
  rw [← heq]
  exact ⟨rfl, hlast.symm⟩

theorem precedes (hr : h.Reflects log) {a b : String × Habit} (ha : a ∈ h.records)
    (hb : b ∈ h.records) (hne : a.1 ≠ b.1) (hab : usedMore a b = true) :
    Precedes log a.1 b.1 := by
  obtain ⟨hfreqA, hlastA⟩ := hr.of_mem ha
  obtain ⟨hfreqB, hlastB⟩ := hr.of_mem hb
  rw [Precedes, ← hfreqA, ← hfreqB, ← hlastA, ← hlastB, Option.some_lt_some, Option.some_inj]
  rcases usedMore_iff.1 hab with hfreq | ⟨hfreq, hlast | ⟨hlast, hname⟩⟩
  · exact .inl hfreq
  · exact .inr ⟨hfreq, .inl hlast⟩
  · exact .inr ⟨hfreq, .inr ⟨hlast, Std.lt_of_le_of_ne hname hne⟩⟩

/-- Sorting the records in whatever order they are kept gives one ranking of the names. -/
theorem exists_ranking (hr : h.Reflects log) :
    ∃ ranking : List String, ranking.Perm (log.map Acceptance.name).eraseDups ∧
      ranking.Pairwise (Precedes log) ∧
      ∀ records, records.Perm h.records → ∀ limit,
        { h with records := records }.mostFrequent limit = ranking.take limit := by
  have hsorted := List.pairwise_mergeSort usedMore_trans usedMore_total
  have hperm := List.mergeSort_perm h.records usedMore
  refine ⟨(h.records.mergeSort usedMore).map Prod.fst, hr.names ▸ hperm.map Prod.fst, ?_, ?_⟩
  · have hnames : ((h.records.mergeSort usedMore).map Prod.fst).Nodup :=
      (hperm.map Prod.fst).nodup_iff.2 hr.nodup_names
    rw [List.Nodup, List.pairwise_map] at hnames
    rw [List.pairwise_map]
    refine ((hsorted h.records).and hnames).imp_of_mem ?_
    rintro a b ha hb ⟨hab, hne⟩
    exact hr.precedes (hperm.mem_iff.1 ha) (hperm.mem_iff.1 hb) hne hab
  · intro records hrecords limit
    have hsame : records.mergeSort usedMore = h.records.mergeSort usedMore := by
      refine List.Perm.eq_of_pairwise ?_ (hsorted records) (hsorted h.records)
        ((List.mergeSort_perm records usedMore).trans (hrecords.trans hperm.symm))
      intro a b ha hb hab hba
      have ha : a ∈ h.records :=
        hrecords.mem_iff.1 ((List.mergeSort_perm records usedMore).mem_iff.1 ha)
      exact List.inj_on_of_nodup_map hr.nodup_names ha (hperm.mem_iff.1 hb)
        (fst_eq_of_usedMore hab hba)
    rw [mostFrequent, hsame, List.map_take]

end Reflects

/-- Habits with room for a history of some length whose answers are those of a log. -/
structure Follows (h : Habits) (capacity : Nat) (log : List Acceptance) : Prop where
  frequency : ∀ name, h.frequency name = Acceptance.frequency log name
  lastUsed : ∀ name, h.lastUsed? name = Acceptance.lastUse log name
  contexts : ∀ name, ((h.habit? name).map Habit.contexts).getD [] = Acceptance.contexts log name
  history : h.history = (log.map Acceptance.name).drop (log.length - capacity)
  mostFrequent : ∃ ranking : List String, ranking.Perm (log.map Acceptance.name).eraseDups ∧
    ranking.Pairwise (Precedes log) ∧
    ∀ records, records.Perm h.records → ∀ limit,
      { h with records := records }.mostFrequent limit = ranking.take limit
  recent : ∀ limit, h.recent limit =
    ((log.map Acceptance.name).reverse.take capacity).eraseDups.take limit

/-- Habits are a function of the acceptances since they were last cleared. -/
theorem habits_follow_log (capacity : Nat) (es : List Event) :
    (after capacity es).Follows capacity (log es) := by
  have hr := reflects_after capacity es
  have hhistory := hr.history
  rw [capacity_after] at hhistory
  refine ⟨?_, ?_, ?_, hhistory, hr.exists_ranking, ?_⟩
  · intro name
    rw [Habits.frequency, hr.habit, Acceptance.frequency]
    rcases habit?_cases (under name (log es)) with ⟨hnil, -⟩ | ⟨last, -, hhabit⟩
    · rw [hnil]
      rfl
    · rw [hhabit]
      rfl
  · intro name
    rw [Habits.lastUsed?, hr.habit, lastUse]
    rcases habit?_cases (under name (log es)) with ⟨hnil, -⟩ | ⟨last, hmax, hhabit⟩
    · rw [hnil]
      rfl
    · rw [hhabit, hmax]
      rfl
  · intro name
    rw [hr.habit, Acceptance.contexts]
    rcases habit?_cases (under name (log es)) with ⟨hnil, -⟩ | ⟨last, -, hhabit⟩
    · rw [hnil]
      rfl
    · rw [hhabit]
      rfl
  · intro limit
    have hmin : (log es).length - ((log es).length - capacity) =
        min (log es).length capacity := by omega
    have hnewest : ((log es).map Acceptance.name).reverse.take (min (log es).length capacity) =
        ((log es).map Acceptance.name).reverse.take capacity := by
      rw [← List.take_take]
      exact List.take_of_length_le (Nat.le_trans (List.length_take_le' _ _) (by simp))
    rw [Habits.recent, hhistory, List.reverse_drop, List.length_map, hmin, hnewest]

end Habits
end ProcedureIndex
