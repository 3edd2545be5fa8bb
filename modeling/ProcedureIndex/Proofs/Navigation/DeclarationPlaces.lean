import Mathlib.Data.List.Nodup
import ProcedureIndex.Proofs.Navigation.ReferenceSearch
import ProcedureIndex.Proofs.Symbol.Groups

/-!
Uses with and without declarations. A declared place is passed over by the search, so
reporting declarations adds one entry for each declared place and leaves the uses as they
are; and whatever the name is, even none at all, every use leads back to a place of the text
where the name stands.
-/

namespace ProcedureIndex

open Text

namespace Reference

section Lines

variable {name line cs : Text} {prev : Option Char}

theorem split_of_nameAt {edgeBefore edgeAfter : Bool} {r : Unit × Text}
    (h : nameAt name edgeBefore edgeAfter prev cs = some r) : cs = name ++ r.2 := by
  simp only [nameAt, bind, Option.bind_eq_some_iff, after?_eq_some_iff] at h
  obtain ⟨rest, rfl, hr⟩ := h
  split at hr
  · cases hr
    rfl
  · cases hr

theorem split_of_markedPattern {mark rest : Text} {edge : Bool} {n : Nat}
    (h : markedPattern mark edge name prev cs = some (n, rest)) :
    ∃ lead, cs = lead ++ (name ++ rest) ∧ n = width lead := by
  simp only [markedPattern, bind, Option.bind_eq_some_iff] at h
  obtain ⟨r, hmark, h⟩ := h
  obtain ⟨gap, suf, hgap, -, hn, hname⟩ := behindBlanks_eq_some h
  refine ⟨mark ++ gap, ?_, by rw [hn, width_append]⟩
  rw [split_of_nameAt hmark, hgap, split_of_nameAt hname, List.append_assoc]

/-- Whatever the name, it stands at every column where a pattern finds it. -/
theorem exists_split_of_mem_onLine {use : Nat × ReferenceKind} (h : use ∈ onLine name line) :
    use.2 ≠ .declaration ∧
      ∃ before behind, line = before ++ (name ++ behind) ∧ use.1 = width before := by
  simp only [onLine, List.mem_append, List.mem_map, List.mem_filter] at h
  rcases h with ((⟨h, hm, rfl⟩ | ⟨h, hm, rfl⟩) | ⟨h, hm, rfl⟩) | ⟨h, ⟨hm, -⟩, rfl⟩
  all_goals
    refine ⟨by simp, ?_⟩
    obtain ⟨pre, suf, rfl, hstart, hp⟩ := mem_hits hm
  · simp only [callPattern, bind, Option.bind_eq_some_iff] at hp
    obtain ⟨r, hname, -⟩ := hp
    exact ⟨pre, r.2, by rw [split_of_nameAt hname], hstart⟩
  · obtain ⟨lead, rfl, hn⟩ : ∃ lead, suf = lead ++ (name ++ h.rest) ∧ h.value = width lead := by
      rcases Option.or_eq_some_iff.1 hp with hp | ⟨-, hp⟩
      · exact split_of_markedPattern hp
      · exact split_of_markedPattern hp
    exact ⟨pre ++ lead, h.rest, by rw [List.append_assoc], by rw [hstart, hn, width_append]⟩
  · simp only [memberPattern, bind, Option.bind_eq_some_iff, after?_eq_some_iff] at hp
    obtain ⟨rest, rfl, hname⟩ := hp
    refine ⟨pre ++ ['.'], h.rest, by rw [split_of_nameAt hname, List.append_assoc], ?_⟩
    rw [hstart, width_append]
    rfl
  · exact ⟨pre, h.rest, by rw [split_of_nameAt hp], hstart⟩

end Lines

variable {file : FileId} {cs : Text} {name : String} {declared : List Position}
  {withDeclarations : Bool}

/-- The entries from which the uses of a name are taken, those that count before others first. -/
def entries (cs : Text) (name : String) (declared : List Position) (withDeclarations : Bool) :
    List (Position × ReferenceKind) :=
  ((if withDeclarations then declared else []).map fun p => (p, .declaration)) ++
    onLines name.toList declared 0 (readLines cs)

theorem mem_search_iff {r : Reference} :
    r ∈ search file cs name declared withDeclarations ↔
      (entries cs name declared withDeclarations).find? (fun e => decide (e.1 = r.position)) =
          some (r.position, r.kind) ∧
        r = ⟨file, r.position, width name.toList, r.kind⟩ := by
  have hat : r ∈ search file cs name declared withDeclarations ↔
      r ∈ (search file cs name declared withDeclarations).filter
        (fun q => decide (q.position = r.position)) := by
    simp
  rw [hat, filter_search, ← entries, List.mem_map]
  constructor
  · intro h
    obtain ⟨e, he, hr⟩ := h
    rw [← hr] at he ⊢
    exact ⟨Option.mem_toList.1 he, rfl⟩
  · intro h
    exact ⟨_, Option.mem_toList.2 h.1, h.2.symm⟩

/-- No place is reported twice. -/
theorem nodup_positions (file : FileId) (cs : Text) (name : String) (declared : List Position)
    (withDeclarations : Bool) :
    ((search file cs name declared withDeclarations).map Reference.position).Nodup := by
  rw [List.nodup_iff_count_le_one]
  intro p
  have hcount : ((search file cs name declared withDeclarations).map Reference.position).count p =
      ((search file cs name declared withDeclarations).filter
        fun r => decide (r.position = p)).length := by
    rw [List.count_eq_countP, List.countP_map, List.countP_eq_length_filter]
    rfl
  rw [hcount, filter_search, List.length_map]
  exact Option.length_toList_le

theorem search_pairwise_before (file : FileId) (cs : Text) (name : String) (declared : List Position)
    (withDeclarations : Bool) :
    (search file cs name declared withDeclarations).Pairwise
      fun a b => a.position.before b.position = true := by
  have hsorted : (search file cs name declared withDeclarations).Pairwise
      fun a b => a.position.notAfter b.position = true := by
    rw [search, List.pairwise_map]
    apply List.pairwise_mergeSort
    · intro a b c
      exact Position.notAfter_trans
    · intro a b
      exact Position.notAfter_total a.1 b.1
  have hdistinct := nodup_positions file cs name declared withDeclarations
  rw [List.Nodup, List.pairwise_map] at hdistinct
  exact (hsorted.and hdistinct).imp fun h => Position.before_of_notAfter h.1 h.2

/-- Without declarations, what is reported is a use and lies at no declaration. -/
theorem used_of_mem_search_false {r : Reference} (h : r ∈ search file cs name declared false) :
    r.kind ≠ .declaration ∧ r.position ∉ declared := by
  have hmem := List.mem_of_find?_eq_some (mem_search_iff.1 h).1
  obtain ⟨n, line, -, -, huse, -, hfree⟩ := mem_onLines hmem
  exact ⟨(exists_split_of_mem_onLine huse).1, hfree⟩

def declarationAt (file : FileId) (name : String) (p : Position) : Reference :=
  ⟨file, p, width name.toList, .declaration⟩

theorem find?_entries_of_mem {p : Position} (hp : p ∈ declared) :
    (entries cs name declared true).find? (fun e => decide (e.1 = p)) =
      some (p, .declaration) := by
  have hmem : (p, ReferenceKind.declaration) ∈
      declared.map fun q => (q, ReferenceKind.declaration) := List.mem_map_of_mem hp
  obtain ⟨e, he⟩ := Option.isSome_iff_exists.1
    (List.find?_isSome (p := fun e => decide (e.1 = p)).2 ⟨_, hmem, by simp⟩)
  obtain ⟨q, -, rfl⟩ := List.mem_map.1 (List.mem_of_find?_eq_some he)
  have hq : q = p := by simpa using List.find?_some he
  rw [entries, if_pos rfl, List.find?_append, he, Option.some_or, hq]

theorem find?_entries_of_not_mem {p : Position} (hp : p ∉ declared) (withDeclarations : Bool) :
    (entries cs name declared withDeclarations).find? (fun e => decide (e.1 = p)) =
      (onLines name.toList declared 0 (readLines cs)).find? fun e => decide (e.1 = p) := by
  rw [entries, List.find?_append, find?_declared hp, Option.none_or]

theorem mem_search_true_iff {r : Reference} :
    r ∈ search file cs name declared true ↔
      r ∈ search file cs name declared false ∨
        r ∈ declared.eraseDups.map (declarationAt file name) := by
  rw [List.mem_map]
  simp only [List.mem_eraseDups]
  by_cases hp : r.position ∈ declared
  · constructor
    · intro h
      obtain ⟨hfind, hr⟩ := mem_search_iff.1 h
      rw [find?_entries_of_mem hp, Option.some_inj, Prod.mk.injEq] at hfind
      exact .inr ⟨r.position, hp, by rw [hr, ← hfind.2]; rfl⟩
    · intro h
      cases h with
      | inl h => exact absurd hp (used_of_mem_search_false h).2
      | inr h =>
          obtain ⟨p, -, rfl⟩ := h
          exact mem_search_iff.2 ⟨find?_entries_of_mem hp, rfl⟩
  · rw [mem_search_iff, mem_search_iff, find?_entries_of_not_mem hp, find?_entries_of_not_mem hp]
    refine (or_iff_left ?_).symm
    rintro ⟨p, hmem, rfl⟩
    exact hp hmem

theorem search_true_perm (file : FileId) (cs : Text) (name : String) (declared : List Position) :
    (search file cs name declared true).Perm
      (search file cs name declared false ++ declared.eraseDups.map (declarationAt file name)) := by
  have hnodup := fun withDeclarations =>
    List.Nodup.of_map Reference.position (nodup_positions file cs name declared withDeclarations)
  have hdeclared : (declared.eraseDups.map (declarationAt file name)).Nodup :=
    (nodup_eraseDups declared).map fun p q h => congrArg Reference.position h
  rw [List.perm_ext_iff_of_nodup (hnodup true)]
  · intro r
    rw [mem_search_true_iff, List.mem_append]
  · refine List.nodup_append.2 ⟨hnodup false, hdeclared, ?_⟩
    intro r hr q hq heq
    obtain ⟨p, -, rfl⟩ := List.mem_map.1 hq
    rw [heq] at hr
    exact (used_of_mem_search_false hr).1 rfl

end Reference

/-- Asking for declarations as well adds them and changes nothing else: the answer is in reading
order with no place twice, and for a name with patterns it consists of the answer without
declarations, in which no declared place comes up, and of one declaration for each declared place.
Every use is found where the name stands in the text. -/
theorem references_with_declarations (file : FileId) (cs : Text) (name : String)
    (declared : List Position) (engine : PatternEngine) :
    (∀ withDeclarations, (Reference.all file cs name declared withDeclarations engine).Pairwise
      fun a b => a.position.before b.position = true) ∧
    (engine.builds name = true →
      (Reference.all file cs name declared true engine).Perm
        (Reference.all file cs name declared false engine ++
          declared.eraseDups.map (Reference.declarationAt file name))) ∧
    (∀ r ∈ Reference.all file cs name declared false engine,
      r.kind ≠ .declaration ∧ r.position ∉ declared) ∧
    (width cs < countLimit → ∀ withDeclarations,
      ∀ r ∈ Reference.all file cs name declared withDeclarations engine, r.kind ≠ .declaration →
        ∃ front back, cs = front ++ (name.toList ++ back) ∧
          (LineMap.ofText cs).offset r.position = .ok (some (width front))) := by
  refine ⟨?_, ?_, ?_, ?_⟩
  · intro withDeclarations
    rw [Reference.all]
    split
    · exact Reference.search_pairwise_before file cs name declared withDeclarations
    · exact List.Pairwise.nil
  · intro hbuilt
    rw [Reference.all, Reference.all, if_pos hbuilt, if_pos hbuilt]
    exact Reference.search_true_perm file cs name declared
  · intro r hr
    exact Reference.used_of_mem_search_false (Reference.mem_all hr)
  · intro hlimit withDeclarations r hr hkind
    obtain ⟨n, line, hline, hn, huse, -, -⟩ :=
      Reference.mem_onLines (Reference.mem_search (Reference.mem_all hr) hkind)
    obtain ⟨-, before, behind, rfl, hcol⟩ := Reference.exists_split_of_mem_onLine huse
    obtain ⟨front, more, hsplit, hoffset⟩ := LineMap.exists_offset_of_readLines hline
    refine ⟨front, behind ++ more, by rw [hsplit, List.append_assoc], ?_⟩
    have hposition : r.position = ⟨n, width before⟩ := by
      rw [Nat.zero_add] at hn
      rw [← hcol, ← hn]
    rw [hposition]
    exact hoffset hlimit

def declaredAndCalled : Text := "fn review() \x7b\x7d\r\n  review()".toList

theorem references_with_declarations_declaredAndCalled :
    (Reference.all ⟨0⟩ declaredAndCalled "review" [⟨0, 3⟩, ⟨0, 3⟩] true).Perm
      (Reference.all ⟨0⟩ declaredAndCalled "review" [⟨0, 3⟩, ⟨0, 3⟩] false ++
        [⟨⟨0⟩, ⟨0, 3⟩, 6, .declaration⟩]) ∧
    (⟨⟨0⟩, ⟨1, 2⟩, 6, .call⟩ : Reference) ∈
      Reference.all ⟨0⟩ declaredAndCalled "review" [⟨0, 3⟩, ⟨0, 3⟩] true ∧
    ∃ front back, declaredAndCalled = front ++ ("review".toList ++ back) ∧
      (LineMap.ofText declaredAndCalled).offset ⟨1, 2⟩ = .ok (some (width front)) := by
  have hbuilt : PatternEngine.limited.builds "review" = true := by decide +kernel
  have hcall : (⟨⟨0⟩, ⟨1, 2⟩, 6, .call⟩ : Reference) ∈
      Reference.all ⟨0⟩ declaredAndCalled "review" [⟨0, 3⟩, ⟨0, 3⟩] true := by
    rw [Reference.all, if_pos hbuilt]
    exact Reference.mem_search_iff.2 ⟨by decide +kernel, rfl⟩
  obtain ⟨-, hperm, -, hplace⟩ := references_with_declarations ⟨0⟩ declaredAndCalled "review"
    [⟨0, 3⟩, ⟨0, 3⟩] .limited
  exact ⟨hperm hbuilt, hcall, hplace (by decide +kernel) true _ hcall (by decide)⟩

end ProcedureIndex
