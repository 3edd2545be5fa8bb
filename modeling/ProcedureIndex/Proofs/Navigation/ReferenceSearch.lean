import ProcedureIndex.Proofs.Navigation.ReferencePlaces

/-!
No use of a name is missed. The patterns for calls and for bare words read one word, so
their leftmost hits are all the places where they answer, and one of the two answers at
every whole occurrence that no colon and no equals sign follows. Of several patterns that
meet at a place the first counts, and calls come before everything else.
-/

namespace ProcedureIndex

open Text

namespace Text

theorem includes_append (a k b : Text) : includes (a ++ (k ++ b)) k = true := by
  have hcut : ∀ {cs rest : Text}, after? k cs = some rest → includes cs k = true := by
    intro cs rest h
    cases cs with
    | nil => simp [includes, cut?, h]
    | cons c cs => simp [includes, cut?, h]
  induction a with
  | nil => exact hcut (after?_eq_some_iff.2 rfl)
  | cons c a ih =>
      cases h : after? k (c :: (a ++ (k ++ b))) with
      | some rest => exact hcut h
      | none =>
          rw [includes] at ih
          simpa [includes, cut?, h] using ih

end Text

namespace Reference

variable {name line before behind : Text}

section Words

variable (hne : name ≠ []) (hword : ∀ c ∈ name, isWordChar c = true)
include hne hword

theorem isWordEdge_head?_iff {prev : Option Char} :
    isWordEdge prev name.head? = true ↔ inWord prev = false := by
  rw [isWordEdge, any_head?_of_forall hne hword, inWord]
  cases prev.any isWordChar <;> decide

theorem isWordEdge_getLast?_iff {next : Option Char} :
    isWordEdge name.getLast? next = true ↔ next.any isWordChar = false := by
  rw [isWordEdge, any_getLast?_of_forall hne hword]
  cases next.any isWordChar <;> decide

theorem nameAt_readsWord : ReadsWord name (nameAt name true true) where
  ne_nil := hne
  all := hword
  reads h := by
    obtain ⟨rfl, hedge, -⟩ := (nameAt_eq_some_iff hne).1 h
    exact ⟨(isWordEdge_head?_iff hne hword).1 (hedge rfl), [], rfl, by simp⟩

theorem callPattern_readsWord : ReadsWord name (callPattern name) where
  ne_nil := hne
  all := hword
  reads {prev cs r} h := by
    obtain ⟨hedge, gap, rfl, hgap⟩ := (callPattern_eq_some_iff hne).1 h
    refine ⟨(isWordEdge_head?_iff hne hword).1 hedge, gap ++ ['('], by simp, ?_⟩
    intro c hc
    rcases List.mem_append.1 hc with hc | hc
    · exact isWordChar_of_isBlank (hgap c hc)
    · cases List.mem_singleton.1 hc
      decide

variable (hbefore : inWord before.getLast? = false)
include hbefore

/-- At a place outside of words, a call is found exactly if there is one. -/
theorem call_mem_onLine_iff :
    (width before, .call) ∈ onLine name (before ++ (name ++ behind)) ↔
      ∃ gap rest, behind = gap ++ '(' :: rest ∧ ∀ c ∈ gap, isBlank c = true := by
  constructor
  · intro h
    obtain ⟨before', behind', hspot⟩ := spot_of_mem_onLine hne h
    have hsame : before = before' := by
      rw [← takeBytes_width_append before (name ++ behind), hspot.split,
        show width before = width before' from hspot.col, takeBytes_width_append]
    have hsplit := hspot.split
    rw [hsame] at hsplit
    rw [List.append_cancel_left (List.append_cancel_left hsplit)]
    exact hspot.call rfl
  · rintro ⟨gap, rest, rfl, hgap⟩
    have hhit := (callPattern_readsWord hne hword).separate.mem_hits
      ((callPattern_eq_some_iff hne (r := ((), rest))).2
        ⟨(isWordEdge_head?_iff hne hword).2 hbefore, gap, rfl, hgap⟩)
    exact List.mem_append_left _ (List.mem_append_left _ (List.mem_append_left _
      (List.mem_map.2 ⟨_, hhit, rfl⟩)))

theorem bare_mem_onLine (hbehind : behind.head?.any isWordChar = false)
    (hnext : behind.head?.any (fun c => c == ':' || c == '(' || c == '=') = false) :
    (width before, .bare) ∈ onLine name (before ++ (name ++ behind)) := by
  have hhit := (nameAt_readsWord hne hword).separate.mem_hits
    ((nameAt_eq_some_iff hne (r := ((), behind))).2
      ⟨rfl, fun _ => (isWordEdge_head?_iff hne hword).2 hbefore,
        fun _ => (isWordEdge_getLast?_iff hne hword).2 hbehind⟩)
  refine List.mem_append_right _ (List.mem_map.2 ⟨_, List.mem_filter.2 ⟨hhit, ?_⟩, rfl⟩)
  rw [hnext]
  rfl

theorem exists_mem_onLine (hbehind : behind.head?.any isWordChar = false)
    (hnext : behind.head?.any (fun c => c == ':' || c == '=') = false) :
    ∃ kind, (width before, kind) ∈ onLine name (before ++ (name ++ behind)) := by
  by_cases hparen : behind.head? = some '('
  · obtain ⟨rest, rfl⟩ := List.head?_eq_some_iff.1 hparen
    exact ⟨.call, (call_mem_onLine_iff hne hword hbefore).2 ⟨[], rest, rfl, by simp⟩⟩
  · refine ⟨.bare, bare_mem_onLine hne hword hbefore hbehind ?_⟩
    cases behind with
    | nil => rfl
    | cons c cs => simp_all

end Words

/-- Calls come before everything else that is found on a line. -/
theorem find?_onLine_of_call {col : Nat} (h : (col, .call) ∈ onLine name line) :
    (onLine name line).find? (fun u => decide (u.1 = col)) = some (col, .call) := by
  have hcalls : (col, ReferenceKind.call) ∈
      (hits (callPattern name) line).map fun h => (h.start, ReferenceKind.call) := by
    simpa [onLine] using h
  obtain ⟨u, hu⟩ := Option.isSome_iff_exists.1
    (List.find?_isSome (p := fun u => decide (u.1 = col)).2 ⟨_, hcalls, by simp⟩)
  obtain ⟨hit, -, rfl⟩ := List.mem_map.1 (List.mem_of_find?_eq_some hu)
  have hcol : hit.start = col := by simpa using List.find?_some hu
  rw [onLine, List.append_assoc, List.append_assoc, List.find?_append, hu, hcol, Option.some_or]

theorem filter_firstOf (seen : List Position) (entries : List (Position × ReferenceKind))
    (p : Position) :
    (firstOf seen entries).filter (fun e => decide (e.1 = p)) =
      if p ∈ seen then [] else (entries.find? fun e => decide (e.1 = p)).toList := by
  induction entries generalizing seen with
  | nil => simp [firstOf]
  | cons e rest ih =>
      rw [firstOf]
      by_cases hp : e.1 = p
      · by_cases hseen : p ∈ seen <;> simp [hp, hseen, ih]
      · by_cases hseen : e.1 ∈ seen <;> simp [hp, hseen, ih, Ne.symm hp]

theorem find?_onLines_of_lt {declared : List Position} {k : Nat} {p : Position} (h : p.line < k)
    (ls : List Text) : (onLines name declared k ls).find? (fun e => decide (e.1 = p)) = none := by
  rw [List.find?_eq_none]
  intro e he
  obtain ⟨n, -, -, hn, -⟩ := mem_onLines he
  rw [decide_eq_true_eq]
  rintro rfl
  omega

theorem find?_onLines {declared : List Position} {k n col : Nat} {ls : List Text}
    (hline : ls[n]? = some line) (hin : includes line name = true)
    (hcode : (CodeMask.ofLine line).isCode col = true) (hfree : ⟨k + n, col⟩ ∉ declared) :
    (onLines name declared k ls).find? (fun e => decide (e.1 = ⟨k + n, col⟩)) =
      ((onLine name line).find? fun u => decide (u.1 = col)).map fun u => (⟨k + n, u.1⟩, u.2) := by
  induction ls generalizing k n with
  | nil => cases hline
  | cons first ls ih =>
      rw [onLines, List.find?_append]
      cases n with
      | zero =>
          cases Option.some.inj hline
          rw [find?_onLines_of_lt (show k + 0 < k + 1 by omega), Option.or_none]
          simp only [hin, if_true, List.find?_map, List.find?_filter]
          congr 2
          funext u
          by_cases hu : u.1 = col <;> simp_all
      | succ n =>
          have hnext : k + (n + 1) = k + 1 + n := by omega
          have hhere : ∀ uses : List (Nat × ReferenceKind),
              (uses.map fun u => ((⟨k, u.1⟩, u.2) : Position × ReferenceKind)).find?
                (fun e => decide (e.1 = ⟨k + (n + 1), col⟩)) = none := by
            intro uses
            rw [List.find?_eq_none]
            intro e he
            obtain ⟨u, -, rfl⟩ := List.mem_map.1 he
            simp
          have hrest := ih (k := k + 1) (by rwa [List.getElem?_cons_succ] at hline)
            (by rwa [hnext] at hfree)
          rw [← hnext] at hrest
          rw [hrest]
          split
          · rw [hhere, Option.none_or]
          · rfl

/-- At every place at most one use is reported, the one that was found first. -/
theorem filter_search (file : FileId) (cs : Text) (name : String) (declared : List Position)
    (withDeclarations : Bool) (p : Position) :
    (search file cs name declared withDeclarations).filter (fun r => decide (r.position = p)) =
      ((((if withDeclarations then declared else []).map fun q => (q, ReferenceKind.declaration)) ++
          onLines name.toList declared 0 (readLines cs)).find? fun e => decide (e.1 = p)).toList.map
        fun e => ⟨file, e.1, width name.toList, e.2⟩ := by
  have hsorted : ∀ entries : List (Position × ReferenceKind),
      ((firstOf [] entries).mergeSort fun a b => a.1.notAfter b.1).filter
        (fun e => decide (e.1 = p)) = (entries.find? fun e => decide (e.1 = p)).toList := by
    intro entries
    have hperm := (List.mergeSort_perm (firstOf [] entries) fun a b => a.1.notAfter b.1).filter
      fun e => decide (e.1 = p)
    rw [filter_firstOf, if_neg List.not_mem_nil] at hperm
    cases hfind : entries.find? fun e => decide (e.1 = p) with
    | none => exact List.perm_nil.1 (by rwa [hfind] at hperm)
    | some e => exact List.perm_singleton.1 (by rwa [hfind] at hperm)
  rw [search, List.filter_map, ← hsorted]
  rfl

theorem find?_declared {declared : List Position} {p : Position} (hp : p ∉ declared)
    (withDeclarations : Bool) :
    ((if withDeclarations then declared else []).map fun q =>
      (q, ReferenceKind.declaration)).find? (fun e => decide (e.1 = p)) = none := by
  rw [List.find?_eq_none]
  intro e he
  obtain ⟨q, hq, rfl⟩ := List.mem_map.1 he
  rw [decide_eq_true_eq]
  rintro rfl
  split at hq
  · exact hp hq
  · cases hq

end Reference

/-- A whole occurrence of a name in the code of an ASCII text, with no colon and no equals sign right
behind it and no declaration at its place, is reported once, and as a call exactly if blanks and a
parenthesis follow, provided that the name has patterns to search with. -/
theorem reference_at_occurrence (file : FileId) {cs : Text} (hcs : ∀ c ∈ cs, c.toNat < 0x80)
    {name : String} {engine : PatternEngine} (hbuilt : engine.builds name = true)
    {declared : List Position} (withDeclarations : Bool) {n : Nat}
    {line before behind : Text} (hline : (readLines cs)[n]? = some line)
    (hsplit : line = before ++ (name.toList ++ behind))
    (hwhole : identAt line (width before) = some (width before, name.toList))
    (hcode : (CodeMask.ofLine line).isCode (width before) = true)
    (hfree : ⟨n, width before⟩ ∉ declared)
    (hnext : behind.head? ≠ some ':' ∧ behind.head? ≠ some '=') :
    ∃ kind, kind ≠ .declaration ∧
      (Reference.all file cs name declared withDeclarations engine).filter
          (fun r => decide (r.position = ⟨n, width before⟩)) =
        [⟨file, ⟨n, width before⟩, width name.toList, kind⟩] ∧
      (kind = .call ↔
        ∃ gap rest, behind = gap ++ '(' :: rest ∧ ∀ c ∈ gap, isBlank c = true) := by
  subst hsplit
  have hascii : ∀ c ∈ before ++ (name.toList ++ behind), c.toNat < 0x80 :=
    fun c hc => hcs c (subset_of_mem_readLines (List.mem_of_getElem? hline) hc)
  obtain ⟨hident, hleft, hright⟩ := identAt_eq_self_iff.1 hwhole
  -- In ASCII the identifier is a word of its own.
  have hword : ∀ c ∈ name.toList, isWordChar c = true := by
    intro c hc
    rw [isWordChar_eq_isIdentContinue (hascii c (by simp [hc]))]
    exact hident.all c hc
  have hbefore : inWord before.getLast? = false := by
    rwa [inWord, any_isWordChar_eq fun c hc => hascii c (by simp [List.mem_of_getLast? hc])]
  have hbehind : behind.head?.any isWordChar = false := by
    rwa [any_isWordChar_eq fun c hc => hascii c (by simp [List.mem_of_head? hc])]
  obtain ⟨kind, hkind⟩ := Reference.exists_mem_onLine hident.ne_nil hword hbefore hbehind
    (by cases behind <;> simp_all)
  obtain ⟨u, hu⟩ := Option.isSome_iff_exists.1
    (List.find?_isSome (p := fun u => decide (u.1 = width before)).2 ⟨_, hkind, by simp⟩)
  have hcol : u.1 = width before := by simpa using List.find?_some hu
  have hmem := List.mem_of_find?_eq_some hu
  obtain ⟨_, _, hspot⟩ := Reference.spot_of_mem_onLine hident.ne_nil hmem
  refine ⟨u.2, hspot.used, ?_, ?_⟩
  · have hfind := Reference.find?_onLines (k := 0) hline (includes_append before name.toList behind)
      hcode (by rwa [Nat.zero_add])
    rw [hu, Nat.zero_add, Option.map_some, hcol] at hfind
    rw [Reference.all, if_pos hbuilt, Reference.filter_search, List.find?_append,
      Reference.find?_declared hfree, hfind, Option.none_or]
    rfl
  · rw [← Reference.call_mem_onLine_iff hident.ne_nil hword hbefore]
    constructor
    · intro hcall
      rwa [← hcall, ← hcol]
    · intro hcall
      rw [Reference.find?_onLine_of_call hcall] at hu
      rw [← Option.some.inj hu]

def nestedUses : Text := "x = foo (foo + food)\n".toList

theorem reference_at_outerUse :
    (Reference.all ⟨0⟩ nestedUses "foo" [] false).filter
      (fun r => decide (r.position = ⟨0, 4⟩)) = [⟨⟨0⟩, ⟨0, 4⟩, 3, .call⟩] := by
  have hline : (readLines nestedUses)[0]? =
      some ("x = ".toList ++ ("foo".toList ++ " (foo + food)".toList)) := by decide
  have hfree : (⟨0, 4⟩ : Position) ∉ ([] : List Position) := List.not_mem_nil
  have hascii : ∀ c ∈ nestedUses, c.toNat < 0x80 := List.forall_iff_forall_mem.1 (by decide)
  have hbuilt : PatternEngine.limited.builds "foo" = true := by decide +kernel
  obtain ⟨kind, -, honce, hcall⟩ := reference_at_occurrence ⟨0⟩ hascii hbuilt false hline
    rfl (by decide) (by decide) hfree (by decide)
  rw [hcall.2 ⟨[' '], "foo + food)".toList, rfl, List.forall_mem_singleton.2 rfl⟩] at honce
  exact honce

end ProcedureIndex
