import ProcedureIndex.Proofs.Document.Scans
import ProcedureIndex.Proofs.Text.Stretches

/-!
A line put in front of a text. Where no header of a family starts in the line, the scan for
that family finds below it what it finds in the text alone, further down; a `static` at
the end of the line may become part of the first function header behind it. Braces in the
line close no class below it.
-/

namespace ProcedureIndex

open Text

def Symbol.below (line : Text) (s : Symbol) : Symbol :=
  { s with start := width line + s.start, position := ⟨s.position.line + 1, s.position.col⟩ }

namespace Site

def down (k : Nat) (site : Site) : Site :=
  { site with header := k + site.header, start := k + site.start }

variable {line T : Text}

theorem pipelines_below (h : Quiet PipelineHeader.pattern line T)
    (hline : inWord line.getLast? = false) :
    pipelines (line ++ T) = (pipelines T).map (down (width line)) := by
  rw [pipelines, PipelineHeader.keyed.hits_below h hline, List.map_map, pipelines, List.map_map]
  apply List.map_congr_left
  intro hit _
  simp only [Function.comp, Hit.down, down, Nat.add_assoc]

theorem classes_below (h : Quiet ClassHeader.pattern line T)
    (hline : inWord line.getLast? = false) :
    classes (line ++ T) = (classes T).map (Hit.down (width line)) :=
  ClassHeader.keyed.hits_below h hline

theorem width_dropWhile_le (p : Char → Bool) (cs : Text) : width (cs.dropWhile p) ≤ width cs := by
  have hsplit := congrArg width (List.takeWhile_append_dropWhile (p := p) (l := cs))
  rw [width_append] at hsplit
  omega

theorem body?_below {total k : Nat} {rest : Text} (hrest : width rest ≤ total) :
    body? (k + total) rest = (body? total rest).map fun r => (k + r.1, r.2) := by
  rw [body?, body?]
  split
  · next inner hinner =>
      have hle := width_dropWhile_le isBlank rest
      rw [hinner, width_cons] at hle
      have hsub : k + total - width inner = k + (total - width inner) := by omega
      rw [hsub]
      rfl
  · rfl

theorem methodsOf_below {hit : Hit ClassHeader} (hhit : hit ∈ classes T) (line : Text) :
    methodsOf (line ++ T) (hit.down (width line)) =
      (methodsOf T hit).map (down (width line)) := by
  obtain ⟨pre, suf, hT, -, hp⟩ := mem_hits hhit
  obtain ⟨-, taken, hsuf⟩ := ClassHeader.pattern_eq_some hp
  have hrest : width hit.rest ≤ width T := by
    rw [hT, hsuf, width_append, width_append]
    omega
  simp only [methodsOf, Hit.down, width_append, body?_below hrest]
  cases body? (width T) hit.rest with
  | none => rfl
  | some r =>
      simp only [Option.map_some, methods, List.map_map]
      apply List.map_congr_left
      intro h _
      simp only [Function.comp, down, Nat.add_assoc]

theorem types_below (h : Quiet ClassHeader.pattern line T) (hline : inWord line.getLast? = false) :
    types (line ++ T) = (types T).map (down (width line)) := by
  rw [types_eq, types_eq, classes_below h hline, List.flatMap_map, List.map_flatMap]
  apply List.flatMap_congr
  intro hit hhit
  rw [methodsOf_below hhit, List.map_cons]
  congr 1
  simp only [ofClass, down, Hit.down, Nat.add_assoc]

theorem linesFrom_add (k offset : Nat) (ls : List Text) :
    LineHeader.linesFrom (k + offset) ls =
      (LineHeader.linesFrom offset ls).map fun l => (k + l.1, l.2) := by
  induction ls generalizing offset with
  | nil => rfl
  | cons l ls ih =>
      have hnext : k + offset + width l + 1 = k + (offset + width l + 1) := by omega
      rw [LineHeader.linesFrom, LineHeader.linesFrom, hnext, ih]
      rfl

theorem onLines_below {recognise : Text → Option LineHeader} {line : Text} (hline : '\n' ∉ line)
    (hnone : recognise line = none) (form : String → SymbolForm) (T : Text) :
    onLines recognise form (line ++ '\n' :: T) =
      (onLines recognise form T).map (down (width (line ++ ['\n']))) := by
  have hwidth : 0 + width line + 1 = width (line ++ ['\n']) + 0 := by
    rw [width_append, Nat.zero_add]
    rfl
  have hall : LineHeader.all recognise (line ++ '\n' :: T) =
      (LineHeader.all recognise T).map fun l => (width (line ++ ['\n']) + l.1, l.2) := by
    simp only [LineHeader.all, lines_append_newline hline, LineHeader.linesFrom,
      List.filterMap_cons, hnone, Option.map_none, hwidth, linesFrom_add, List.filterMap_map,
      List.map_filterMap, Option.map_map]
    rfl
  rw [onLines, onLines, hall, List.map_map, List.map_map]
  apply List.map_congr_left
  intro l _
  simp only [Function.comp, down, Nat.add_assoc]

end Site

namespace Annotations

theorem ofLine_comment {line rest : Text} (hline : line = "// ".toList ++ rest) :
    LineNote.ofLine line = .comment := by
  have htrim : trim line = '/' :: '/' :: trimEnd (' ' :: rest) := by
    have hstart : trimStart line = '/' :: '/' :: ' ' :: rest := by rw [hline]; rfl
    rw [trim, hstart, trimEnd_cons (by decide), trimEnd_cons (by decide)]
  have hdoc : after? "///".toList ('/' :: '/' :: trimEnd (' ' :: rest)) = none := by
    have hsuffix : trimEnd (' ' :: rest) <+: ' ' :: rest := by
      have hreverse : ((' ' :: rest).reverse.dropWhile isBlank) <:+ (' ' :: rest).reverse :=
        List.dropWhile_suffix _
      rw [← List.reverse_prefix] at hreverse
      simpa only [List.reverse_reverse, trimEnd] using hreverse
    cases ht : trimEnd (' ' :: rest) with
    | nil => rfl
    | cons c cs =>
        rw [ht] at hsuffix
        obtain ⟨more, hmore⟩ := hsuffix
        cases hmore
        rfl
  simp only [LineNote.ofLine, htrim, hdoc]
  rfl

theorem read_concat {line : Text} (hline : LineNote.ofLine line = .comment) (above : List Text) :
    read (above ++ [line]) = read above := by
  induction above with
  | nil => simp only [List.nil_append, read, hline]
  | cons l above ih => simp only [List.cons_append, read, ih]

theorem above_below {line : Text} (hnewline : '\n' ∉ line)
    (hline : LineNote.ofLine line = .comment) (cs : Text) :
    above (line ++ '\n' :: cs) = above cs := by
  rw [above, above, lines_append_newline hnewline, List.reverse_cons]
  cases hlines : (lines cs).reverse with
  | nil => exact absurd (List.reverse_eq_nil_iff.1 hlines) (lines_ne_nil cs)
  | cons own rest => simp only [List.cons_append, read_concat hline]

theorem trim_of_blank {l : Text} (h : ∀ c ∈ l, isBlank c = true) : trim l = [] := by
  rw [trim, trimStart, List.dropWhile_eq_nil_iff.2 h]
  rfl

theorem read_of_blank {ls : List Text} (h : ∀ l ∈ ls, trim l = []) : read ls = ([], none) := by
  induction ls with
  | nil => rfl
  | cons l ls ih =>
      have hblank : LineNote.ofLine l = .blank := by
        simp only [LineNote.ofLine, h l (by simp)]
        rfl
      rw [read, hblank]
      exact ih fun m hm => h m (by simp [hm])

/-- Blank lines annotate nothing. -/
theorem above_of_blank {cs : Text} (h : ∀ c ∈ cs, isBlank c = true) : above cs = ([], none) := by
  have hlines : ∀ l ∈ (lines cs).reverse, trim l = [] := fun l hl =>
    trim_of_blank fun c hc => h c (subset_of_mem_lines (List.mem_reverse.1 hl) hc)
  rw [above]
  split
  · rfl
  · next own rest heq =>
      rw [heq] at hlines
      rw [hlines own (by simp), read_of_blank fun l hl => hlines l (by simp [hl])]
      rfl

/-- Behind code on its own line a declaration has no annotations. -/
theorem above_of_code {c : Char} {cs : Text} (hc : isBlank c = false) (hline : '\n' ∉ c :: cs) :
    above (c :: cs) = ([], none) := by
  have htrim : trim (c :: cs) = c :: trimEnd cs := by
    rw [trim, trimStart, List.dropWhile_cons_of_neg (by simp [hc]), trimEnd_cons hc]
  rw [above, lines_of_not_mem hline]
  simp only [List.reverse_singleton, htrim]
  rfl

end Annotations

theorem Text.exists_lead_of_named? {keyword cs lead name rest : Text}
    (h : named? keyword cs = some ((lead, name), rest)) :
    ∃ gap, lead = keyword ++ gap ∧ (∀ c ∈ gap, isBlank c = true) ∧
      cs = keyword ++ (gap ++ (name ++ rest)) := by
  have hsplit := (named?_eq_some h).1.split
  simp only [named?, bind, Option.bind_eq_some_iff] at h
  obtain ⟨r, -, ⟨gap, r'⟩, hgap, ⟨n, r''⟩, -, he⟩ := h
  cases he
  exact ⟨gap, rfl, all_of_some? hgap, by rw [hsplit, List.append_assoc]⟩

theorem ClassHeader.exists_lead {prev : Option Char} {cs rest : Text} {h : ClassHeader}
    (hp : pattern prev cs = some (h, rest)) :
    ∃ gap more, h.lead = keyword ++ gap ∧ (∀ c ∈ gap, isBlank c = true) ∧
      cs = keyword ++ (gap ++ more) := by
  rw [pattern] at hp
  split at hp
  · cases hp
  · simp only [bind, Option.bind_eq_some_iff] at hp
    obtain ⟨⟨⟨lead, name⟩, behind⟩, hn, hp⟩ := hp
    obtain ⟨gap, hlead, hblank, hcs⟩ := exists_lead_of_named? hn
    split at hp <;> cases hp <;> exact ⟨gap, _, hlead, hblank, hcs⟩

theorem PipelineHeader.exists_lead {prev : Option Char} {cs rest : Text} {h : PipelineHeader}
    (hp : pattern prev cs = some (h, rest)) :
    ∃ gap more, h.lead = keyword ++ gap ∧ (∀ c ∈ gap, isBlank c = true) ∧
      cs = keyword ++ (gap ++ more) := by
  rw [pattern] at hp
  split at hp
  · cases hp
  · obtain ⟨⟨⟨lead, name⟩, behind⟩, hn, he⟩ := Option.map_eq_some_iff.1 hp
    cases he
    obtain ⟨gap, hlead, hblank, hcs⟩ := exists_lead_of_named? hn
    exact ⟨gap, _, hlead, hblank, hcs⟩

namespace FnHeader

theorem exists_lead_of_plain? {cs rest : Text} {h : FnHeader} (hp : plain? cs = some (h, rest)) :
    ∃ gap more, h.lead = keyword ++ gap ∧ (∀ c ∈ gap, isBlank c = true) ∧
      cs = keyword ++ (gap ++ more) := by
  simp only [plain?, bind, Option.bind_eq_some_iff] at hp
  obtain ⟨⟨⟨lead, name⟩, r⟩, hn, behind, -, he⟩ := hp
  cases he
  obtain ⟨gap, hlead, hblank, hcs⟩ := exists_lead_of_named? hn
  exact ⟨gap, _, hlead, hblank, hcs⟩

def unmarked : Pattern FnHeader := fun prev cs =>
  if inWord prev then none else plain? cs

theorem pattern_of_unmarked {prev : Option Char} {cs : Text} {r : FnHeader × Text}
    (h : unmarked prev cs = some r) : pattern prev cs = some r := by
  rw [unmarked] at h
  rw [pattern]
  split at h
  · cases h
  · next hprev =>
      rw [if_neg hprev]
      cases hs : static? cs with
      | none => exact h
      | some g =>
          have hkeys := (key_of_static? hs).symm.trans (key_of_plain? h)
          exact absurd hkeys (by decide)

/-- A header that is not read from its `fn` on is read from the `static` in front of it. -/
theorem pattern_cases {prev : Option Char} {cs rest : Text} {h : FnHeader}
    (hp : pattern prev cs = some (h, rest)) :
    unmarked prev cs = some (h, rest) ∨
      ∃ gap cs' h', cs = staticKeyword ++ (gap ++ cs') ∧ gap.getLast?.any isBlank = true ∧
        (∀ c ∈ gap, isBlank c = true) ∧ plain? cs' = some (h', rest) ∧
        h = { h' with isStatic := true, lead := staticKeyword ++ gap ++ h'.lead } := by
  rw [pattern] at hp
  split at hp
  · cases hp
  · next hprev =>
      split at hp
      · next lead r hs =>
          right
          simp only [static?, bind, Option.bind_eq_some_iff] at hs
          obtain ⟨r', hk, ⟨gap, r''⟩, hgap, he⟩ := hs
          cases he
          obtain ⟨⟨h', rest'⟩, hplain, he⟩ := Option.map_eq_some_iff.1 hp
          cases he
          obtain ⟨hsplit, hlast⟩ := some?_eq_some hgap
          exact ⟨gap, r'', h', by rw [after?_eq_some_iff.1 hk, hsplit], hlast, all_of_some? hgap,
            hplain, rfl⟩
      · left
        rw [unmarked, if_neg hprev]
        exact hp

theorem edge_rest {prev : Option Char} {cs rest : Text} {h : FnHeader}
    (hp : pattern prev cs = some (h, rest)) : Edge rest := by
  have hhead := head?_dropWhile_any (p := (· != ')')) cs
  rw [← rest_eq hp] at hhead
  cases rest with
  | nil => exact edge_nil
  | cons c cs =>
      have hc : c = ')' := by simpa using hhead
      rw [hc]
      exact edge_cons (by decide)

/-- A `static` at the end of the line that belongs to a function below it: the line goes on with
blanks only, and so does the text up to the `fn`. -/
theorem exists_static_split {line T a b rest : Text} {h : FnHeader} (hquiet : Quiet unmarked line T)
    (hline : line.getLast? = some '\n') (hab : line = a ++ b) (hb : b ≠ [])
    (hp : pattern a.getLast? (b ++ T) = some (h, rest)) :
    ∃ gap gap' cs h', b = staticKeyword ++ gap ∧ T = gap' ++ cs ∧
      (∀ c ∈ gap ++ gap', isBlank c = true) ∧ plain? cs = some (h', rest) ∧
      h = { h' with isStatic := true, lead := staticKeyword ++ (gap ++ gap') ++ h'.lead } := by
  have hnewline : '\n' ∈ b := by
    rw [hab, List.getLast?_append_of_ne_nil a hb] at hline
    exact List.mem_of_getLast? hline
  rcases pattern_cases hp with hplain | ⟨gap, cs, h', hsplit, hlast, hblank, hplain, rfl⟩
  · rw [hquiet a b hab hb] at hplain
    cases hplain
  · rcases List.append_eq_append_iff.1 hsplit with ⟨x, hx, -⟩ | ⟨x, rfl, hx⟩
    · have hmem : '\n' ∈ staticKeyword := by
        rw [hx]
        exact List.mem_append_left x hnewline
      exact absurd hmem (by decide)
    · rcases List.append_eq_append_iff.1 hx with ⟨y, rfl, hy⟩ | ⟨y, rfl, rfl⟩
      · cases y with
        | nil =>
            rw [List.append_nil] at hab ⊢
            exact ⟨gap, [], T, h', rfl, rfl, by simpa using hblank, by simpa [hy] using hplain,
              by simp⟩
        | cons c y =>
            -- The `fn` stands in the line itself.
            have hprev : inWord (a ++ (staticKeyword ++ gap)).getLast? = false := by
              rw [← List.append_assoc, List.getLast?_append]
              cases hl : gap.getLast? with
              | none => simp [hl] at hlast
              | some d =>
                  rw [hl] at hlast
                  exact isWordChar_of_isBlank hlast
            have hnone := hquiet (a ++ (staticKeyword ++ gap)) (c :: y)
              (by rw [hab]; simp only [List.append_assoc]) (by simp)
            rw [unmarked, hprev, ← hy, if_neg (by simp), hplain] at hnone
            cases hnone
      · exact ⟨x, y, cs, h', rfl, rfl, hblank, hplain, rfl⟩

theorem hits_below {line T : Text} (hquiet : Quiet unmarked line T)
    (hline : line.getLast? = some '\n') :
    hits pattern (line ++ T) = (hits pattern T).map (Hit.down (width line)) ∨
      ∃ a gap gap' cs h rest later, line = a ++ (staticKeyword ++ gap) ∧ T = gap' ++ cs ∧
        (∀ c ∈ gap', isBlank c = true) ∧ hits pattern T = ⟨width gap', h, rest⟩ :: later ∧
        hits pattern (line ++ T) =
          ⟨width a, { h with isStatic := true, lead := staticKeyword ++ (gap ++ gap') ++ h.lead },
            rest⟩ :: later.map (Hit.down (width line)) := by
  by_cases hall : Quiet pattern line T
  · left
    exact keyed.hits_below hall (by rw [hline]; decide)
  · right
    obtain ⟨a, b, ⟨h, rest⟩, hab, hb, ha, hp⟩ := exists_first_of_not_quiet hall
    obtain ⟨gap, gap', cs, h', rfl, rfl, hblank, hplain, rfl⟩ :=
      exists_static_split hquiet hline hab hb hp
    have hblank' : ∀ c ∈ gap', isBlank c = true := fun c hc => hblank c (List.mem_append_right _ hc)
    have hown : pattern none cs = some (h', rest) := pattern_of_unmarked hplain
    have hedge := edge_rest hown
    obtain ⟨taken, hne, hcs⟩ := leads.split hown
    have hprev := keyed.outside hp
    refine ⟨a, gap, gap', cs, h', rest,
      hitsFrom pattern none (width gap' + width (h'.lead ++ taken)) 0 rest, hab, rfl, hblank',
      ?_, ?_⟩
    · rw [hits, keyed.hitsFrom_marks fun c hc => isWordChar_of_isBlank (hblank' c hc), Nat.zero_add]
      rw [← List.append_assoc] at hcs
      rw [hcs] at hown ⊢
      exact keyed.hitsFrom_hit (List.append_ne_nil_of_right_ne_nil _ hne) hown hedge
    · have hsplit : staticKeyword ++ gap ++ (gap' ++ cs) =
          (staticKeyword ++ (gap ++ gap') ++ (h'.lead ++ taken)) ++ rest := by
        rw [hcs]
        simp only [List.append_assoc]
      have hwidth : width a + width (staticKeyword ++ (gap ++ gap') ++ (h'.lead ++ taken)) =
          width line + (width gap' + width (h'.lead ++ taken)) := by
        rw [hab]
        simp only [width_append]
        omega
      rw [keyed.gate, hprev, if_neg (by simp), hsplit] at hp
      rw [← hitsFrom_add, ← hwidth]
      conv => lhs; rw [hab]
      rw [List.append_assoc, ha.hits_append, keyed.hitsFrom_of_not_inWord hprev, hsplit]
      exact keyed.hitsFrom_hit (by simp [hne]) hp hedge

end FnHeader

namespace Site

theorem lastBefore_map {g : Nat → Nat} {places : List Nat} {n : Nat}
    (h : ∀ x ∈ places, g x < g n ↔ x < n) :
    lastBefore (places.map g) (g n) = (lastBefore places n).map g := by
  have hfilter : places.filter ((fun x => decide (x < g n)) ∘ g) =
      places.filter fun x => decide (x < n) := by
    apply List.filter_congr
    intro x hx
    exact decide_eq_decide.2 (h x hx)
  rw [lastBefore, lastBefore, List.filter_map, hfilter, List.getLast?_map]

theorem lastBefore_map_add (k : Nat) (places : List Nat) (n : Nat) :
    lastBefore (places.map (k + ·)) (k + n) = (lastBefore places n).map (k + ·) :=
  lastBefore_map fun _ _ => Nat.add_lt_add_iff_left

theorem lastBefore_append (xs ys : List Nat) (n : Nat) :
    lastBefore (xs ++ ys) n = (lastBefore ys n).or (lastBefore xs n) := by
  rw [lastBefore, List.filter_append, List.getLast?_append]
  rfl

theorem lastBefore_eq_none {places : List Nat} {n : Nat} (h : ∀ x ∈ places, n ≤ x) :
    lastBefore places n = none := by
  rw [lastBefore, List.getLast?_eq_none_iff, List.filter_eq_nil_iff]
  intro x hx
  have hle := h x hx
  rw [decide_eq_true_eq]
  omega

theorem lastBefore_add {places : List Nat} {n : Nat} (h : ∀ x ∈ places, x < n) (k : Nat) :
    lastBefore places (n + k) = lastBefore places n := by
  rw [lastBefore, lastBefore, List.filter_congr]
  intro x hx
  have hlt := h x hx
  rw [decide_eq_decide]
  omega

theorem lastBefore_mem {places : List Nat} {n x : Nat} (h : lastBefore places n = some x) :
    x ∈ places :=
  List.mem_of_mem_filter (List.mem_of_getLast? h)

/-- Behind a class header or a closing brace, nothing before it counts any more. -/
theorem inClass_concat {k : Nat} {classes closers : List Nat} (hclasses : ∀ c ∈ classes, c < k)
    (hclosers : ∀ b ∈ closers, b < k) (classes' closers' : List Nat) (n : Nat) :
    inClass (classes ++ classes'.map (k + ·)) (closers ++ closers'.map (k + ·)) (k + n) =
      if lastBefore classes' n = none ∧ lastBefore closers' n = none then inClass classes closers k
      else inClass classes' closers' n := by
  simp only [inClass, lastBefore_append, lastBefore_map_add, lastBefore_add hclasses,
    lastBefore_add hclosers]
  cases lastBefore classes' n with
  | none =>
      cases lastBefore closers' n with
      | none => rfl
      | some b' =>
          cases hc : lastBefore classes k with
          | none => rfl
          | some c =>
              have hlt := hclasses c (lastBefore_mem hc)
              simp only [Option.map_none, Option.map_some, Option.none_or, Option.some_or,
                reduceCtorEq, and_false, if_false, decide_eq_false_iff_not]
              omega
  | some c' =>
      cases lastBefore closers' n with
      | some b' => simp
      | none =>
          cases hb : lastBefore closers k with
          | none => rfl
          | some b =>
              have hlt := hclosers b (lastBefore_mem hb)
              simp only [Option.map_none, Option.map_some, Option.none_or, Option.some_or,
                reduceCtorEq, false_and, if_false, decide_eq_true_eq]
              omega

/-- Braces that close before all classes do not count. -/
theorem inClass_map_add {k : Nat} {early : List Nat} (hearly : ∀ b ∈ early, b < k)
    (classes closers : List Nat) (n : Nat) :
    inClass (classes.map (k + ·)) (early ++ closers.map (k + ·)) (k + n) =
      inClass classes closers n := by
  have hconcat := inClass_concat (List.forall_mem_nil _) hearly classes closers n
  rw [List.nil_append] at hconcat
  rw [hconcat]
  split
  · next hnone =>
      rw [inClass, inClass, hnone.1]
      rfl
  · rfl

theorem inClass_eq_false {classes : List Nat} {n : Nat} (h : ∀ c ∈ classes, n ≤ c)
    (closers : List Nat) : inClass classes closers n = false := by
  rw [inClass, lastBefore_eq_none h]

theorem closers_below (line T : Text) :
    closers (line ++ T) = closersFrom .code 0 line ++
      (closersFrom (Quoting.code.after line) 0 T).map (width line + ·) := by
  rw [← closersFrom_add, Nat.add_zero]
  have happend := closersFrom_append .code 0 line T
  rwa [Nat.zero_add] at happend

end Site
end ProcedureIndex
