import ProcedureIndex.Proofs.Document.LinesBelow
import ProcedureIndex.Proofs.Text.LineEnds

/-!
Scans of a text with a carriage return in front of every newline. Headers that may run over
lines take carriage returns for blanks, so every scan of the text at large finds the same
headers, further on; functions lie in the same classes, and the bodies of classes are the
same stretches. Only a version that runs over a line gets the carriage return.
-/

namespace ProcedureIndex

open Text

namespace Text

theorem suffix_of_cons_eq {c : Char} {cs m rest : Text} (hm : m ≠ []) (h : c :: cs = m ++ rest) :
    rest <:+ cs := by
  cases m with
  | nil => exact absurd rfl hm
  | cons d m =>
      cases h
      exact List.suffix_append m rest

theorem Returning.of_keyed {α : Type} {keys : List Text} {keyword : Text} {lead : α → Text}
    {p : Pattern α} {f : α → α} (hk : Keyed keys p) (hl : Leads keyword lead p)
    (returns : ∀ prev cs, p prev (withReturns cs) =
      (p prev cs).map fun r => (f r.1, withReturns r.2)) : Returning p f where
  returns := returns
  nil prev := hk.eq_none_of_edge prev edge_nil
  newline prev cs := hk.eq_none_of_edge prev (edge_cons (by decide))
  suffix hp := by
    obtain ⟨taken, hne, hcs⟩ := hl.split hp
    rw [← List.append_assoc] at hcs
    exact suffix_of_cons_eq (List.append_ne_nil_of_right_ne_nil _ hne) hcs

end Text

namespace ClassHeader

def returned (h : ClassHeader) : ClassHeader :=
  { h with lead := withReturns h.lead }

theorem parent?_withReturns (cs : Text) :
    parent? (withReturns cs) = (parent? cs).map fun r => (r.1, withReturns r.2) := by
  simp only [parent?, bind, Option.bind, blanks?, some?_withReturns (p := isBlank) rfl]
  cases some? isBlank cs with
  | none => rfl
  | some g =>
      simp only [Option.map_some, named?_withReturns "extends".toList (by decide)]
      cases Text.named? "extends".toList g.2 <;> rfl

theorem returning : Returning pattern returned := by
  refine .of_keyed keyed leads fun prev cs => ?_
  simp only [pattern]
  split
  · rfl
  · simp only [bind, Option.bind, named?_withReturns keyword (by decide)]
    cases Text.named? keyword cs with
    | none => rfl
    | some r =>
        simp only [Option.map_some, parent?_withReturns]
        cases parent? r.2 <;> rfl

end ClassHeader

namespace PipelineHeader

def returned (h : PipelineHeader) : PipelineHeader :=
  { h with lead := withReturns h.lead }

theorem returning : Returning pattern returned := by
  refine .of_keyed keyed leads fun prev cs => ?_
  simp only [pattern]
  split
  · rfl
  · rw [named?_withReturns keyword (by decide)]
    cases Text.named? keyword cs <;> rfl

end PipelineHeader

namespace FnHeader

def returned (h : FnHeader) : FnHeader :=
  { h with lead := withReturns h.lead, params := withReturns h.params }

theorem plain?_withReturns (cs : Text) :
    plain? (withReturns cs) = (plain? cs).map fun r => (r.1.returned, withReturns r.2) := by
  simp only [plain?, bind, Option.bind, named?_withReturns keyword (by decide)]
  cases Text.named? keyword cs with
  | none => rfl
  | some r =>
      simp only [Option.map_some, dropWhile_withReturns (p := isBlank) rfl,
        after?_withReturns (k := ['(']) (by decide)]
      cases after? ['('] (r.2.dropWhile isBlank) with
      | none => rfl
      | some params =>
          simp only [Option.map_some, takeWhile_withReturns (p := (· != ')')) rfl,
            dropWhile_withReturns (p := (· != ')')) rfl]
          rfl

theorem static?_withReturns (cs : Text) :
    static? (withReturns cs) = (static? cs).map fun r => (withReturns r.1, withReturns r.2) := by
  simp only [static?, bind, Option.bind, after?_withReturns (k := staticKeyword) (by decide)]
  cases after? staticKeyword cs with
  | none => rfl
  | some r =>
      simp only [Option.map_some, blanks?, some?_withReturns (p := isBlank) rfl]
      cases some? isBlank r with
      | none => rfl
      | some g =>
          have hkeyword : withReturns staticKeyword = staticKeyword :=
            withReturns_of_not_mem (by decide)
          simp only [Option.map_some, pure, withReturns_append, hkeyword]

theorem returning : Returning pattern returned := by
  refine .of_keyed keyed leads fun prev cs => ?_
  simp only [pattern]
  split
  · rfl
  · rw [static?_withReturns]
    cases static? cs with
    | none => exact plain?_withReturns cs
    | some r =>
        simp only [Option.map_some, plain?_withReturns]
        cases plain? r.2 with
        | none => rfl
        | some g =>
            simp only [Option.map_some, returned, withReturns_append]

end FnHeader

theorem versionPattern_returning : Returning versionPattern withReturns where
  returns prev cs := by
    simp only [versionPattern]
    split
    · rfl
    · simp only [bind, Option.bind, after?_withReturns (k := "version".toList) (by decide)]
      cases after? "version".toList cs with
      | none => rfl
      | some r =>
          simp only [Option.map_some, dropWhile_withReturns (p := isBlank) rfl,
            after?_withReturns (k := [':']) (by decide)]
          cases after? [':'] (r.dropWhile isBlank) with
          | none => rfl
          | some r =>
              simp only [Option.map_some, dropWhile_withReturns (p := isBlank) rfl,
                after?_withReturns (k := ['"']) (by decide)]
              cases after? ['"'] (r.dropWhile isBlank) with
              | none => rfl
              | some r =>
                  simp only [Option.map_some, dropWhile_withReturns (p := (· != '"')) rfl,
                    takeWhile_withReturns (p := (· != '"')) rfl,
                    after?_withReturns (k := ['"']) (by decide)]
                  cases after? ['"'] (r.dropWhile (· != '"')) <;> rfl
  nil prev := by
    rw [versionPattern]
    split <;> rfl
  newline prev cs := by
    rw [versionPattern]
    split <;> rfl
  suffix {prev c cs a rest} hp := by
    rw [versionPattern] at hp
    split at hp
    · cases hp
    · simp only [bind, Option.bind_eq_some_iff] at hp
      obtain ⟨name, hname, colon, hcolon, opened, hopened, behind, hbehind, he⟩ := hp
      cases he
      have hsuffix : ∀ {k cs rest : Text}, after? k cs = some rest → rest <:+ cs :=
        fun h => ⟨_, (after?_eq_some_iff.1 h).symm⟩
      have hkeyword : name <:+ cs := suffix_of_cons_eq (by decide) (after?_eq_some_iff.1 hname)
      exact (((hsuffix hbehind).trans (List.dropWhile_suffix _)).trans
        ((hsuffix hopened).trans (List.dropWhile_suffix _))).trans
          (((hsuffix hcolon).trans (List.dropWhile_suffix _)).trans hkeyword)

def returnedVersion (version : String) : String :=
  String.ofList (withReturns version.toList)

theorem versionIn_withReturns (params : Text) :
    versionIn (withReturns params) = (versionIn params).map returnedVersion := by
  rw [versionIn, versionIn, firstHit?, firstHit?, versionPattern_returning.hits_withReturns,
    List.head?_map, Option.map_map, Option.map_map]
  congr 1
  funext hit
  simp only [Function.comp, Hit.returned, returnedVersion, String.toList_ofList]

def SymbolForm.returned : SymbolForm → SymbolForm
  | .function version => .function (version.map returnedVersion)
  | .method owner version isStatic => .method owner (version.map returnedVersion) isStatic
  | form => form

theorem Text.Leads.moved_name {α : Type} {keyword : Text} {lead : α → Text} {p : Pattern α}
    (hl : Leads keyword lead p) {cs : Text} {h : Hit α} (hm : h ∈ hits p cs) :
    moved cs (h.start + width (lead h.value)) =
      moved cs h.start + width (withReturns (lead h.value)) := by
  obtain ⟨pre, suf, hcs, hstart, hp⟩ := mem_hits hm
  obtain ⟨taken, -, hsuf⟩ := hl.split hp
  rw [hcs, hsuf, hstart, moved_add, moved_width]

namespace Site

def returned (cs : Text) (site : Site) : Site :=
  ⟨moved cs site.header, moved cs site.start, site.name, site.form.returned⟩

variable {cs : Text}

theorem pipelines_withReturns (cs : Text) :
    pipelines (withReturns cs) = (pipelines cs).map (returned cs) := by
  rw [pipelines, pipelines, PipelineHeader.returning.hits_withReturns, List.map_map, List.map_map]
  apply List.map_congr_left
  intro hit hhit
  simp only [Function.comp, returned, PipelineHeader.leads.moved_name hhit]
  rfl

/-- Only the order of the places counts. -/
theorem inClass_map {g : Nat → Nat} {classes closers : List Nat} {n : Nat}
    (hclasses : ∀ c ∈ classes, g c < g n ↔ c < n) (hclosers : ∀ b ∈ closers, g b < g n ↔ b < n)
    (hboth : ∀ b ∈ closers, ∀ c ∈ classes, g b < g c ↔ b < c) :
    inClass (classes.map g) (closers.map g) (g n) = inClass classes closers n := by
  rw [inClass, inClass, lastBefore_map hclasses, lastBefore_map hclosers]
  cases hc : lastBefore classes n with
  | none => rfl
  | some c =>
      cases hb : lastBefore closers n with
      | none => rfl
      | some b => exact decide_eq_decide.2 (hboth b (lastBefore_mem hb) c (lastBefore_mem hc))

theorem isBoundary_of_mem_hits {α : Type} {p : Pattern α} {h : Hit α} (hm : h ∈ hits p cs) :
    isBoundary h.start cs = true := by
  obtain ⟨pre, suf, hcs, hstart, -⟩ := mem_hits hm
  rw [hcs, hstart]
  exact isBoundary_width pre suf

theorem isBoundary_of_mem_closers {b : Nat} (hb : b ∈ closers cs) : isBoundary b cs = true := by
  obtain ⟨⟨n, c⟩, hmem, hn⟩ := List.mem_map.1 hb
  obtain ⟨pre, suf, hcs, hstart⟩ := exists_split_of_mem_codeCharsFrom (List.mem_filter.1 hmem).1
  rw [← hn, hcs, hstart, Nat.zero_add]
  exact isBoundary_width pre (c :: suf)

theorem starts_withReturns (cs : Text) :
    (classes (withReturns cs)).map Hit.start = ((classes cs).map Hit.start).map (moved cs) := by
  rw [classes, ClassHeader.returning.hits_withReturns, List.map_map, List.map_map]
  rfl

theorem closers_withReturns (hcs : '\\' ∉ cs) :
    closers (withReturns cs) = (closers cs).map (moved cs) :=
  closersFrom_withReturns (q := .code) trivial [] hcs

theorem inClass_withReturns (hcs : '\\' ∉ cs) {n : Nat} (hn : isBoundary n cs = true) :
    inClass ((classes (withReturns cs)).map Hit.start) (closers (withReturns cs)) (moved cs n) =
      inClass ((classes cs).map Hit.start) (closers cs) n := by
  have hstart : ∀ c ∈ (classes cs).map Hit.start, isBoundary c cs = true := by
    intro c hc
    obtain ⟨hit, hhit, rfl⟩ := List.mem_map.1 hc
    exact isBoundary_of_mem_hits hhit
  rw [starts_withReturns, closers_withReturns hcs]
  apply inClass_map
  · intro c hc
    exact moved_lt_moved_iff (hstart c hc) hn
  · intro b hb
    exact moved_lt_moved_iff (isBoundary_of_mem_closers hb) hn
  · intro b hb c hc
    exact moved_lt_moved_iff (isBoundary_of_mem_closers hb) (hstart c hc)

theorem functions_withReturns (hcs : '\\' ∉ cs) :
    functions (withReturns cs) = (functions cs).map (returned cs) := by
  rw [functions_eq, functions_eq, FnHeader.returning.hits_withReturns, List.filter_map,
    List.map_map, List.map_map]
  have hfilter : (hits FnHeader.pattern cs).filter ((fun h =>
        !inClass ((classes (withReturns cs)).map Hit.start) (closers (withReturns cs)) h.start) ∘
          Hit.returned FnHeader.returned cs) =
      (hits FnHeader.pattern cs).filter fun h =>
        !inClass ((classes cs).map Hit.start) (closers cs) h.start := by
    apply List.filter_congr
    intro hit hhit
    exact congrArg not (inClass_withReturns hcs (isBoundary_of_mem_hits hhit))
  rw [hfilter]
  apply List.map_congr_left
  intro hit hhit
  simp only [Function.comp, ofFn, returned, FnHeader.leads.moved_name (List.mem_filter.1 hhit).1,
    SymbolForm.returned, Hit.returned, FnHeader.returned, versionIn_withReturns]

theorem body?_of_brace {rest inner : Text} (h : rest.dropWhile isBlank = '{' :: inner)
    (total : Nat) : body? total rest = some (total - width inner, untilClosed .code 1 inner) := by
  simp only [body?, h]

theorem body?_of_not_brace {rest : Text} (h : (rest.dropWhile isBlank).head? ≠ some '{')
    (total : Nat) : body? total rest = none := by
  rw [body?]
  split
  · next inner hinner =>
      rw [hinner] at h
      exact absurd rfl h
  · rfl

theorem body?_withReturns {taken rest : Text} (hcs : cs = taken ++ rest) (hrest : '\\' ∉ cs) :
    body? (width (withReturns cs)) (withReturns rest) =
      (body? (width cs) rest).map fun r => (moved cs r.1, withReturns r.2) := by
  have hdrop := dropWhile_withReturns (p := isBlank) rfl rest
  by_cases hbrace : (rest.dropWhile isBlank).head? = some '{'
  · obtain ⟨inner, hinner⟩ := List.head?_eq_some_iff.1 hbrace
    have hsplit : cs = (taken ++ (rest.takeWhile isBlank ++ ['{'])) ++ inner := by
      rw [hcs, List.append_assoc, List.append_assoc, List.singleton_append, ← hinner,
        List.takeWhile_append_dropWhile]
    have hplain : '\\' ∉ inner := fun h => hrest (hsplit ▸ List.mem_append_right _ h)
    rw [hinner, withReturns_cons (by decide)] at hdrop
    rw [body?_of_brace hdrop, body?_of_brace hinner,
      untilClosed_withReturns (q := .code) trivial 1 hplain]
    simp only [Option.map_some, Option.some.injEq, Prod.mk.injEq, and_true]
    rw [hsplit, withReturns_append, width_append, width_append, Nat.add_sub_cancel,
      Nat.add_sub_cancel, moved_width]
  · have hbrace' : ((withReturns rest).dropWhile isBlank).head? ≠ some '{' := by
      intro h
      have hhead := head?_withReturns (p := (· == '{')) rfl (rest.dropWhile isBlank)
      rw [← hdrop, h] at hhead
      cases hfirst : (rest.dropWhile isBlank).head? with
      | none => simp [hfirst] at hhead
      | some d => exact hbrace (by simpa [hfirst] using hhead)
    rw [body?_of_not_brace hbrace, body?_of_not_brace hbrace']
    rfl

theorem methods_withReturns {owner front body back : Text} (hcs : cs = front ++ (body ++ back)) :
    methods owner (moved cs (width front)) (withReturns body) =
      (methods owner (width front) body).map (returned cs) := by
  rw [methods, methods, FnHeader.returning.hits_withReturns, List.map_map, List.map_map]
  apply List.map_congr_left
  intro hit hhit
  obtain ⟨pre, suf, hbody, hstart, hp⟩ := mem_hits hhit
  obtain ⟨taken, -, hsuf⟩ := FnHeader.leads.split hp
  have hheader : moved cs (width front + hit.start) =
      moved cs (width front) + moved body hit.start := by
    rw [hstart, hcs, hbody, List.append_assoc, moved_add, moved_width, moved_width]
  have hname : moved cs (width front + hit.start + width hit.value.lead) =
      moved cs (width front) + moved body hit.start + width (withReturns hit.value.lead) := by
    have hsplit : cs = (front ++ pre) ++ (hit.value.lead ++ (taken ++ hit.rest ++ back)) := by
      rw [hcs, hbody, hsuf]
      simp only [List.append_assoc]
    rw [← hheader, hstart, ← width_append, hsplit, moved_add, moved_width]
  simp only [Function.comp, returned, hheader, hname, SymbolForm.returned, Hit.returned,
    FnHeader.returned, versionIn_withReturns]

theorem methodsOf_withReturns {k : Hit ClassHeader} (hk : k ∈ classes cs) (hcs : '\\' ∉ cs) :
    methodsOf (withReturns cs) (k.returned ClassHeader.returned cs) =
      (methodsOf cs k).map (returned cs) := by
  obtain ⟨pre, suf, hpre, -, hp⟩ := mem_hits hk
  obtain ⟨-, taken, htaken⟩ := ClassHeader.pattern_eq_some hp
  have hrest : cs = (pre ++ taken) ++ k.rest := by rw [hpre, htaken, List.append_assoc]
  have hbody := body?_withReturns hrest hcs
  simp only [methodsOf, Hit.returned, ClassHeader.returned, hbody]
  cases hfound : body? (width cs) k.rest with
  | none => rfl
  | some r =>
      obtain ⟨base, body⟩ := r
      obtain ⟨front, back, hsplit, hbase, -⟩ := exists_split_of_body? hrest hfound
      simp only [Option.map_some, ← hbase]
      exact methods_withReturns hsplit

theorem types_withReturns (hcs : '\\' ∉ cs) :
    types (withReturns cs) = (types cs).map (returned cs) := by
  rw [types_eq, types_eq, classes, ClassHeader.returning.hits_withReturns, List.flatMap_map,
    List.map_flatMap]
  apply List.flatMap_congr
  intro k hk
  rw [methodsOf_withReturns hk hcs, List.map_cons]
  congr 1
  simp only [ofClass, returned, ClassHeader.leads.moved_name hk]
  rfl

end Site
end ProcedureIndex
