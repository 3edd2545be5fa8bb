import ProcedureIndex.Proofs.Document.Overloads

/-!
Class headers in the versions of overloads. The search for classes looks into the strings,
so a version may open a class: its body, unless it is closed in the version, reaches to the
end of the document and takes the functions of the lines below for its methods, and a
version that ends in a backslash keeps them from being functions as well.
-/

namespace ProcedureIndex
namespace Site

open Text

variable {n v : Text} {vs us ws : List Text}

/-- Every class of the document is found on one of its lines. -/
theorem exists_overload_of_mem_classes {k : Hit ClassHeader} (hk : k ∈ classes (overloads n vs)) :
    ∃ us v ws k', vs = us ++ v :: ws ∧ k' ∈ classes (overload n v) ∧
      k = (k'.before (overloads n ws)).down (width (overloads n us)) := by
  induction vs generalizing k with
  | nil => cases hk
  | cons v vs ih =>
      rw [overloads_cons, (whole_overload n v).search, List.mem_append] at hk
      rcases hk with hk | hk
      · obtain ⟨k', hk', rfl⟩ := List.mem_map.1 hk
        refine ⟨[], v, vs, k', rfl, hk', ?_⟩
        rw [overloads_nil, Hit.down, width_nil, Nat.zero_add]
      · obtain ⟨k₀, hk₀, rfl⟩ := List.mem_map.1 hk
        obtain ⟨us, u, ws, k', rfl, hk', rfl⟩ := ih hk₀
        refine ⟨v :: us, u, ws, k', rfl, hk', ?_⟩
        rw [Hit.down_down, overloads_cons, width_append]

/-- And every class of a line is found in the document. -/
theorem mem_classes_overloads (us ws : List Text) {k : Hit ClassHeader}
    (hk : k ∈ classes (overload n v)) :
    (k.before (overloads n ws)).down (width (overloads n us)) ∈
      classes (overloads n (us ++ v :: ws)) := by
  rw [overloads_append, (whole_overloads n us).search, overloads_cons,
    (whole_overload n v).search, List.map_append]
  exact List.mem_append_right _ (List.mem_append_left _
    (List.mem_map_of_mem (List.mem_map_of_mem hk)))

/-- What follows a character that the lead does not have is of the version. -/
theorem mem_of_append_eq {a b x y : Text} {c d : Char} (hc : c ∉ a) (h : a ++ b = x ++ c :: y)
    (hd : d ∈ y) : d ∈ b := by
  obtain ⟨z, -, rfl⟩ := exists_split_behind h hc
  exact List.mem_append_right z (List.mem_cons_of_mem c hd)

/-- A body that starts on a line starts in the version. -/
theorem exists_body_of_overload (hn : IsName n) (hv : Quotable v) {k : Hit ClassHeader}
    (hk : k ∈ classes (overload n v)) {b inner : Text}
    (hinner : (k.rest ++ b).dropWhile isBlank = '{' :: inner) :
    ∃ u, '"' ∉ u ∧ inner = (u ++ overloadBack) ++ b ∧
      k.rest.dropWhile isBlank = '{' :: (u ++ overloadBack) := by
  rw [overload, closing_overloadBack.classes_concat] at hk
  obtain ⟨k₀, hk₀, rfl⟩ := List.mem_map.1 hk
  have hdrop : ∀ b, (k₀.rest ++ (overloadBack ++ b)).dropWhile isBlank =
      k₀.rest.dropWhile isBlank ++ (overloadBack ++ b) := by
    intro b
    exact dropWhile_append_of_stop (show (overloadBack ++ b).head?.any isBlank = false from rfl) _
  rw [Hit.before, List.append_assoc, hdrop] at hinner
  cases hrest : k₀.rest.dropWhile isBlank with
  | nil =>
      rw [hrest] at hinner
      cases hinner
  | cons c u =>
      rw [hrest] at hinner
      obtain ⟨rfl, rfl⟩ := List.cons.inj hinner
      have hback := hdrop []
      rw [List.append_nil, hrest] at hback
      refine ⟨u, ?_, (List.append_assoc ..).symm, hback⟩
      obtain ⟨pre, suf, hcs, -, hp⟩ := mem_hits hk₀
      obtain ⟨-, taken, rfl⟩ := ClassHeader.pattern_eq_some hp
      have hsplit : overloadLead n ++ v =
          (pre ++ (taken ++ k₀.rest.takeWhile isBlank)) ++ '{' :: u := by
        rw [hcs, ← hrest, List.append_assoc, List.append_assoc, List.takeWhile_append_dropWhile]
      intro hquote
      exact hv.noQuote (mem_of_append_eq (not_mem_overloadLead hn (by decide) (by decide)) hsplit
        hquote)

/-- Methods in a body with at most one quote have no version. -/
theorem version_of_mem_methods {owner body : Text} {base : Nat} (hbody : body.count '"' ≤ 1)
    {site : Site} (h : site ∈ methods owner base body) (file : FileId) (cs : Text) :
    (site.symbol file cs).version = none := by
  obtain ⟨hit, hhit, rfl⟩ := List.mem_map.1 h
  obtain ⟨pre, suf, rfl, -, hp⟩ := mem_hits hhit
  have hsub := (FnHeader.params_sublist hp).trans (List.sublist_append_right pre suf)
  exact versionIn_eq_none ((hsub.count_le '"').trans hbody)

/-- The body of a class on a line does not reach to the version of the next line, if there is no
next line or the body ends on its own. -/
theorem count_quote_le_one (hn : IsName n) (hv : Quotable v) {k : Hit ClassHeader}
    (hk : k ∈ classes (overload n v)) {b : Text} (hb : b = [] ∨ Contained (overload n v))
    {total base : Nat} {body : Text} (hbody : body? total (k.rest ++ b) = some (base, body)) :
    body.count '"' ≤ 1 := by
  rw [body?] at hbody
  split at hbody
  · next inner hinner =>
      cases hbody
      obtain ⟨u, hu, rfl, hline⟩ := exists_body_of_overload hn hv hk hinner
      have hclosed : untilClosed .code 1 ((u ++ overloadBack) ++ b) =
          untilClosed .code 1 (u ++ overloadBack) := by
        rcases hb with rfl | hb
        · rw [List.append_nil]
        · exact untilClosed_append_of_ne (hb.bodies k hk _ hline) b
      calc (untilClosed .code 1 ((u ++ overloadBack) ++ b)).count '"'
          ≤ (u ++ overloadBack).count '"' := by
            rw [hclosed]
            exact (untilClosed_isPrefix _ _ _).sublist.count_le _
        _ = 1 := by
            rw [List.count_append, List.count_eq_zero_of_not_mem hu]
            rfl
  · cases hbody

theorem mem_dropLast_of_append (hws : ws ≠ []) : v ∈ (us ++ v :: ws).dropLast := by
  rw [List.dropLast_append_of_ne_nil (List.cons_ne_nil v ws), List.dropLast_cons_of_ne_nil hws]
  exact List.mem_append_right us List.mem_cons_self

/-- Where every class ends on its line, no method of the document has a version. -/
theorem version_of_mem_methodsOf (hn : IsName n) (hvs : ∀ v ∈ vs, Quotable v)
    (hcontained : ∀ v ∈ vs.dropLast, Contained (overload n v)) {k : Hit ClassHeader}
    (hk : k ∈ classes (overloads n vs)) {site : Site} (h : site ∈ methodsOf (overloads n vs) k)
    (file : FileId) (cs : Text) : (site.symbol file cs).version = none := by
  obtain ⟨us, v, ws, k', rfl, hk', rfl⟩ := exists_overload_of_mem_classes hk
  have hb : overloads n ws = [] ∨ Contained (overload n v) := by
    cases ws with
    | nil => exact .inl rfl
    | cons w ws => exact .inr (hcontained v (mem_dropLast_of_append (List.cons_ne_nil w ws)))
  rw [methodsOf] at h
  split at h
  · next base body hbody =>
      have hcount := count_quote_le_one hn (hvs v (by simp)) hk' hb hbody
      exact version_of_mem_methods hcount h file cs
  · cases h

/-- Whether the function of a line counts as lying in a class is seen in the lines above it. -/
theorem inClass_overloads (n : Text) (us vs : List Text) :
    inClass ((classes (overloads n (us ++ vs))).map Hit.start) (closers (overloads n (us ++ vs)))
        (width (overloads n us)) = endsInClass (overloads n us) := by
  rw [overloads_append]
  exact (whole_overloads n us).inClass_append _

theorem endsInClass_overloads (hus : ∀ u ∈ us, endsInClass (overload n u) = false) :
    endsInClass (overloads n us) = false := by
  induction us using List.reverseRecOn with
  | nil => rfl
  | append_singleton us u ih =>
      rw [overloads_append, overloads_cons, overloads_nil, List.append_nil]
      exact (whole_overloads n us).endsInClass_eq_false
        (ih fun u' hu' => hus u' (List.mem_append_left _ hu')) (hus u (by simp))

/-- A search that starts anywhere above a line, but not in a word, finds the header of the line. -/
theorem exists_hit_of_overload (hn : IsName n) (hparen : ∀ u ∈ us ++ v :: ws, ')' ∉ u)
    {front inner : Text} (hfront : inWord front.getLast? = false)
    (hsplit : overloads n us = front ++ inner) :
    ∃ hit ∈ hits FnHeader.pattern (inner ++ overloads n (v :: ws)),
      hit.value = FnHeader.ofOverload n v := by
  have hmem := FnHeader.mem_hits_overload hn hparen
  have hle : width front ≤ width (overloads n us) := by
    rw [hsplit, width_append]
    exact Nat.le_add_right _ _
  rw [overloads_append, hsplit, List.append_assoc, ← hsplit] at hmem
  have hbehind := FnHeader.mem_hitsFrom_of_behind hfront hmem hle
  rw [← Nat.add_zero (width front), hitsFrom_add] at hbehind
  obtain ⟨hit, hhit, heq⟩ := List.mem_map.1 hbehind
  exact ⟨hit, hhit, congrArg Hit.value heq⟩

/-- A body that is open at the end of its line reaches to the end of the document. -/
theorem untilClosed_of_open (hn : IsName n) (hv : Quotable v) (hws : ∀ w ∈ ws, Quotable w)
    {k : Hit ClassHeader} (hk : k ∈ classes (overload n v)) {inner : Text}
    (hinner : k.rest.dropWhile isBlank = '{' :: inner)
    (hopen : untilClosed .code 1 inner = inner) :
    untilClosed .code 1 (inner ++ overloads n ws) = inner ++ overloads n ws := by
  obtain ⟨u, -, -, hu⟩ :=
    exists_body_of_overload (b := []) hn hv hk (by rw [List.append_nil, hinner])
  have hcode : Quoting.code.after inner = .code := by
    rw [hinner] at hu
    rw [(List.cons.inj hu).2]
    exact after_overloadBack .code u
  obtain ⟨depth, hdepth, hgo⟩ := exists_untilClosed_append_of_eq hopen (Nat.le_refl 1)
  rw [hgo, hcode, untilClosed_overloads hn hws hdepth]

/-- So the header of the next line is among its methods. -/
theorem exists_method_of_open {w : Text} (hn : IsName n)
    (hquotable : ∀ u ∈ us ++ v :: w :: ws, Quotable u)
    (hparen : ∀ u ∈ us ++ v :: w :: ws, ')' ∉ u) {k : Hit ClassHeader}
    (hk : k ∈ classes (overload n v)) {inner : Text}
    (hinner : k.rest.dropWhile isBlank = '{' :: inner)
    (hopen : untilClosed .code 1 inner = inner) :
    ∃ site ∈ all (overloads n (us ++ v :: w :: ws)), site.name = n ∧
      site.form = .method (String.ofList k.value.name) (some (String.ofList w)) false := by
  obtain ⟨pre, suf, hline, -, hp⟩ := mem_hits hk
  obtain ⟨-, taken, rfl⟩ := ClassHeader.pattern_eq_some hp
  have hsplit : overloads n (us ++ [v]) = (overloads n us ++ (pre ++ (taken ++
      k.rest.takeWhile isBlank)) ++ ['{']) ++ inner := by
    have hrest : k.rest = k.rest.takeWhile isBlank ++ '{' :: inner := by
      rw [← hinner, List.takeWhile_append_dropWhile]
    rw [overloads_append, overloads_cons, overloads_nil, List.append_nil, hline]
    nth_rewrite 1 [hrest]
    simp only [List.append_assoc, List.singleton_append]
  have hvs : us ++ v :: w :: ws = (us ++ [v]) ++ w :: ws := by simp
  obtain ⟨hit, hhit, hheader⟩ : ∃ hit ∈ hits FnHeader.pattern (inner ++ overloads n (w :: ws)),
      hit.value = FnHeader.ofOverload n w :=
    exists_hit_of_overload hn (hvs ▸ hparen) (by rw [List.getLast?_concat]; decide) hsplit
  have hreach : untilClosed .code 1 (inner ++ overloads n (w :: ws)) =
      inner ++ overloads n (w :: ws) :=
    untilClosed_of_open hn (hquotable v (by simp))
      (fun u hu => hquotable u (List.mem_append_right us (List.mem_cons_of_mem v hu)))
      hk hinner hopen
  have hbody : ∀ total, body? total (k.rest ++ overloads n (w :: ws)) =
      some (total - width (inner ++ overloads n (w :: ws)), inner ++ overloads n (w :: ws)) := by
    intro total
    have hdrop : (k.rest ++ overloads n (w :: ws)).dropWhile isBlank =
        '{' :: (inner ++ overloads n (w :: ws)) := by
      rw [List.dropWhile_append, hinner]
      rfl
    simp only [body?, hdrop, hreach]
  have hversion := FnHeader.versionIn_ofOverload (n := n) (hquotable w (by simp))
  have hsite := mem_types_of_methods (mem_classes_overloads us (w :: ws) hk) (hbody _)
    (List.mem_map_of_mem hhit)
  rw [hheader, hversion] at hsite
  exact ⟨_, mem_all_of_mem_types hsite, rfl, rfl⟩

end Site
end ProcedureIndex
