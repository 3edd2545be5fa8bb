import ProcedureIndex.Proofs.Diagnostic.Repetition

/-!
Whether the first declaration comes first. A repetition is reported against the declaration
that was recorded first, and declarations are recorded scan by scan. One scan records them in
the order of the text, so a report points forward only where two scans record the same key:
those for functions and pipelines, for classes and aliases, for macros and constants, and
those of the bodies of two classes with one name.
-/

namespace ProcedureIndex

open Text

namespace Site

open Duplicates

/-- Recorded by another scan, `x` comes behind `y` in the record and not behind it in the text. Only
methods can be recorded twice in one place. -/
inductive OutOfTurn (cs : Text) : Site → Site → Prop
  | pipeline {x y : Site} (hx : x ∈ pipelines cs) (hy : y ∈ functions cs)
      (hlt : x.start < y.start) : OutOfTurn cs x y
  | typeAlias {x : Site} {k : Hit ClassHeader} (hx : x ∈ aliases cs) (hk : k ∈ classes cs)
      (hlt : x.start < (ofClass k).start) : OutOfTurn cs x (ofClass k)
  | constant {x y : Site} (hx : x ∈ constants cs) (hy : y ∈ macros cs)
      (hlt : x.start < y.start) : OutOfTurn cs x y
  | method {x y : Site} {k k' : Hit ClassHeader} (hk : k ∈ classes cs) (hk' : k' ∈ classes cs)
      (hclasses : k.start < k'.start) (hname : k.value.name = k'.value.name)
      (hy : y ∈ methodsOf cs k) (hx : x ∈ methodsOf cs k') (hle : x.start ≤ y.start) :
      OutOfTurn cs x y

theorem OutOfTurn.not_lt {cs : Text} {x y : Site} (h : OutOfTurn cs x y) :
    ¬ y.start < x.start := by
  cases h with
  | pipeline _ _ hlt | typeAlias _ _ hlt | constant _ _ hlt => exact Nat.lt_asymm hlt
  | method _ _ _ _ _ _ hle => exact Nat.not_lt.2 hle

/-- Of two named places, the one with the smaller offset has the earlier position. -/
theorem position_before_iff {cs : Text} {x y : Site} (hx : x.Named cs) (hy : y.Named cs) :
    ((LineMap.ofText cs).position x.start).before ((LineMap.ofText cs).position y.start) = true ↔
      x.start < y.start := by
  have hbefore : ∀ {x y : Site}, x.Named cs → y.Named cs → x.start < y.start →
      ((LineMap.ofText cs).position x.start).before
        ((LineMap.ofText cs).position y.start) = true := by
    intro x y hx hy hlt
    obtain ⟨lead, behind, hname, hwidth⟩ := hx
    obtain ⟨lead', behind', hname', hwidth'⟩ := hy
    rw [← hwidth, ← hwidth'] at hlt ⊢
    have hsplit := hname'.split
    obtain ⟨m, rfl, -⟩ :=
      exists_between_cuts (hname.split.symm.trans hsplit) (Nat.le_of_lt hlt)
    have hm : m ≠ [] := by
      intro hnil
      rw [hnil, List.append_nil] at hlt
      exact Nat.lt_irrefl _ hlt
    rw [hsplit, List.append_assoc]
    exact LineMap.position_before lead hm _
  constructor
  · intro h
    rw [Position.before_iff] at h
    apply Nat.lt_of_not_le
    intro hle
    cases Nat.lt_or_eq_of_le hle with
    | inl hlt =>
        have hafter := Position.before_iff.1 (hbefore hy hx hlt)
        omega
    | inr heq =>
        rw [heq] at h
        omega
  · exact hbefore hx hy

/-- `y` is recorded in front of `x`: with the same key it also stands in front, or they are out of
turn. -/
def KeyOrdered (cs : Text) (y x : Site) : Prop :=
  y.key = x.key → y.start < x.start ∨ OutOfTurn cs x y

section Keys

variable {cs : Text} {x y : Site}

theorem keyOrdered_of_family {f f' : Family} (hy : Family.ofKind y.form.kind = f)
    (hx : Family.ofKind x.form.kind = f') (hne : f ≠ f') : KeyOrdered cs y x := by
  refine fun hkey => absurd hkey (key_ne_of_family ?_)
  rw [hy]
  exact fun h => hne (h.trans hx)

theorem keyOrdered_of_owner (hne : y.owner ≠ x.owner) : KeyOrdered cs y x := by
  exact fun hkey => absurd hkey (key_ne_of_owner hne)

theorem family_ne_value (h : x ∈ functions cs ++ pipelines cs ++ types cs ++ aliases cs) :
    Family.ofKind x.form.kind ≠ .value := by
  cases List.mem_append.1 h with
  | inl h =>
      cases List.mem_append.1 h with
      | inl h =>
          rw [(callable_of_mem_free h).1]
          exact nofun
      | inr h =>
          cases class_or_method_of_mem_types h with
          | inl h =>
              obtain ⟨k, -, rfl⟩ := h
              exact nofun
          | inr h =>
              obtain ⟨k, -, h⟩ := h
              rw [(callable_of_mem_methodsOf h).1]
              exact nofun
  | inr h =>
      rw [family_of_mem_aliases h]
      exact nofun

end Keys

theorem Scanned.keyOrdered {keyword cs : Text} {xs : List Site} (h : Scanned keyword cs xs) :
    xs.Pairwise (KeyOrdered cs) :=
  h.ascending.imp fun hlt _ => .inl hlt

/-- Scans with different keywords never meet, so their order in the text is strict. -/
theorem Scanned.lt_or_lt {k k' cs : Text} {xs ys : List Site} (hx : Scanned k cs xs)
    (hy : Scanned k' cs ys) (h : Unlike k k') {x y : Site} (hxm : x ∈ xs) (hym : y ∈ ys) :
    x.start < y.start ∨ y.start < x.start :=
  Nat.lt_or_gt_of_ne (hx.start_ne hy h hxm hym)

theorem classes_pairwise (cs : Text) : (classes cs).Pairwise fun k k' => k.start < k'.start :=
  (hitsFrom_pairwise ClassHeader.leads.split none 0 0 cs).imp fun hlt =>
    Nat.lt_of_le_of_lt (Nat.le_add_right _ _) hlt

/-- The classes are found one behind the other, and so are the methods in one body. -/
theorem types_pairwise (cs : Text) : (types cs).Pairwise (KeyOrdered cs) := by
  rw [types_eq, List.pairwise_flatMap]
  constructor
  · intro k hk
    refine List.pairwise_cons.2 ⟨?_, (scanned_methodsOf hk).keyOrdered⟩
    intro x hx
    exact keyOrdered_of_family rfl (callable_of_mem_methodsOf hx).1 nofun
  · have hheaders := (scanned_ofClass cs).ascending
    rw [List.pairwise_map] at hheaders
    refine ((classes_pairwise cs).and hheaders).imp_of_mem ?_
    intro k k' hk hk' hlt y hy x hx
    cases List.mem_cons.1 hy with
    | inl hy =>
        subst hy
        cases List.mem_cons.1 hx with
        | inl hx =>
            subst hx
            exact fun _ => .inl hlt.2
        | inr hx => exact keyOrdered_of_family rfl (callable_of_mem_methodsOf hx).1 nofun
    | inr hy =>
        have hyo := (callable_of_mem_methodsOf hy).2
        cases List.mem_cons.1 hx with
        | inl hx =>
            subst hx
            exact keyOrdered_of_family (callable_of_mem_methodsOf hy).1 rfl nofun
        | inr hx =>
            intro hkey
            have howner := (hyo.symm.trans (owner_of_key hkey)).trans
              (callable_of_mem_methodsOf hx).2
            have hname := String.ofList_injective (Option.some.inj howner)
            cases Nat.lt_or_ge y.start x.start with
            | inl hbefore => exact .inl hbefore
            | inr hle => exact .inr (.method hk hk' hlt.1 hname hy hx hle)

section Families

variable {cs : Text} {x y : Site}

theorem scanned_aliases (cs : Text) : Scanned "alias".toList cs (aliases cs) :=
  scanned_onLines (LineHeader.leads_assigned? _) .typeAlias cs

theorem scanned_macros (cs : Text) : Scanned "macro".toList cs (macros cs) :=
  scanned_onLines (LineHeader.leads_spaced? _) .macroText cs

theorem scanned_constants (cs : Text) : Scanned "const".toList cs (constants cs) :=
  scanned_onLines (LineHeader.leads_assigned? _) .constant cs

theorem keyOrdered_pipelines (hy : y ∈ functions cs) (hx : x ∈ pipelines cs) :
    KeyOrdered cs y x := by
  intro _
  have hunlike : Unlike FnHeader.keyword PipelineHeader.keyword := by decide +kernel
  exact ((scanned_functions cs).lt_or_lt (scanned_pipelines cs) hunlike hy hx).imp_right
    (.pipeline hx hy)

theorem keyOrdered_types (hy : y ∈ functions cs ++ pipelines cs) (hx : x ∈ types cs) :
    KeyOrdered cs y x := by
  obtain ⟨hfamily, howner⟩ := callable_of_mem_free hy
  cases class_or_method_of_mem_types hx with
  | inl h =>
      obtain ⟨k, -, rfl⟩ := h
      exact keyOrdered_of_family hfamily rfl nofun
  | inr h =>
      obtain ⟨k, -, h⟩ := h
      apply keyOrdered_of_owner
      rw [howner, (callable_of_mem_methodsOf h).2]
      exact nofun

theorem keyOrdered_aliases (hy : y ∈ functions cs ++ pipelines cs ++ types cs)
    (hx : x ∈ aliases cs) : KeyOrdered cs y x := by
  have hfamily := family_of_mem_aliases hx
  have hunlike : Unlike ClassHeader.keyword "alias".toList := by decide +kernel
  cases List.mem_append.1 hy with
  | inl hy => exact keyOrdered_of_family (callable_of_mem_free hy).1 hfamily nofun
  | inr hy =>
      cases class_or_method_of_mem_types hy with
      | inl h =>
          obtain ⟨k, hk, rfl⟩ := h
          intro _
          exact ((scanned_ofClass cs).lt_or_lt (scanned_aliases cs) hunlike
            (List.mem_map_of_mem hk) hx).imp_right (.typeAlias hx hk)
      | inr h =>
          obtain ⟨k, -, h⟩ := h
          exact keyOrdered_of_family (callable_of_mem_methodsOf h).1 hfamily nofun

theorem keyOrdered_macros (hy : y ∈ functions cs ++ pipelines cs ++ types cs ++ aliases cs)
    (hx : x ∈ macros cs) : KeyOrdered cs y x :=
  keyOrdered_of_family rfl (family_of_mem_macros hx) (family_ne_value hy)

theorem keyOrdered_constants
    (hy : y ∈ functions cs ++ pipelines cs ++ types cs ++ aliases cs ++ macros cs)
    (hx : x ∈ constants cs) : KeyOrdered cs y x := by
  have hunlike : Unlike "macro".toList "const".toList := by decide +kernel
  cases List.mem_append.1 hy with
  | inl hy => exact keyOrdered_of_family rfl (family_of_mem_constants hx) (family_ne_value hy)
  | inr hy =>
      intro _
      exact ((scanned_macros cs).lt_or_lt (scanned_constants cs) hunlike hy hx).imp_right
        (.constant hx hy)

/-- The families are recorded one after the other; each finds its own declarations in turn. -/
theorem all_pairwise (cs : Text) : (all cs).Pairwise (KeyOrdered cs) := by
  have hfree := List.pairwise_append.2 ⟨(scanned_functions cs).keyOrdered,
    (scanned_pipelines cs).keyOrdered, fun _ hy _ hx => keyOrdered_pipelines hy hx⟩
  have htypes := List.pairwise_append.2 ⟨hfree, types_pairwise cs,
    fun _ hy _ hx => keyOrdered_types hy hx⟩
  have haliases := List.pairwise_append.2 ⟨htypes, (scanned_aliases cs).keyOrdered,
    fun _ hy _ hx => keyOrdered_aliases hy hx⟩
  have hmacros := List.pairwise_append.2 ⟨haliases, (scanned_macros cs).keyOrdered,
    fun _ hy _ hx => keyOrdered_macros hy hx⟩
  exact List.pairwise_append.2 ⟨hmacros, (scanned_constants cs).keyOrdered,
    fun _ hy _ hx => keyOrdered_constants hy hx⟩

end Families

/-- The classes are recorded in the order of the text. -/
theorem exists_split_classes {cs : Text} {k k' : Hit ClassHeader} (hk : k ∈ classes cs)
    (hk' : k' ∈ classes cs) (hlt : k.start < k'.start) :
    ∃ front back, classes cs = front ++ back ∧ k ∈ front ∧ k' ∈ back := by
  obtain ⟨front, back, hsplit⟩ := List.append_of_mem hk'
  have hpairwise := classes_pairwise cs
  rw [hsplit, List.pairwise_append, List.pairwise_cons] at hpairwise
  rw [hsplit, List.mem_append, List.mem_cons] at hk
  refine ⟨front, k' :: back, hsplit, ?_, List.mem_cons_self⟩
  cases hk with
  | inl hk => exact hk
  | inr hk =>
      cases hk with
      | inl hk =>
          subst hk
          exact absurd hlt (Nat.lt_irrefl _)
      | inr hk => exact absurd (hpairwise.2.1.1 k hk) (Nat.lt_asymm hlt)

/-- What is out of turn is recorded behind the other. -/
theorem OutOfTurn.exists_split {cs : Text} {x y : Site} (h : OutOfTurn cs x y) :
    ∃ front back, all cs = front ++ back ∧ y ∈ front ∧ x ∈ back := by
  cases h with
  | pipeline hx hy _ =>
      exact ⟨functions cs, pipelines cs ++ types cs ++ aliases cs ++ macros cs ++ constants cs,
        by simp only [all, List.append_assoc], hy, by simp [hx]⟩
  | typeAlias hx hk _ =>
      have hclass : ofClass _ ∈ types cs := List.mem_flatMap.2 ⟨_, hk, List.mem_cons_self⟩
      exact ⟨functions cs ++ pipelines cs ++ types cs, aliases cs ++ macros cs ++ constants cs,
        by simp only [all, List.append_assoc], by simp [hclass], by simp [hx]⟩
  | constant hx hy _ =>
      exact ⟨functions cs ++ pipelines cs ++ types cs ++ aliases cs ++ macros cs, constants cs,
        rfl, by simp [hy], hx⟩
  | method hk hk' hlt _ hy hx _ =>
      obtain ⟨front, back, hclasses, hk, hk'⟩ := exists_split_classes hk hk' hlt
      have htypes : types cs = front.flatMap (fun k => ofClass k :: methodsOf cs k) ++
          back.flatMap fun k => ofClass k :: methodsOf cs k := by
        rw [types_eq, hclasses, List.flatMap_append]
      refine ⟨functions cs ++ pipelines cs ++ front.flatMap fun k => ofClass k :: methodsOf cs k,
        back.flatMap (fun k => ofClass k :: methodsOf cs k) ++ aliases cs ++ macros cs ++
          constants cs, by simp only [all, htypes, List.append_assoc], ?_, ?_⟩
      · exact List.mem_append_right _
          (List.mem_flatMap.2 ⟨_, hk, List.mem_cons_of_mem _ hy⟩)
      · simp only [List.append_assoc]
        exact List.mem_append_left _ (List.mem_flatMap.2 ⟨_, hk', List.mem_cons_of_mem _ hx⟩)

/-- Of the key of `x`, `y` was recorded first, and `x` behind it. -/
def Repeated (cs : Text) (x y : Site) : Prop :=
  ∃ rest, ((all cs).filter fun z => z.key = x.key) = y :: rest ∧ x ∈ rest

namespace Repeated

variable {cs : Text} {x y : Site}

theorem mem (h : Repeated cs x y) : x ∈ all cs ∧ y ∈ all cs ∧ y.key = x.key := by
  obtain ⟨rest, hfilter, hx⟩ := h
  have hmem : ∀ z ∈ y :: rest, z ∈ all cs ∧ z.key = x.key := by
    intro z hz
    rw [← hfilter] at hz
    simpa using hz
  exact ⟨(hmem x (List.mem_cons_of_mem y hx)).1, hmem y List.mem_cons_self⟩

theorem before_iff (h : Repeated cs x y) :
    ((LineMap.ofText cs).position y.start).before ((LineMap.ofText cs).position x.start) = true ↔
      y.start < x.start :=
  position_before_iff (named_of_mem_all h.mem.2.1) (named_of_mem_all h.mem.1)

theorem lt_or_outOfTurn (h : Repeated cs x y) : y.start < x.start ∨ OutOfTurn cs x y := by
  have hkey := h.mem.2.2
  obtain ⟨rest, hfilter, hx⟩ := h
  have hpairwise : (y :: rest).Pairwise (KeyOrdered cs) := by
    rw [← hfilter]
    exact (all_pairwise cs).sublist List.filter_sublist
  exact (List.pairwise_cons.1 hpairwise).1 x hx hkey

/-- What is out of turn with the first of its key repeats it. -/
theorem of_outOfTurn (h : OutOfTurn cs x y)
    (hfirst : ((all cs).filter fun z => z.key = x.key).head? = some y) : Repeated cs x y := by
  obtain ⟨front, back, hall, hy, hx⟩ := h.exists_split
  have hkey : y.key = x.key := by
    simpa using (List.mem_filter.1 (List.mem_of_head? hfirst)).2
  have hxback : x ∈ back.filter fun z => z.key = x.key := by simpa using hx
  have hyfront : y ∈ front.filter fun z => z.key = x.key := by simpa [hkey] using hy
  rw [hall, List.filter_append] at hfirst
  rw [Repeated, hall, List.filter_append]
  obtain ⟨z, zs, hz⟩ := List.exists_cons_of_ne_nil (List.ne_nil_of_mem hyfront)
  rw [hz] at hfirst ⊢
  cases hfirst
  exact ⟨zs ++ back.filter fun z => z.key = x.key, rfl, List.mem_append_right zs hxback⟩

end Repeated
end Site

open Duplicates

/-- Every report of a repetition points back, to one earlier place, exactly when no declaration
that is looked at is out of turn with the first of its key. -/
theorem first_declaration_first_iff (file : FileId) (cs : Text) (policy : DuplicatePolicy) :
    (∀ d ∈ checkFile file cs (parse file cs) policy, d.code = some Diagnostic.duplicateCode →
      ∃ r, d.related = [r] ∧ r.position.before d.start = true) ↔
    ∀ x y, Site.OutOfTurn cs x y → considers policy (x.symbol file cs) = true →
      ((Site.all cs).filter fun z => z.key = x.key).head? ≠ some y := by
  constructor
  · intro hback x y hturn hconsidered hfirst
    have hrepeated := Site.Repeated.of_outOfTurn hturn hfirst
    have ⟨rest, hfilter, hx⟩ := hrepeated
    have hreport : warning (x.symbol file cs) (y.symbol file cs) ∈
        checkFile file cs (parse file cs) policy :=
      List.mem_append_right _ (Site.mem_check_parse.2 ⟨x, y, rest, hconsidered, hfilter, hx, rfl⟩)
    obtain ⟨r, hr, hbefore⟩ := hback _ hreport rfl
    cases List.singleton_inj.1 hr
    exact hturn.not_lt (hrepeated.before_iff.1 hbefore)
  · intro hturn d hd hcode
    have hcheck := (List.mem_append.1 hd).resolve_left
      fun hbracket => Brackets.code_ne_duplicate hbracket hcode
    obtain ⟨x, y, rest, hconsidered, hfilter, hx, rfl⟩ := Site.mem_check_parse.1 hcheck
    have hrepeated : Site.Repeated cs x y := ⟨rest, hfilter, hx⟩
    refine ⟨_, rfl, hrepeated.before_iff.2 ?_⟩
    cases hrepeated.lt_or_outOfTurn with
    | inl hlt => exact hlt
    | inr hout =>
        refine absurd ?_ (hturn x y hout hconsidered)
        rw [hfilter]
        rfl

def functionBelow : Text := "pipeline a\nfn a() \x7b\x7d\n".toList

def classInNamesake : Text :=
  ("class A \x7b\n  class A \x7b\n    fn f(version: \"1\") \x7b\x7d\n  \x7d\n\x7d\n").toList

theorem first_declaration_below :
    ¬ (∀ d ∈ checkFile ⟨0⟩ functionBelow (parse ⟨0⟩ functionBelow) .all,
      d.code = some Diagnostic.duplicateCode →
        ∃ r, d.related = [r] ∧ r.position.before d.start = true) ∧
    ¬ (∀ d ∈ checkFile ⟨0⟩ classInNamesake (parse ⟨0⟩ classInNamesake) .versionedOnly,
      d.code = some Diagnostic.duplicateCode →
        ∃ r, d.related = [r] ∧ r.position.before d.start = true) := by
  constructor
  · obtain ⟨x, hx, y, hy, hlt, hfirst⟩ : ∃ x ∈ Site.pipelines functionBelow,
        ∃ y ∈ Site.functions functionBelow, x.start < y.start ∧
          ((Site.all functionBelow).filter fun z => z.key = x.key).head? = some y := by
      decide +kernel
    rw [first_declaration_first_iff]
    intro h
    exact h x y (.pipeline hx hy hlt) rfl hfirst
  · obtain ⟨k, hk, k', hk', hlt, hname, y, hy, x, hx, hle, hversion, hfirst⟩ :
        ∃ k ∈ Site.classes classInNamesake, ∃ k' ∈ Site.classes classInNamesake,
          k.start < k'.start ∧ k.value.name = k'.value.name ∧
          ∃ y ∈ Site.methodsOf classInNamesake k, ∃ x ∈ Site.methodsOf classInNamesake k',
            x.start ≤ y.start ∧ x.version.isSome = true ∧
            ((Site.all classInNamesake).filter fun z => z.key = x.key).head? = some y := by
      decide +kernel
    rw [first_declaration_first_iff]
    intro h
    exact h x y (.method hk hk' hlt hname hy hx hle) hversion hfirst

end ProcedureIndex
