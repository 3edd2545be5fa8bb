import Mathlib.Data.List.Nodup
import Mathlib.Data.List.Perm.Basic
import ProcedureIndex.Proofs.Document.ClassBodies

/-!
What the scans of a text find in the same place. A scan finds its names one behind the
other, and each of them behind the keyword of the scan. No keyword ends in another, so
only scans with one keyword can meet: the scan of the whole text for functions and the
scans of the bodies of classes.
-/

namespace ProcedureIndex

open Text

namespace Text

/-- The text ends in a keyword and blanks behind it. -/
def EndsIn (keyword cs : Text) : Prop :=
  ∃ front gap, cs = front ++ (keyword ++ gap) ∧ ∀ c ∈ gap, isBlank c = true

theorem EndsIn.append_left {keyword cs : Text} (h : EndsIn keyword cs) (pre : Text) :
    EndsIn keyword (pre ++ cs) := by
  obtain ⟨front, gap, rfl, hgap⟩ := h
  exact ⟨pre ++ front, gap, by rw [List.append_assoc], hgap⟩

theorem EndsIn.suffix_trimEnd {keyword cs : Text} (h : EndsIn keyword cs) (hk : IsName keyword) :
    keyword <:+ trimEnd cs := by
  obtain ⟨front, gap, rfl, hgap⟩ := h
  rw [← List.append_assoc, trimEnd_append_blanks hgap, hk.trimEnd_append]
  exact List.suffix_append front keyword

/-- Two keywords with which a text ends: one of them is the end of the other. -/
theorem EndsIn.suffix_or_suffix {k k' cs : Text} (h : EndsIn k cs) (h' : EndsIn k' cs)
    (hk : IsName k) (hk' : IsName k') : k <:+ k' ∨ k' <:+ k :=
  List.suffix_or_suffix_of_suffix (h.suffix_trimEnd hk) (h'.suffix_trimEnd hk')

theorem endsIn_of_named? {keyword cs lead name rest : Text}
    (h : named? keyword cs = some ((lead, name), rest)) : EndsIn keyword lead := by
  simp only [named?, bind, Option.bind_eq_some_iff] at h
  obtain ⟨r, -, ⟨gap, r'⟩, hgap, ⟨n, r''⟩, -, he⟩ := h
  cases he
  exact ⟨[], gap, rfl, all_of_some? hgap⟩

instance (name : Text) : Decidable (IsName name) :=
  decidable_of_iff (name.head?.any isNameStart = true ∧ name.all isNameContinue = true)
    ⟨fun h => ⟨h.1, List.all_eq_true.1 h.2⟩, fun h => ⟨h.start, List.all_eq_true.2 h.all⟩⟩

/-- Every header of a pattern has a lead that ends in the keyword, and more behind it. -/
structure Leads {α : Type} (keyword : Text) (lead : α → Text) (p : Pattern α) : Prop where
  split : ∀ {prev cs a rest}, p prev cs = some (a, rest) →
    ∃ taken, taken ≠ [] ∧ cs = lead a ++ (taken ++ rest)
  endsIn : ∀ {prev cs a rest}, p prev cs = some (a, rest) → EndsIn keyword (lead a)

namespace Leads

variable {α : Type} {keyword : Text} {lead : α → Text} {p : Pattern α}

theorem exists_split (hl : Leads keyword lead p) {cs : Text} {h : Hit α} (hm : h ∈ hits p cs) :
    ∃ before behind, cs = before ++ behind ∧ width before = h.start + width (lead h.value) ∧
      EndsIn keyword before := by
  obtain ⟨pre, suf, hcs, hstart, hp⟩ := mem_hits hm
  obtain ⟨taken, -, hsuf⟩ := hl.split hp
  refine ⟨pre ++ lead h.value, taken ++ h.rest, ?_, ?_, (hl.endsIn hp).append_left pre⟩
  · rw [hcs, hsuf, List.append_assoc]
  · rw [width_append, hstart]

theorem hits_pairwise (hl : Leads keyword lead p) (cs : Text) :
    (hits p cs).Pairwise fun g h =>
      g.start + width (lead g.value) < h.start + width (lead h.value) :=
  (hitsFrom_pairwise hl.split none 0 0 cs).imp fun hlt => Nat.lt_add_right _ hlt

end Leads
end Text

theorem FnHeader.leads : Leads keyword lead pattern where
  split := by
    intro prev cs h rest hp
    obtain ⟨gap, behind, hcs, -, hrest⟩ := pattern_split hp
    refine ⟨(h.name ++ gap) ++ '(' :: behind.takeWhile (· != ')'), by simp, ?_⟩
    rw [hcs, hrest]
    simp only [List.append_assoc, List.cons_append, List.takeWhile_append_dropWhile]
  endsIn hp := by
    rw [pattern] at hp
    split at hp
    · cases hp
    · split at hp
      · obtain ⟨⟨h', rest'⟩, hplain, he⟩ := Option.map_eq_some_iff.1 hp
        cases he
        simp only [plain?, bind, Option.bind_eq_some_iff] at hplain
        obtain ⟨⟨⟨lead, name⟩, r⟩, hn, behind, -, he⟩ := hplain
        cases he
        exact (endsIn_of_named? hn).append_left _
      · simp only [plain?, bind, Option.bind_eq_some_iff] at hp
        obtain ⟨⟨⟨lead, name⟩, r⟩, hn, behind, -, he⟩ := hp
        cases he
        exact endsIn_of_named? hn

theorem ClassHeader.leads : Leads keyword lead pattern where
  split := by
    intro prev cs h rest hp
    obtain ⟨more, hcs, -⟩ := pattern_split hp
    obtain ⟨⟨behind, hname⟩, -⟩ := pattern_eq_some hp
    refine ⟨h.name ++ more, ?_, by rw [hcs]; simp only [List.append_assoc]⟩
    exact List.append_ne_nil_of_left_ne_nil hname.whole.ne_nil _
  endsIn hp := by
    rw [pattern] at hp
    split at hp
    · cases hp
    · simp only [bind, Option.bind_eq_some_iff] at hp
      obtain ⟨⟨⟨lead, name⟩, behind⟩, hn, hp⟩ := hp
      split at hp
      · cases hp
        exact endsIn_of_named? hn
      · cases hp
        exact endsIn_of_named? hn

theorem PipelineHeader.leads : Leads keyword lead pattern where
  split hp := by
    have hname := pattern_eq_some hp
    exact ⟨_, hname.whole.ne_nil, hname.split⟩
  endsIn hp := by
    rw [pattern] at hp
    split at hp
    · cases hp
    · obtain ⟨⟨⟨lead, name⟩, behind⟩, hn, he⟩ := Option.map_eq_some_iff.1 hp
      cases he
      exact endsIn_of_named? hn

namespace LineHeader

theorem endsIn_of_named? {keyword line lead name rest : Text}
    (h : named? keyword line = some ((lead, name), rest)) : EndsIn keyword lead := by
  simp only [named?, bind, Option.bind_eq_some_iff] at h
  obtain ⟨r, -, ⟨gap, r'⟩, hgap, ⟨n, r''⟩, -, he⟩ := h
  cases he
  refine ⟨line.takeWhile isSpacing, gap, List.append_assoc _ _ _, ?_⟩
  intro c hc
  exact isBlank_of_isSpacing (all_of_some? hgap c hc)

structure Leads (keyword : Text) (recognise : Text → Option LineHeader) : Prop where
  split : ∀ {line h}, recognise line = some h → ∃ behind, behind ≠ [] ∧ line = h.lead ++ behind
  endsIn : ∀ {line h}, recognise line = some h → EndsIn keyword h.lead

theorem leads_assigned? (keyword : Text) : Leads keyword (assigned? keyword) where
  split hp := by
    obtain ⟨behind, hname⟩ := assigned?_eq_some hp
    exact ⟨_, List.append_ne_nil_of_left_ne_nil hname.whole.ne_nil behind, hname.split⟩
  endsIn hp := by
    simp only [assigned?, bind, Option.bind_eq_some_iff] at hp
    obtain ⟨⟨⟨lead, name⟩, rest⟩, hn, value, -, he⟩ := hp
    cases he
    exact endsIn_of_named? hn

theorem leads_spaced? (keyword : Text) : Leads keyword (spaced? keyword) where
  split hp := by
    obtain ⟨behind, hname⟩ := spaced?_eq_some hp
    exact ⟨_, List.append_ne_nil_of_left_ne_nil hname.whole.ne_nil behind, hname.split⟩
  endsIn hp := by
    simp only [spaced?, bind, Option.bind_eq_some_iff] at hp
    obtain ⟨⟨⟨lead, name⟩, rest⟩, hn, hp⟩ := hp
    cases rest with
    | nil =>
        cases hp
        exact endsIn_of_named? hn
    | cons c cs =>
        simp only at hp
        split at hp
        · cases hp
          exact endsIn_of_named? hn
        · cases hp

theorem linesFrom_pairwise (offset : Nat) (ls : List Text) :
    (linesFrom offset ls).Pairwise fun a b => a.1 + width a.2 < b.1 := by
  induction ls generalizing offset with
  | nil => exact List.Pairwise.nil
  | cons l ls ih =>
      refine List.pairwise_cons.2 ⟨?_, ih _⟩
      intro b hb
      obtain ⟨front, back, -, hoffset, -⟩ := Site.exists_split_of_mem_linesFrom hb
      change offset + width l < b.1
      omega

end LineHeader

namespace Site

def Led (keyword cs : Text) (site : Site) : Prop :=
  EndsIn keyword (takeBytes site.start cs)

theorem led_of_split {keyword cs : Text} {site : Site} (before behind : Text)
    (hcs : cs = before ++ behind) (hwidth : width before = site.start)
    (h : EndsIn keyword before) : site.Led keyword cs := by
  rw [Led, hcs, ← hwidth, takeBytes_width_append]
  exact h

structure Scanned (keyword cs : Text) (sites : List Site) : Prop where
  led : ∀ x ∈ sites, x.Led keyword cs
  ascending : sites.Pairwise fun x y => x.start < y.start

theorem scanned_of_hits {α : Type} {keyword : Text} {lead : α → Text} {p : Pattern α}
    (hl : Leads keyword lead p) {cs : Text} {hs : List (Hit α)} (hsub : hs.Sublist (hits p cs))
    {f : Hit α → Site} (hf : ∀ h, (f h).start = h.start + width (lead h.value)) :
    Scanned keyword cs (hs.map f) where
  led := by
    intro x hx
    obtain ⟨h, hm, rfl⟩ := List.mem_map.1 hx
    obtain ⟨before, behind, hcs, hwidth, hends⟩ := hl.exists_split (hsub.subset hm)
    exact led_of_split before behind hcs (hwidth.trans (hf h).symm) hends
  ascending := by
    rw [List.pairwise_map]
    refine ((hl.hits_pairwise cs).sublist hsub).imp ?_
    intro g h hlt
    rwa [hf, hf]

theorem scanned_functions (cs : Text) : Scanned FnHeader.keyword cs (functions cs) :=
  scanned_of_hits FnHeader.leads List.filter_sublist fun _ => rfl

theorem scanned_pipelines (cs : Text) : Scanned PipelineHeader.keyword cs (pipelines cs) :=
  scanned_of_hits PipelineHeader.leads (List.Sublist.refl _) fun _ => rfl

def ofClass (k : Hit ClassHeader) : Site :=
  ⟨k.start, k.start + width k.value.lead, k.value.name,
    .classType (k.value.parent.map String.ofList)⟩

def methodsOf (cs : Text) (k : Hit ClassHeader) : List Site :=
  match body? (width cs) k.rest with
  | some (base, body) => methods k.value.name base body
  | none => []

theorem types_eq (cs : Text) :
    types cs = (classes cs).flatMap fun k => ofClass k :: methodsOf cs k := rfl

theorem scanned_ofClass (cs : Text) :
    Scanned ClassHeader.keyword cs ((classes cs).map ofClass) :=
  scanned_of_hits ClassHeader.leads (List.Sublist.refl _) fun _ => rfl

theorem scanned_methodsOf {cs : Text} {k : Hit ClassHeader} (hk : k ∈ classes cs) :
    Scanned FnHeader.keyword cs (methodsOf cs k) := by
  rw [methodsOf]
  split
  · next base body hbody =>
      obtain ⟨front, back, hsplit, hbase, -⟩ := exists_split_of_classBody hk hbody
      refine ⟨?_, ?_⟩
      · intro x hx
        obtain ⟨h, hm, rfl⟩ := List.mem_map.1 hx
        obtain ⟨before, behind, rfl, hwidth, hends⟩ := FnHeader.leads.exists_split hm
        refine led_of_split (front ++ before) (behind ++ back) ?_ ?_ (hends.append_left front)
        · rw [hsplit, List.append_assoc, List.append_assoc]
        · rw [width_append, hbase, hwidth, Nat.add_assoc]
      · rw [methods, List.pairwise_map]
        refine (FnHeader.leads.hits_pairwise body).imp ?_
        intro g h hlt
        change base + g.start + width g.value.lead < base + h.start + width h.value.lead
        omega
  · exact ⟨List.forall_mem_nil _, List.Pairwise.nil⟩

theorem scanned_onLines {keyword : Text} {recognise : Text → Option LineHeader}
    (hl : LineHeader.Leads keyword recognise) (form : String → SymbolForm) (cs : Text) :
    Scanned keyword cs (onLines recognise form cs) where
  led := by
    intro x hx
    simp only [onLines, LineHeader.all, List.mem_map, List.mem_filterMap] at hx
    obtain ⟨⟨o, header⟩, ⟨⟨o', line⟩, hline, hsome⟩, rfl⟩ := hx
    obtain ⟨header', hheader, heq⟩ := Option.map_eq_some_iff.1 hsome
    cases heq
    obtain ⟨front, back, hjoin, hoffset, -⟩ := exists_split_of_mem_linesFrom hline
    rw [intercalate_lines] at hjoin
    obtain ⟨behind, -, hsplit⟩ : ∃ behind, behind ≠ [] ∧ line = header.lead ++ behind :=
      hl.split hheader
    refine led_of_split (front ++ header.lead) (behind ++ back) ?_ ?_
      ((hl.endsIn hheader).append_left front)
    · rw [hjoin, hsplit, List.append_assoc, List.append_assoc]
    · rw [width_append, ← hoffset, Nat.zero_add]
  ascending := by
    rw [onLines, List.pairwise_map, LineHeader.all]
    refine (LineHeader.linesFrom_pairwise 0 (lines cs)).filterMap _ ?_
    intro a b hlt x hx y hy
    obtain ⟨h, hh, rfl⟩ := Option.map_eq_some_iff.1 hx
    obtain ⟨h', -, rfl⟩ := Option.map_eq_some_iff.1 hy
    obtain ⟨behind, hne, hsplit⟩ := hl.split hh
    have hpos := width_pos hne
    change a.1 + width h.lead < b.1 + width h'.lead
    rw [hsplit, width_append] at hlt
    omega

/-- The scans for functions: of the whole text, and of the body of each class. -/
def fnScans (cs : Text) : List (List Site) :=
  functions cs :: (classes cs).map (methodsOf cs)

def otherScans (cs : Text) : List (Text × List Site) :=
  [(PipelineHeader.keyword, pipelines cs),
    (ClassHeader.keyword, (classes cs).map ofClass),
    ("alias".toList, aliases cs),
    ("macro".toList, macros cs),
    ("const".toList, constants cs)]

theorem scanned_of_mem_fnScans {cs : Text} {sites : List Site} (h : sites ∈ fnScans cs) :
    Scanned FnHeader.keyword cs sites := by
  rcases List.mem_cons.1 h with rfl | h
  · exact scanned_functions cs
  · obtain ⟨k, hk, rfl⟩ := List.mem_map.1 h
    exact scanned_methodsOf hk

theorem scanned_of_mem_otherScans {cs : Text} {scan : Text × List Site}
    (h : scan ∈ otherScans cs) : Scanned scan.1 cs scan.2 := by
  simp only [otherScans, List.mem_cons, List.not_mem_nil, or_false] at h
  rcases h with rfl | rfl | rfl | rfl | rfl
  · exact scanned_pipelines cs
  · exact scanned_ofClass cs
  · exact scanned_onLines (LineHeader.leads_assigned? _) .typeAlias cs
  · exact scanned_onLines (LineHeader.leads_spaced? _) .macroText cs
  · exact scanned_onLines (LineHeader.leads_assigned? _) .constant cs

/-- Two words, neither of which is the end of the other. -/
def Unlike (k k' : Text) : Prop :=
  IsName k ∧ IsName k' ∧ ¬ k <:+ k' ∧ ¬ k' <:+ k

instance (k k' : Text) : Decidable (Unlike k k') :=
  inferInstanceAs (Decidable (_ ∧ _))

theorem Scanned.start_ne {k k' cs : Text} {xs ys : List Site} (hx : Scanned k cs xs)
    (hy : Scanned k' cs ys) (h : Unlike k k') {x y : Site} (hxm : x ∈ xs) (hym : y ∈ ys) :
    x.start ≠ y.start := by
  intro heq
  have hled := hx.led x hxm
  rw [Led, heq] at hled
  obtain ⟨hk, hk', hs, hs'⟩ := h
  exact (hled.suffix_or_suffix (hy.led y hym) hk hk').elim hs hs'

theorem unlike_otherScans (cs : Text) :
    (∀ scan ∈ otherScans cs, Unlike FnHeader.keyword scan.1) ∧
      (otherScans cs).Pairwise fun a b => Unlike a.1 b.1 := by
  have hkeys : (FnHeader.keyword :: (otherScans cs).map Prod.fst).Pairwise Unlike := by
    change [FnHeader.keyword, PipelineHeader.keyword, ClassHeader.keyword, "alias".toList,
      "macro".toList, "const".toList].Pairwise Unlike
    decide +kernel
  rw [List.pairwise_cons, List.pairwise_map] at hkeys
  exact ⟨fun scan hscan => hkeys.1 _ (List.mem_map_of_mem hscan), hkeys.2⟩

theorem all_perm (cs : Text) :
    (all cs).Perm ((fnScans cs).flatten ++ (otherScans cs).flatMap Prod.snd) := by
  have htypes : (types cs).Perm
      ((classes cs).map ofClass ++ ((classes cs).map (methodsOf cs)).flatten) := by
    rw [types_eq]
    exact (List.map_append_flatMap_perm (classes cs) ofClass (methodsOf cs)).symm
  rw [List.perm_iff_count] at htypes ⊢
  intro site
  have hcount := htypes site
  simp only [List.count_append] at hcount
  simp only [all, fnScans, otherScans, List.flatten_cons, List.flatMap_cons, List.flatMap_nil,
    List.count_append, List.count_nil, hcount]
  omega

/-- Among the declarations of a text that are looked at, no two stand in one place unless two scans
for functions find them there. -/
theorem start_ne_iff (cs : Text) (looked : Site → Prop) :
    (all cs).Pairwise (fun x y => looked x → looked y → x.start ≠ y.start) ↔
      (fnScans cs).Pairwise fun xs ys =>
        ∀ x ∈ xs, ∀ y ∈ ys, looked x → looked y → x.start ≠ y.start := by
  obtain ⟨hfn, hother⟩ := unlike_otherScans cs
  have hsymm : ∀ {x y : Site}, (looked x → looked y → x.start ≠ y.start) →
      looked y → looked x → y.start ≠ x.start := fun h hy hx => (h hx hy).symm
  rw [(all_perm cs).pairwise_iff hsymm, List.pairwise_append, List.pairwise_flatten,
    List.pairwise_flatMap]
  constructor
  · intro h
    exact h.1.2
  · intro h
    refine ⟨⟨?_, h⟩, ⟨?_, ?_⟩, ?_⟩
    · intro xs hxs
      exact (scanned_of_mem_fnScans hxs).ascending.imp fun hlt _ _ => hlt.ne
    · intro scan hscan
      exact (scanned_of_mem_otherScans hscan).ascending.imp fun hlt _ _ => hlt.ne
    · refine hother.imp_of_mem ?_
      intro a b ha hb hunlike x hx y hy _ _
      exact (scanned_of_mem_otherScans ha).start_ne (scanned_of_mem_otherScans hb) hunlike hx hy
    · intro x hx y hy _ _
      obtain ⟨xs, hxs, hx⟩ := List.mem_flatten.1 hx
      obtain ⟨scan, hscan, hy⟩ := List.mem_flatMap.1 hy
      exact (scanned_of_mem_fnScans hxs).start_ne (scanned_of_mem_otherScans hscan)
        (hfn scan hscan) hx hy

def ofFn (h : Hit FnHeader) : Site :=
  ⟨h.start, h.start + width h.value.lead, h.value.name, .function (versionIn h.value.params)⟩

theorem functions_eq (cs : Text) :
    functions cs = ((hits FnHeader.pattern cs).filter fun h =>
      !inClass ((classes cs).map Hit.start) (closers cs) h.start).map ofFn := rfl

theorem mem_functions {cs : Text} {hit : Hit FnHeader} (hhit : hit ∈ hits FnHeader.pattern cs)
    (hin : inClass ((classes cs).map Hit.start) (closers cs) hit.start = false) :
    ofFn hit ∈ functions cs := by
  rw [functions_eq]
  exact List.mem_map_of_mem (List.mem_filter.2 ⟨hhit, by rw [hin]; rfl⟩)

theorem mem_all_of_mem_functions {cs : Text} {site : Site} (h : site ∈ functions cs) :
    site ∈ all cs := by
  simp only [all, List.mem_append, h, true_or]

/-- What is declared besides functions has no version, or is a method. -/
theorem exists_all_eq (cs : Text) :
    ∃ others, all cs = functions cs ++ others ∧ ∀ site ∈ others,
      (∀ file text, (site.symbol file text).version = none) ∨
        ∃ k ∈ classes cs, site ∈ methodsOf cs k := by
  refine ⟨pipelines cs ++ (types cs ++ (aliases cs ++ (macros cs ++ constants cs))),
    by simp only [all, List.append_assoc], ?_⟩
  intro site hsite
  simp only [List.mem_append] at hsite
  rcases hsite with h | h | h | h | h
  · obtain ⟨hit, -, rfl⟩ := List.mem_map.1 h
    exact .inl fun _ _ => rfl
  · rw [types_eq] at h
    obtain ⟨k, hk, h⟩ := List.mem_flatMap.1 h
    rcases List.mem_cons.1 h with rfl | h
    · exact .inl fun _ _ => rfl
    · exact .inr ⟨k, hk, h⟩
  · obtain ⟨l, -, rfl⟩ := List.mem_map.1 h
    exact .inl fun _ _ => rfl
  · obtain ⟨l, -, rfl⟩ := List.mem_map.1 h
    exact .inl fun _ _ => rfl
  · obtain ⟨l, -, rfl⟩ := List.mem_map.1 h
    exact .inl fun _ _ => rfl

theorem mem_all_of_mem_types {cs : Text} {site : Site} (h : site ∈ types cs) : site ∈ all cs := by
  simp only [all, List.mem_append, h, true_or, or_true]

/-- Every declaration stands behind a keyword. -/
theorem exists_led {cs : Text} {site : Site} (h : site ∈ all cs) :
    ∃ keyword, IsName keyword ∧ site.Led keyword cs := by
  rw [(all_perm cs).mem_iff, List.mem_append] at h
  rcases h with h | h
  · obtain ⟨sites, hsites, h⟩ := List.mem_flatten.1 h
    exact ⟨_, by decide +kernel, (scanned_of_mem_fnScans hsites).led site h⟩
  · obtain ⟨scan, hscan, h⟩ := List.mem_flatMap.1 h
    obtain ⟨-, hkey, -⟩ := (unlike_otherScans cs).1 scan hscan
    exact ⟨_, hkey, (scanned_of_mem_otherScans hscan).led site h⟩

theorem mem_functions_of_form {cs : Text} {site : Site} (h : site ∈ all cs)
    {version : Option String} (hform : site.form = .function version) : site ∈ functions cs := by
  have hother : ∀ recognise form, (∀ s, form s ≠ SymbolForm.function version) →
      site ∉ onLines recognise form cs := by
    intro recognise form hne hmem
    obtain ⟨l, -, rfl⟩ := List.mem_map.1 hmem
    exact hne _ hform
  simp only [all, List.mem_append] at h
  rcases h with ((((h | h) | h) | h) | h) | h
  · exact h
  · obtain ⟨hit, -, rfl⟩ := List.mem_map.1 h
    cases hform
  · rw [types_eq] at h
    obtain ⟨k, -, h⟩ := List.mem_flatMap.1 h
    rcases List.mem_cons.1 h with rfl | h
    · cases hform
    · rw [methodsOf] at h
      split at h
      · obtain ⟨hit, -, rfl⟩ := List.mem_map.1 h
        cases hform
      · cases h
  · exact absurd h (hother _ _ fun _ h => by cases h)
  · exact absurd h (hother _ _ fun _ h => by cases h)
  · exact absurd h (hother _ _ fun _ h => by cases h)

theorem hit_eq_of_place {cs : Text} {g h : Hit FnHeader} (hg : g ∈ hits FnHeader.pattern cs)
    (hh : h ∈ hits FnHeader.pattern cs)
    (hplace : g.start + width g.value.lead = h.start + width h.value.lead) : g = h := by
  have hnodup : ((hits FnHeader.pattern cs).map
      fun h => h.start + width h.value.lead).Nodup := by
    rw [List.Nodup, List.pairwise_map]
    exact (FnHeader.leads.hits_pairwise cs).imp fun hlt => hlt.ne
  exact List.inj_on_of_nodup_map hnodup hg hh hplace

/-- A function header is recorded as a function if, and only if, it does not count as lying in a
class. -/
theorem exists_function_iff {cs : Text} {hit : Hit FnHeader}
    (hhit : hit ∈ hits FnHeader.pattern cs) :
    (∃ site ∈ functions cs, site.start = hit.start + width hit.value.lead) ↔
      inClass ((classes cs).map Hit.start) (closers cs) hit.start = false := by
  constructor
  · rintro ⟨site, hsite, hstart⟩
    rw [functions_eq] at hsite
    obtain ⟨other, hother, rfl⟩ := List.mem_map.1 hsite
    obtain ⟨hmem, hin⟩ := List.mem_filter.1 hother
    rw [← hit_eq_of_place hmem hhit hstart]
    simpa using hin
  · intro hin
    exact ⟨ofFn hit, mem_functions hhit hin, rfl⟩

end Site
end ProcedureIndex
