import Mathlib.Data.List.Induction
import Mathlib.Data.List.Nodup
import ProcedureIndex.Symbol.Table

/-!
What a table made of a list of symbols holds: under each name the symbols of that
name in their order, names in the order of first use, and no symbol but those of the
list.
-/

namespace ProcedureIndex

theorem Grouping.eraseDups_concat {β : Type} [BEq β] [LawfulBEq β] (bs : List β) (b : β) :
    (bs ++ [b]).eraseDups = if b ∈ bs then bs.eraseDups else bs.eraseDups ++ [b] := by
  rw [List.eraseDups_append]
  by_cases h : b ∈ bs
  · have hnew : [b].removeAll bs = [] := by
      rw [List.removeAll, List.filter_eq_nil_iff]
      simpa using h
    rw [if_pos h, hnew]
    simp
  · have hnew : [b].removeAll bs = [b] := by
      rw [List.removeAll, List.filter_eq_self]
      simpa using h
    rw [if_neg h, hnew]
    rfl

theorem nodup_eraseDups {β : Type} [BEq β] [LawfulBEq β] (values : List β) :
    values.eraseDups.Nodup := by
  induction values using List.reverseRecOn with
  | nil => exact List.nodup_nil
  | append_singleton values v ih =>
      rw [Grouping.eraseDups_concat]
      split
      · exact ih
      · next hnew =>
          apply ih.append (List.nodup_singleton v)
          simpa using hnew

namespace Grouping

variable {α : Type}

theorem values_push_perm (g : Grouping α) (name : String) (a : α) :
    (g.push name a).values.Perm (a :: g.values) := by
  obtain ⟨groups⟩ := g
  simp only [values, push]
  induction groups with
  | nil => simp [pushGroup]
  | cons b rest ih =>
      obtain ⟨n, as⟩ := b
      rw [pushGroup]
      split
      · simp only [List.flatMap_cons, List.append_assoc]
        exact List.perm_middle
      · simp only [List.flatMap_cons]
        exact (ih.append_left as).trans List.perm_middle

theorem mem_names_foldl_push (g : Grouping α) (names : List String) (a : α) {name : String} :
    name ∈ (names.foldl (fun g n => g.push n a) g).names ↔ name ∈ g.names ∨ name ∈ names := by
  induction names generalizing g with
  | nil => simp
  | cons n names ih =>
      have hpush : name ∈ (g.push n a).names ↔ name ∈ g.names ∨ name = n := by
        rw [names_push]
        split <;> grind
      rw [List.foldl_cons, ih, hpush, List.mem_cons, or_assoc]

/-- Under several names, a value comes up once for each time that a name is among them. -/
theorem bucket_foldl_push (g : Grouping α) (names : List String) (a : α) (name : String) :
    (names.foldl (fun g n => g.push n a) g).bucket name =
      g.bucket name ++ List.replicate (names.count name) a := by
  induction names generalizing g with
  | nil => simp
  | cons n names ih =>
      rw [List.foldl_cons, ih, List.count_cons]
      by_cases h : n = name
      · rw [h, bucket_push_self, List.append_assoc]
        simp [List.replicate_succ]
      · rw [bucket_push_of_ne _ (Ne.symm h)]
        simp [h]

theorem nodup_names_foldl_push {g : Grouping α} (h : g.names.Nodup) (names : List String) (a : α) :
    (names.foldl (fun g n => g.push n a) g).names.Nodup := by
  induction names generalizing g with
  | nil => exact h
  | cons n names ih =>
      apply ih
      rw [names_push]
      split
      · exact h
      · next hnew =>
          apply h.append (List.nodup_singleton n)
          simpa using hnew

/-- A new value gets a place behind those of its name, and all others keep their places. -/
theorem get?_push_eq_some_iff {g : Grouping α} {name other : String} {a x : α} {i : Nat} :
    (g.push name a).get? other i = some x ↔
      g.get? other i = some x ∨ (other = name ∧ i = (g.bucket name).length ∧ x = a) := by
  by_cases h : other = name
  · subst h
    rw [get?, get?, bucket_push_self, List.getElem?_append]
    split
    · next hi => simp [Nat.ne_of_lt hi]
    · next hi =>
        have hnone : (g.bucket other)[i]? = none := List.getElem?_eq_none (Nat.not_lt.1 hi)
        rw [hnone, List.getElem?_singleton]
        split
        · next hzero =>
            have hlast : i = (g.bucket other).length := by omega
            simp [hlast, eq_comm]
        · next hzero =>
            have hbehind : i ≠ (g.bucket other).length := by omega
            simp [hbehind]
  · simp [get?, bucket_push_of_ne _ h, h]

def collect (key : α → String) (as : List α) : Grouping α :=
  as.foldl (fun g a => g.push (key a) a) {}

theorem collect_append_singleton (key : α → String) (as : List α) (a : α) :
    collect key (as ++ [a]) = (collect key as).push (key a) a := by
  rw [collect, List.foldl_append]
  rfl

theorem values_collect_perm (key : α → String) (as : List α) :
    (collect key as).values.Perm as := by
  induction as using List.reverseRecOn with
  | nil => exact .refl _
  | append_singleton as a ih =>
      rw [collect_append_singleton]
      exact (values_push_perm _ _ a).trans ((ih.cons a).trans (List.perm_append_singleton a as).symm)

theorem mem_values_collect {key : α → String} {as : List α} {x : α} :
    x ∈ (collect key as).values ↔ x ∈ as :=
  (values_collect_perm key as).mem_iff

theorem bucket_collect (key : α → String) (as : List α) (name : String) :
    (collect key as).bucket name = as.filter (key · = name) := by
  induction as using List.reverseRecOn with
  | nil => rfl
  | append_singleton as a ih =>
      rw [collect_append_singleton, List.filter_append, ← ih]
      by_cases h : key a = name
      · rw [← h, bucket_push_self]
        simp
      · rw [bucket_push_of_ne _ (Ne.symm h)]
        simp [h]

theorem names_collect (key : α → String) (as : List α) :
    (collect key as).names = (as.map key).eraseDups := by
  induction as using List.reverseRecOn with
  | nil => rfl
  | append_singleton as a ih =>
      rw [collect_append_singleton, names_push, ih, List.map_append, List.map_singleton,
        eraseDups_concat]
      simp only [List.mem_eraseDups]

theorem nodup_names_collect (key : α → String) (as : List α) : (collect key as).names.Nodup := by
  rw [names_collect]
  exact nodup_eraseDups _

/-- When no name has two groups, the groups are told by the names and by what each name finds. -/
theorem groups_eq_map_bucket {g : Grouping α} (h : g.names.Nodup) :
    g.groups = g.names.map fun name => (name, g.bucket name) := by
  obtain ⟨groups⟩ := g
  induction groups with
  | nil => rfl
  | cons b rest ih =>
      obtain ⟨n, as⟩ := b
      have hnodup : n ∉ rest.map Prod.fst ∧ (rest.map Prod.fst).Nodup := List.nodup_cons.1 h
      have hothers : (rest.map Prod.fst).map (fun m => (m, bucket ⟨(n, as) :: rest⟩ m)) = rest := by
        refine Eq.trans ?_ (ih hnodup.2).symm
        apply List.map_congr_left
        intro m hm
        have hne : (m == n) = false := by
          rw [beq_eq_false_iff_ne]
          rintro rfl
          exact hnodup.1 hm
        simp [bucket, List.lookup_cons, hne]
      have hown : bucket ⟨(n, as) :: rest⟩ n = as := by simp [bucket]
      change (n, as) :: rest = (n, bucket ⟨(n, as) :: rest⟩ n) ::
        (rest.map Prod.fst).map (fun m => (m, bucket ⟨(n, as) :: rest⟩ m))
      rw [hown, hothers]

theorem groups_collect (key : α → String) (as : List α) :
    (collect key as).groups =
      (as.map key).eraseDups.map fun name => (name, as.filter (key · = name)) := by
  rw [groups_eq_map_bucket (nodup_names_collect key as), names_collect]
  exact List.map_congr_left fun name _ => by rw [bucket_collect]

def map (f : α → α) (g : Grouping α) : Grouping α :=
  ⟨g.groups.map fun b => (b.1, b.2.map f)⟩

@[simp] theorem values_map (f : α → α) (g : Grouping α) : (g.map f).values = g.values.map f := by
  simp only [values, map, List.flatMap_map, List.map_flatMap]

@[simp] theorem bucket_map (f : α → α) (g : Grouping α) (name : String) :
    (g.map f).bucket name = (g.bucket name).map f := by
  obtain ⟨groups⟩ := g
  simp only [bucket, map]
  induction groups with
  | nil => rfl
  | cons b rest ih =>
      rw [List.map_cons, List.lookup_cons, List.lookup_cons]
      split
      · rfl
      · exact ih

theorem map_push (f : α → α) (g : Grouping α) (name : String) (a : α) :
    (g.push name a).map f = (g.map f).push name (f a) := by
  obtain ⟨groups⟩ := g
  simp only [push, map, mk.injEq]
  induction groups with
  | nil => rfl
  | cons b rest ih =>
      obtain ⟨n, as⟩ := b
      rw [List.map_cons, pushGroup, pushGroup]
      split
      · simp
      · rw [List.map_cons, ih]

theorem map_eq_self_iff {f : α → α} {g : Grouping α} : g.map f = g ↔ ∀ a ∈ g.values, f a = a := by
  constructor
  · intro h
    have hvalues := congrArg values h
    rw [values_map] at hvalues
    exact List.map_inj_left.1 (hvalues.trans (List.map_id _).symm)
  · intro h
    have hgroups : g.groups.map (fun b => (b.1, b.2.map f)) = g.groups.map id := by
      apply List.map_congr_left
      intro b hb
      have hgroup : b.2.map f = b.2.map id :=
        List.map_congr_left fun a ha => h a (List.mem_flatMap.2 ⟨b, hb, ha⟩)
      rw [hgroup, List.map_id]
      rfl
    rw [map, hgroups, List.map_id]

/-- What is done to every value in a list and leaves its name alone is done to every value of the
groups. -/
theorem collect_map {key : α → String} {f : α → α} (hf : ∀ a, key (f a) = key a) (as : List α) :
    collect key (as.map f) = (collect key as).map f := by
  induction as using List.reverseRecOn with
  | nil => rfl
  | append_singleton as a ih =>
      rw [List.map_append, List.map_singleton, collect_append_singleton, collect_append_singleton,
        map_push, ih, hf]

theorem values_collect_map {key : α → String} {f : α → α} (hf : ∀ a, key (f a) = key a)
    (as : List α) : (collect key (as.map f)).values = (collect key as).values.map f := by
  rw [collect_map hf, values_map]

theorem size_collect (key : α → String) (as : List α) : (collect key as).size = as.length :=
  (values_collect_perm key as).length_eq

/-- A selection among the values that takes them from one group only takes what it takes from that
group. -/
theorem filter_values {g : Grouping α} (h : g.names.Nodup) {p : α → Bool} (name : String)
    (hp : ∀ b ∈ g.groups, ∀ a ∈ b.2, p a = true → b.1 = name) :
    g.values.filter p = (g.bucket name).filter p := by
  obtain ⟨groups⟩ := g
  induction groups with
  | nil => rfl
  | cons b rest ih =>
      obtain ⟨n, as⟩ := b
      obtain ⟨hn, hrest⟩ : n ∉ rest.map Prod.fst ∧ (rest.map Prod.fst).Nodup := List.nodup_cons.1 h
      have hothers := fun b hb => hp b (List.mem_cons_of_mem _ hb)
      change (as ++ values ⟨rest⟩).filter p = _
      rw [List.filter_append]
      by_cases he : n = name
      · cases he
        have hnone : (values ⟨rest⟩).filter p = [] := by
          rw [List.filter_eq_nil_iff]
          intro a ha hpa
          obtain ⟨b, hb, ha⟩ := List.mem_flatMap.1 ha
          exact hn (hothers b hb a ha hpa ▸ List.mem_map_of_mem hb)
        rw [hnone, List.append_nil]
        simp [bucket]
      · have hnone : as.filter p = [] := by
          rw [List.filter_eq_nil_iff]
          intro a ha hpa
          exact he (hp (n, as) List.mem_cons_self a ha hpa)
        have hne : (name == n) = false := by simpa using Ne.symm he
        rw [hnone, List.nil_append, ih hrest hothers]
        simp [bucket, List.lookup_cons, hne]

theorem filter_values_collect {key : α → String} {as : List α} {p : α → Bool} {name : String}
    (hp : ∀ a, p a = true → key a = name) : (collect key as).values.filter p = as.filter p := by
  rw [filter_values (nodup_names_collect key as) name, bucket_collect,
    List.filter_filter]
  · apply List.filter_congr
    intro a _
    cases hpa : p a with
    | false => rfl
    | true => simpa using hp a hpa
  · intro b hb a ha hpa
    rw [groups_collect] at hb
    obtain ⟨n, -, rfl⟩ := List.mem_map.1 hb
    have hkey : key a = n := by simpa using (List.mem_filter.1 ha).2
    rw [← hkey, hp a hpa]

end Grouping


namespace Declarations

theorem ofSymbols_append_singleton (symbols : List Symbol) (s : Symbol) :
    ofSymbols (symbols ++ [s]) = (ofSymbols symbols).add s := by
  rw [ofSymbols, List.foldl_append]
  rfl

theorem symbols_ofSymbols (symbols : List Symbol) :
    (ofSymbols symbols).symbols = Grouping.collect Symbol.name symbols := by
  induction symbols using List.reverseRecOn with
  | nil => rfl
  | append_singleton symbols s ih =>
      rw [Grouping.collect_append_singleton, ← ih, ofSymbols_append_singleton]
      rfl

theorem mem_all_ofSymbols {symbols : List Symbol} {s : Symbol} :
    s ∈ (ofSymbols symbols).all ↔ s ∈ symbols := by
  rw [all, symbols_ofSymbols, Grouping.mem_values_collect]

def map (f : Symbol → Symbol) (d : Declarations) : Declarations :=
  ⟨d.symbols.map f, d.labels⟩

theorem mem_all_map {f : Symbol → Symbol} {d : Declarations} {s : Symbol} :
    s ∈ (d.map f).all ↔ ∃ t ∈ d.all, f t = s := by
  rw [all, map, Grouping.values_map, List.mem_map]
  rfl

theorem map_eq_self_iff {f : Symbol → Symbol} {d : Declarations} :
    d.map f = d ↔ ∀ s ∈ d.all, f s = s := by
  obtain ⟨symbols, labels⟩ := d
  simp only [map, mk.injEq, and_true]
  exact Grouping.map_eq_self_iff

/-- What is done to every symbol in a list and leaves its name and labels alone is done to every
symbol that is declared. -/
theorem ofSymbols_map {f : Symbol → Symbol} (hname : ∀ s, (f s).name = s.name)
    (hlabels : ∀ s, (f s).labels = s.labels) (symbols : List Symbol) :
    ofSymbols (symbols.map f) = (ofSymbols symbols).map f := by
  induction symbols using List.reverseRecOn with
  | nil => rfl
  | append_singleton symbols s ih =>
      have hadd : ∀ d : Declarations, (d.map f).add (f s) = (d.add s).map f := by
        intro d
        simp only [add, map, SymbolTable.add, hname, hlabels, Grouping.map_push,
          Grouping.bucket_map, List.length_map]
      rw [List.map_append, List.map_singleton, ofSymbols_append_singleton,
        ofSymbols_append_singleton, ih, hadd]

theorem length_all_ofSymbols (symbols : List Symbol) :
    (ofSymbols symbols).all.length = symbols.length := by
  rw [all, symbols_ofSymbols]
  exact Grouping.size_collect Symbol.name symbols

theorem labels_add (d : Declarations) (s : Symbol) :
    (d.add s).labels =
      s.labels.foldl (fun g l => g.push l ⟨s.name, (d.symbols.bucket s.name).length⟩) d.labels :=
  rfl

theorem mem_labels_ofSymbols {symbols : List Symbol} {label : String} :
    label ∈ (ofSymbols symbols).labels.names ↔ ∃ s ∈ symbols, label ∈ s.labels := by
  induction symbols using List.reverseRecOn with
  | nil => simp [ofSymbols, Grouping.names]
  | append_singleton symbols s ih =>
      rw [ofSymbols_append_singleton, labels_add, Grouping.mem_names_foldl_push, ih]
      simp [or_and_right, exists_or]

end Declarations
end ProcedureIndex