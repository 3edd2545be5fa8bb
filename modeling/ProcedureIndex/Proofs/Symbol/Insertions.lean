import ProcedureIndex.Proofs.Symbol.Groups

/-!
Tables to which symbols are added one after another. An addition puts the symbol behind those of
its name, and no addition moves a symbol from its place. So a table is told by the list of what
was added: it holds these symbols and no others, the symbols of one name in their order.
-/

namespace ProcedureIndex

/-- When no name has two groups, the values are found name by name. -/
theorem Grouping.values_eq_flatMap_bucket {α : Type} {g : Grouping α} (h : g.names.Nodup) :
    g.values = g.names.flatMap g.bucket := by
  rw [values, groups_eq_map_bucket h, List.flatMap_map]

namespace SymbolTable

variable {t : SymbolTable} {name : String} {index : Nat} {x : Symbol}

def addAll (t : SymbolTable) (symbols : List Symbol) : SymbolTable :=
  symbols.foldl (fun t s => (t.add s).1) t

theorem addAll_append (t : SymbolTable) (symbols later : List Symbol) :
    t.addAll (symbols ++ later) = (t.addAll symbols).addAll later :=
  List.foldl_append

theorem addAll_empty (symbols : List Symbol) :
    addAll {} symbols = Grouping.collect Symbol.name symbols :=
  rfl

/-- An addition answers with the place of the symbol. -/
theorem get?_add_self (t : SymbolTable) (s : Symbol) :
    (t.add s).1.get? s.name (t.add s).2 = some s :=
  Grouping.get?_push_eq_some_iff.2 (.inr ⟨rfl, rfl, rfl⟩)

theorem get?_add (h : t.get? name index = some x) (s : Symbol) :
    (t.add s).1.get? name index = some x :=
  Grouping.get?_push_eq_some_iff.2 (.inl h)

/-- A symbol keeps its place, whatever is added later. -/
theorem get?_addAll (h : t.get? name index = some x) (later : List Symbol) :
    (t.addAll later).get? name index = some x := by
  induction later generalizing t with
  | nil => exact h
  | cons s later ih => exact ih (get?_add h s)

/-- A table that symbols were added to one after another is a stable grouping of them. Its names
are theirs, in the order in which they first came, and under each name stand the symbols of that
name in their order. An addition answers with the number of symbols of that name before it, and
this stays the place of the symbol. All symbols together are the groups in the order of the names,
hence those that were added, each as often as it was added. -/
theorem additions_grouped (symbols : List Symbol) :
    let t := addAll {} symbols
    t.names = (symbols.map Symbol.name).eraseDups ∧
    (∀ name, t.bucket name = symbols.filter (·.name = name)) ∧
    (∀ earlier s later, symbols = earlier ++ s :: later →
      let index := ((addAll {} earlier).add s).2
      index = (earlier.filter (·.name = s.name)).length ∧ t.get? s.name index = some s) ∧
    t.values = t.names.flatMap t.bucket ∧ t.values.Perm symbols ∧ t.size = symbols.length := by
  intro t
  have ht : t = Grouping.collect Symbol.name symbols := addAll_empty symbols
  refine ⟨?_, ?_, ?_, ?_, ?_, ?_⟩
  · rw [ht, Grouping.names_collect]
  · intro name
    rw [ht, Grouping.bucket_collect]
  · intro earlier s later hsymbols index
    constructor
    · change ((addAll {} earlier).bucket s.name).length = _
      rw [addAll_empty, Grouping.bucket_collect]
    · change (addAll {} symbols).get? s.name index = some s
      rw [hsymbols, addAll_append]
      exact get?_addAll (get?_add_self (addAll {} earlier) s) later
  · rw [ht]
    exact Grouping.values_eq_flatMap_bucket (Grouping.nodup_names_collect Symbol.name symbols)
  · rw [ht]
    exact Grouping.values_collect_perm Symbol.name symbols
  · rw [ht, Grouping.size_collect]

def functionOn (line : Nat) (name : String) (version : Option String) : Symbol :=
  ⟨name, .function version, ⟨0⟩, 20 * line + 3, ⟨line, 3⟩, [], none⟩

theorem additions_grouped_zetaAgain :
    let zeta := functionOn 0 "zeta" none
    let alpha := functionOn 1 "alpha" none
    let other := functionOn 2 "zeta" (some "v2")
    let t := addAll {} ([zeta, alpha] ++ zeta :: [other])
    t.names = ["zeta", "alpha"] ∧ t.bucket "zeta" = [zeta, zeta, other] ∧
      ((addAll {} [zeta, alpha]).add zeta).2 = 1 ∧ t.get? "zeta" 1 = some zeta ∧
      t.values = [zeta, zeta, other, alpha] ∧ t.size = 4 := by
  intro zeta alpha other t
  obtain ⟨hnames, hbucket, hplace, hvalues, -, hsize⟩ :=
    additions_grouped ([zeta, alpha] ++ zeta :: [other])
  obtain ⟨hindex, hget⟩ := hplace [zeta, alpha] zeta [other] rfl
  refine ⟨hnames.trans (by decide +kernel), (hbucket "zeta").trans (by decide +kernel),
    hindex.trans (by decide +kernel), ?_, ?_, hsize⟩
  · rw [hindex] at hget
    exact hget
  · exact hvalues.trans (by decide +kernel)

end SymbolTable
end ProcedureIndex
