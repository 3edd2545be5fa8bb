import ProcedureIndex.Navigation.Resolve
import ProcedureIndex.Proofs.Navigation.Targets

/-!
Looking a name up in many files. The symbols of an owner win over all others wherever they
stand, so the answers of the files cannot be found file by file and put together; they are
the answers of one table that holds the symbols of every file.
-/

namespace ProcedureIndex

namespace SymbolTable

def ofSymbols (symbols : List Symbol) : SymbolTable :=
  symbols.foldl (fun t s => (add t s).1) {}

theorem ofSymbols_eq_collect (symbols : List Symbol) :
    ofSymbols symbols = Grouping.collect Symbol.name symbols :=
  rfl

theorem bucket_ofSymbols (symbols : List Symbol) (name : String) :
    (ofSymbols symbols).bucket name = symbols.filter (·.name = name) :=
  Grouping.bucket_collect Symbol.name symbols name

/-- What a table has under a name is what it has of that name at all. -/
theorem filter_values_ofSymbols (symbols : List Symbol) (name : String) :
    (ofSymbols symbols).values.filter (·.name = name) = (ofSymbols symbols).bucket name := by
  rw [bucket_ofSymbols, ofSymbols_eq_collect]
  exact Grouping.filter_values_collect fun s hs => by simpa using hs

end SymbolTable

namespace Symbol

/-- Is the symbol of the owner asked for? Without an owner none is. -/
def isOwned (owner : Option String) (s : Symbol) : Bool :=
  owner.any fun o => s.owner = some o

variable {candidates : List Symbol} {version owner : Option String}

/-- Either an owned symbol has the version, and the owned ones with the version are chosen, or none
does, and all with the version are. -/
theorem select_cases (candidates : List Symbol) (version owner : Option String) :
    ((∃ s ∈ candidates, s.isOwned owner = true ∧ s.hasVersion version = true) ∧
      select candidates version owner =
        candidates.filter fun s => s.isOwned owner && s.hasVersion version) ∨
    ((∀ s ∈ candidates, s.isOwned owner = true → s.hasVersion version = false) ∧
      select candidates version owner = candidates.filter (hasVersion version)) := by
  have hselect : select candidates version owner =
      if (candidates.filter fun s => s.isOwned owner && s.hasVersion version).isEmpty then
        candidates.filter (hasVersion version)
      else candidates.filter fun s => s.isOwned owner && s.hasVersion version := by
    cases owner with
    | none => simp [select, isOwned]
    | some o =>
        simp only [select, isOwned, List.filter_filter, Option.any_some, Bool.and_comm]
  rw [hselect]
  split
  · next hnone =>
      refine .inr ⟨?_, rfl⟩
      intro s hs howned
      have hs' := List.filter_eq_nil_iff.1 (List.isEmpty_iff.1 hnone) s hs
      simpa [howned] using hs'
  · next hsome =>
      refine .inl ⟨?_, rfl⟩
      simpa using hsome

theorem hasVersion_of_mem_select {s : Symbol} (h : s ∈ select candidates version owner) :
    s.hasVersion version = true := by
  rcases select_cases candidates version owner with ⟨-, he⟩ | ⟨-, he⟩
  · rw [he] at h
    exact (Bool.and_eq_true_iff.1 (List.mem_filter.1 h).2).2
  · rw [he] at h
    exact (List.mem_filter.1 h).2

theorem select_eq_nil_iff :
    select candidates version owner = [] ↔ ∀ s ∈ candidates, s.hasVersion version = false := by
  rcases select_cases candidates version owner with ⟨⟨s, hs, howned, hversion⟩, he⟩ | ⟨-, he⟩
  · constructor
    · intro hnone
      rw [he, List.filter_eq_nil_iff] at hnone
      exact absurd (hnone s hs) (by simp [howned, hversion])
    · intro hnone
      rw [hnone s hs] at hversion
      cases hversion
  · rw [he, List.filter_eq_nil_iff]
    simp only [Bool.not_eq_true]

/-- What was chosen once is chosen again. -/
theorem select_select (candidates : List Symbol) (version owner : Option String) :
    select (select candidates version owner) version owner =
      select candidates version owner := by
  rcases select_cases candidates version owner with ⟨⟨s, hs, hchosen⟩, he⟩ | ⟨hnone, he⟩
  · rw [he]
    rcases select_cases (candidates.filter fun s => s.isOwned owner && s.hasVersion version)
      version owner with ⟨-, he'⟩ | ⟨hnone, -⟩
    · rw [he', List.filter_filter]
      simp only [Bool.and_self]
    · have hmem : s ∈ candidates.filter fun s => s.isOwned owner && s.hasVersion version :=
        List.mem_filter.2 ⟨hs, Bool.and_eq_true_iff.2 hchosen⟩
      have hversion := hnone s hmem hchosen.1
      rw [hchosen.2] at hversion
      cases hversion
  · rw [he]
    rcases select_cases (candidates.filter (hasVersion version)) version owner with
      ⟨⟨s, hs, howned, hversion⟩, -⟩ | ⟨-, he'⟩
    · rw [hnone s (List.mem_filter.1 hs).1 howned] at hversion
      cases hversion
    · rw [he', List.filter_filter]
      simp only [Bool.and_self]

end Symbol

namespace Snapshot

variable {w : Snapshot}

def Collected (w : Snapshot) : Prop :=
  ∀ t ∈ w.tables, ∃ symbols, t.declared.symbols = SymbolTable.ofSymbols symbols

theorem collected_ofFiles (files : List (Path × Stamp × Text)) :
    (Workspace.ofFiles files).snapshot.Collected := by
  intro t ht
  obtain ⟨text, -, hparse⟩ := Workspace.exists_text_of_mem_ofFiles ht
  refine ⟨(Site.all text).map (Site.symbol t.file text), ?_⟩
  rw [hparse, parse, Declarations.symbols_ofSymbols, SymbolTable.ofSymbols_eq_collect]

theorem Collected.named_eq (h : w.Collected) (name : String) :
    w.named name = w.symbols.filter (·.name = name) := by
  rw [named, symbols, List.filter_flatMap]
  apply List.flatMap_congr
  intro t ht
  obtain ⟨symbols, hsymbols⟩ := h t ht
  rw [Declarations.all, hsymbols, SymbolTable.filter_values_ofSymbols]

def admitted (w : Snapshot) (admits : SymbolKind → Bool) : List Symbol :=
  w.symbols.filter fun s => admits s.kind

theorem Collected.findAll_eq (h : w.Collected) (name : String) (version owner : Option String)
    (admits : SymbolKind → Bool) :
    w.findAll name version owner admits =
      SymbolTable.findAll (SymbolTable.ofSymbols (w.admitted admits)) name version owner := by
  rw [findAll, SymbolTable.findAll, SymbolTable.bucket_ofSymbols, h.named_eq, admitted,
    List.filter_filter, List.filter_filter]
  simp only [Bool.and_comm]

end Snapshot

/-- The declarations that a use may mean are those that one table of all symbols of the admitted
kinds would give, the symbols added file by file. So a symbol of the owner in a later file wins over
symbols without that owner in earlier files. All answers have the version asked for; there are none
only if no admitted symbol of the name has it; and to narrow the answers once more changes
nothing. -/
theorem candidates_eq_findAll (w : Snapshot) (hw : w.Collected) (q : NameUse) :
    let found := (resolve w q).candidates
    let admitted := w.admitted q.usage.admits
    found = SymbolTable.findAll (SymbolTable.ofSymbols admitted) q.name q.version q.owner ∧
    (∀ o, q.owner = some o →
      (∃ s ∈ admitted, s.name = q.name ∧ s.owner = some o ∧ s.hasVersion q.version = true) →
      found = admitted.filter fun s =>
        s.name = q.name && (s.owner = some o && s.hasVersion q.version)) ∧
    (∀ v, q.version = some v → ∀ s ∈ found, s.version = some v) ∧
    (found = [] ↔ ∀ s ∈ admitted, s.name = q.name → s.hasVersion q.version = false) ∧
    Symbol.select found q.version q.owner = found := by
  intro found admitted
  have htable : found =
      SymbolTable.findAll (SymbolTable.ofSymbols admitted) q.name q.version q.owner := by
    rw [← hw.findAll_eq]
    exact Resolution.candidates_ofMatches _
  have hselect : found =
      Symbol.select (admitted.filter (·.name = q.name)) q.version q.owner := by
    rw [htable, SymbolTable.findAll, SymbolTable.bucket_ofSymbols]
  refine ⟨htable, ?_, ?_, ?_, ?_⟩
  · rintro o ho ⟨s, hs, hname, howner, hversion⟩
    have howned : s.isOwned q.owner = true := by simp [Symbol.isOwned, ho, howner]
    rcases Symbol.select_cases (admitted.filter (·.name = q.name)) q.version q.owner with
      ⟨-, he⟩ | ⟨hnone, -⟩
    · rw [hselect, he, List.filter_filter]
      simp only [Symbol.isOwned, ho, Option.any_some, Bool.and_comm]
    · have hmem : s ∈ admitted.filter (·.name = q.name) :=
        List.mem_filter.2 ⟨hs, decide_eq_true hname⟩
      rw [hnone s hmem howned] at hversion
      cases hversion
  · intro v hv s hs
    rw [hselect] at hs
    simpa [Symbol.hasVersion, hv] using Symbol.hasVersion_of_mem_select hs
  · rw [hselect, Symbol.select_eq_nil_iff]
    simp only [List.mem_filter, decide_eq_true_eq, and_imp]
  · rw [hselect, Symbol.select_select]

def functionThenMethod : List (Path × Stamp × Text) :=
  [(⟨"/a.method"⟩, ⟨1⟩, "fn read() \x7b\x7d".toList),
    (⟨"/b.method"⟩, ⟨1⟩, "class Book \x7b fn read() \x7b\x7d \x7d".toList)]

theorem candidates_eq_findAll_later_owner :
    let first := (Workspace.ofFiles (functionThenMethod.take 1)).snapshot
    let both := (Workspace.ofFiles functionThenMethod).snapshot
    let q : NameUse := ⟨"read", .call, some "Book", none⟩
    (resolve first q).candidates.map Symbol.owner = [none] ∧
    (resolve both q).candidates.map Symbol.owner = [some "Book"] ∧
    (resolve both q).candidates = SymbolTable.findAll
      (SymbolTable.ofSymbols (both.admitted q.usage.admits)) q.name q.version q.owner := by
  intro first both q
  have hboth : both.Collected := Snapshot.collected_ofFiles functionThenMethod
  exact ⟨by decide +kernel, by decide +kernel, (candidates_eq_findAll both hboth q).1⟩

end ProcedureIndex
