import ProcedureIndex.Proofs.Document.Scans
import ProcedureIndex.Proofs.Navigation.SingleTable

/-!
Which declaration of a name comes first. A document is searched family by family, and each
family from the start of the text to its end, so the declarations of a name are listed by
family and not by place. A look-up takes the first of them: a function before anything
else, and with an owner a method of that owner before everything of the same name.
-/

namespace ProcedureIndex

open Text

/-- The turn in which the declarations of a kind are searched for. Classes and their methods have
one turn together. -/
def SymbolKind.turn : SymbolKind → Nat
  | .function => 0
  | .pipeline => 1
  | .classType | .method => 2
  | .typeAlias => 3
  | .macroText => 4
  | .constant => 5

theorem SymbolKind.turn_ne_two {k : SymbolKind} (hclass : k ≠ .classType) (hmethod : k ≠ .method) :
    k.turn ≠ 2 := by
  cases k with
  | classType => exact absurd rfl hclass
  | method => exact absurd rfl hmethod
  | _ => decide

theorem SymbolKind.eq_function_of_turn {k : SymbolKind} (h : k.turn = SymbolKind.function.turn) :
    k = .function := by
  cases k with
  | function => rfl
  | _ => cases h

namespace Site

def turn (x : Site) : Nat :=
  x.form.kind.turn

/-- One declaration comes before another: in an earlier turn or, where the text was searched in one
go, earlier in the text. -/
def InTurn (x y : Site) : Prop :=
  x.turn < y.turn ∨ (x.turn = y.turn ∧ (x.turn ≠ 2 → x.start < y.start))

structure Found (n : Nat) (sites : List Site) : Prop where
  turn : ∀ x ∈ sites, x.turn = n
  ascending : n ≠ 2 → sites.Pairwise fun x y => x.start < y.start

theorem Found.inTurn {n : Nat} {sites : List Site} (h : Found n sites) :
    sites.Pairwise InTurn := by
  by_cases hn : n = 2
  · refine List.pairwise_of_forall_mem_list ?_
    intro x hx y hy
    refine .inr ⟨(h.turn x hx).trans (h.turn y hy).symm, ?_⟩
    intro hne
    exact absurd ((h.turn x hx).trans hn) hne
  · refine (h.ascending hn).imp_of_mem ?_
    intro x y hx hy hlt
    exact .inr ⟨(h.turn x hx).trans (h.turn y hy).symm, fun _ => hlt⟩

/-- Turns that follow each other, counted from `n`, list their declarations in turn. -/
theorem inTurn_flatten {n : Nat} {turns : List (List Site)}
    (h : List.Forall₂ Found (List.range' n turns.length) turns) :
    turns.flatten.Pairwise InTurn ∧ ∀ x ∈ turns.flatten, n ≤ x.turn := by
  induction turns generalizing n with
  | nil => exact ⟨.nil, fun _ hx => absurd hx List.not_mem_nil⟩
  | cons sites rest ih =>
      rw [List.length_cons, List.range'_succ] at h
      obtain ⟨hfirst, hrest⟩ := List.forall₂_cons.1 h
      obtain ⟨hpairs, hlater⟩ := ih hrest
      rw [List.flatten_cons]
      constructor
      · refine List.pairwise_append.2 ⟨hfirst.inTurn, hpairs, ?_⟩
        intro x hx y hy
        refine .inl ?_
        rw [hfirst.turn x hx]
        exact hlater y hy
      · intro x hx
        rcases List.mem_append.1 hx with hx | hx
        · exact Nat.le_of_eq (hfirst.turn x hx).symm
        · exact Nat.le_of_succ_le (hlater x hx)

theorem found_functions (cs : Text) : Found 0 (functions cs) where
  turn := by
    intro x hx
    obtain ⟨hit, -, rfl⟩ := List.mem_map.1 hx
    rfl
  ascending _ := (scanned_functions cs).ascending

theorem found_pipelines (cs : Text) : Found 1 (pipelines cs) where
  turn := by
    intro x hx
    obtain ⟨hit, -, rfl⟩ := List.mem_map.1 hx
    rfl
  ascending _ := (scanned_pipelines cs).ascending

theorem found_types (cs : Text) : Found 2 (types cs) where
  turn := by
    intro x hx
    rw [types_eq] at hx
    obtain ⟨k, -, hx⟩ := List.mem_flatMap.1 hx
    rcases List.mem_cons.1 hx with rfl | hx
    · rfl
    · rw [methodsOf] at hx
      split at hx
      · obtain ⟨hit, -, rfl⟩ := List.mem_map.1 hx
        rfl
      · cases hx
  ascending h := absurd rfl h

theorem found_onLines {keyword : Text} {recognise : Text → Option LineHeader}
    (hl : LineHeader.Leads keyword recognise) (form : String → SymbolForm) {n : Nat}
    (hform : ∀ value, (form value).kind.turn = n) (cs : Text) :
    Found n (onLines recognise form cs) where
  turn := by
    intro x hx
    obtain ⟨l, -, rfl⟩ := List.mem_map.1 hx
    exact hform _
  ascending _ := (scanned_onLines hl form cs).ascending

/-- The declarations of a text are listed turn by turn. -/
theorem all_inTurn (cs : Text) : (all cs).Pairwise InTurn := by
  have hturns : all cs = [functions cs, pipelines cs, types cs, aliases cs, macros cs,
      constants cs].flatten := by
    simp only [all, List.flatten_cons, List.flatten_nil, List.append_nil, List.append_assoc]
  rw [hturns]
  have haliases : Found 3 (aliases cs) :=
    found_onLines (LineHeader.leads_assigned? _) .typeAlias (fun _ => rfl) cs
  have hmacros : Found 4 (macros cs) :=
    found_onLines (LineHeader.leads_spaced? _) .macroText (fun _ => rfl) cs
  have hconstants : Found 5 (constants cs) :=
    found_onLines (LineHeader.leads_assigned? _) .constant (fun _ => rfl) cs
  refine (inTurn_flatten (n := 0) ?_).1
  exact .cons (found_functions cs) (.cons (found_pipelines cs) (.cons (found_types cs)
    (.cons haliases (.cons hmacros (.cons hconstants .nil)))))

theorem bucket_parse (file : FileId) (cs : Text) (name : String) :
    (parse file cs).symbols.bucket name =
      ((all cs).filter (String.ofList ·.name = name)).map (symbol file cs) := by
  rw [parse, Declarations.symbols_ofSymbols, Grouping.bucket_collect, List.filter_map]
  rfl

theorem mem_bucket_parse {file : FileId} {cs : Text} {name : String} {s : Symbol} :
    s ∈ (parse file cs).symbols.bucket name ↔ s ∈ (parse file cs).all ∧ s.name = name := by
  rw [parse, Declarations.mem_all_ofSymbols, Declarations.symbols_ofSymbols,
    Grouping.bucket_collect, List.mem_filter, decide_eq_true_iff]

/-- The symbols of a name are listed in turn. -/
theorem bucket_pairwise (file : FileId) (cs : Text) (name : String) :
    ((parse file cs).symbols.bucket name).Pairwise fun s t =>
      s.kind.turn < t.kind.turn ∨
        (s.kind.turn = t.kind.turn ∧ (s.kind.turn ≠ 2 → s.start < t.start)) := by
  rw [bucket_parse, List.pairwise_map]
  exact (all_inTurn cs).filter _

/-- Functions come before everything else of their name, and a look-up by name alone takes the
first. -/
theorem exists_find?_function {file : FileId} {cs : Text} {name : String} {s : Symbol}
    (hs : s ∈ (parse file cs).symbols.bucket name) (hkind : s.kind = .function) :
    ∃ first ∈ (parse file cs).symbols.bucket name, first.kind = .function ∧
      SymbolTable.find? (parse file cs).symbols name none none = some first ∧
      (s = first ∨ first.start < s.start) := by
  have hpairs := bucket_pairwise file cs name
  have hfind : SymbolTable.find? (parse file cs).symbols name none none =
      ((parse file cs).symbols.bucket name).head? := by
    have hall : ((parse file cs).symbols.bucket name).filter (Symbol.hasVersion none) =
        (parse file cs).symbols.bucket name := List.filter_eq_self.2 fun _ _ => rfl
    exact congrArg List.head? hall
  cases hbucket : (parse file cs).symbols.bucket name with
  | nil =>
      rw [hbucket] at hs
      cases hs
  | cons first rest =>
      rw [hbucket] at hs hpairs hfind
      rcases List.mem_cons.1 hs with rfl | hs
      · exact ⟨s, List.mem_cons_self, hkind, hfind, .inl rfl⟩
      · have hturn := (List.pairwise_cons.1 hpairs).1 s hs
        rw [hkind] at hturn
        -- No turn is before the turn of the functions.
        rcases hturn with hlt | ⟨hzero, hstart⟩
        · cases hlt
        · have hfunction := SymbolKind.eq_function_of_turn hzero
          refine ⟨first, List.mem_cons_self, hfunction, hfind, .inr (hstart ?_)⟩
          rw [hzero]
          decide

/-- With an owner and no version, a symbol of that owner is found if there is one. -/
theorem exists_find?_owned {file : FileId} {cs : Text} {s : Symbol} {owner : String}
    (hs : s ∈ (parse file cs).all) (howner : s.owner = some owner) :
    ∃ m ∈ (parse file cs).all, m.name = s.name ∧ m.owner = some owner ∧
      SymbolTable.find? (parse file cs).symbols s.name none (some owner) = some m := by
  have hbucket := mem_bucket_parse.2 ⟨hs, rfl⟩
  rcases Symbol.select_cases ((parse file cs).symbols.bucket s.name) none (some owner) with
    ⟨⟨t, ht, howned, hversion⟩, he⟩ | ⟨hnone, -⟩
  · obtain ⟨m, hm⟩ : ∃ m, ((parse file cs).symbols.bucket s.name).find?
        (fun s => s.isOwned (some owner) && s.hasVersion none) = some m := by
      rw [← Option.isSome_iff_exists, List.find?_isSome]
      exact ⟨t, ht, Bool.and_eq_true_iff.2 ⟨howned, hversion⟩⟩
    obtain ⟨hall, hname⟩ := mem_bucket_parse.1 (List.mem_of_find?_eq_some hm)
    have hmowned := List.find?_some hm
    simp only [Bool.and_eq_true, Symbol.isOwned, Option.any_some, decide_eq_true_eq] at hmowned
    refine ⟨m, hall, hname, hmowned.1, ?_⟩
    rw [SymbolTable.find?, SymbolTable.findAll, he, List.head?_filter, hm]
  · have hversion := hnone s hbucket (by simpa [Symbol.isOwned] using howner)
    cases hversion

end Site

/-- The symbols of a name are listed by family: functions, pipelines, classes and methods, aliases,
macros, constants. Within a family that is searched for in one go they stand in the order of the
text. So a look-up by name alone finds the earliest function of that name if there is one, and a
look-up with an owner finds a method of that owner if one is recorded, wherever in the text the
other declarations of the name stand. -/
theorem bucket_in_turn (file : FileId) (cs : Text) (name : String) :
    let declared := parse file cs
    let bucket := declared.symbols.bucket name
    (∀ s, s ∈ bucket ↔ s ∈ declared.all ∧ s.name = name) ∧
    (bucket.Pairwise fun s t => s.kind.turn ≤ t.kind.turn) ∧
    (∀ kind, kind ≠ .classType → kind ≠ .method →
      (bucket.filter (·.kind = kind)).Pairwise fun s t => s.start < t.start) ∧
    (∀ s ∈ bucket, s.kind = .function →
      ∃ first ∈ bucket, first.kind = .function ∧
        SymbolTable.find? declared.symbols name none none = some first ∧
        (s = first ∨ first.start < s.start)) ∧
    (∀ owner, ∀ s ∈ declared.all, s.name = name → s.owner = some owner →
      ∃ m ∈ declared.all, m.name = name ∧ m.kind = .method ∧ m.owner = some owner ∧
        SymbolTable.find? declared.symbols name none (some owner) = some m) := by
  intro declared bucket
  have hpairs := Site.bucket_pairwise file cs name
  refine ⟨fun s => Site.mem_bucket_parse, ?_, ?_, fun s => Site.exists_find?_function, ?_⟩
  · refine hpairs.imp ?_
    rintro s t (hlt | ⟨heq, -⟩)
    · exact Nat.le_of_lt hlt
    · exact Nat.le_of_eq heq
  · intro kind hclass hmethod
    rw [List.pairwise_filter]
    refine hpairs.imp ?_
    intro s t hturn hs ht
    have hs : s.kind = kind := of_decide_eq_true hs
    have ht : t.kind = kind := of_decide_eq_true ht
    rw [hs, ht] at hturn
    rcases hturn with hlt | ⟨-, hstart⟩
    · exact absurd hlt (Nat.lt_irrefl _)
    · exact hstart (SymbolKind.turn_ne_two hclass hmethod)
  · intro owner s hs hname howner
    obtain ⟨m, hm, hmname, hmowner, hfind⟩ := Site.exists_find?_owned hs howner
    rw [hname] at hmname hfind
    exact ⟨m, hm, hmname, Symbol.kind_of_owner hmowner, hmowner, hfind⟩

def goDeclaredLast : Text :=
  ("const go = 1\nclass T \x7b fn go() \x7b\x7d \x7d\n" ++
    "fn go() \x7b\x7d\nfn go(version: \"2\") \x7b\x7d\n").toList

theorem bucket_in_turn_goDeclaredLast :
    let declared := parse ⟨0⟩ goDeclaredLast
    (declared.symbols.bucket "go").map (fun s => (s.kind, s.start, s.owner)) =
      [(.function, 39, none), (.function, 50, none), (.method, 26, some "T"),
        (.constant, 6, none)] ∧
    (∃ first, first.kind = .function ∧ first.start ≤ 50 ∧
      SymbolTable.find? declared.symbols "go" none none = some first) ∧
    ∃ m, m.kind = .method ∧ m.owner = some "T" ∧
      SymbolTable.find? declared.symbols "go" none (some "T") = some m := by
  intro declared
  obtain ⟨hbucket, -, -, hfunctions, howners⟩ := bucket_in_turn ⟨0⟩ goDeclaredLast "go"
  have hlisted : (declared.symbols.bucket "go").map (fun s => (s.kind, s.start, s.owner)) =
      [(.function, 39, none), (.function, 50, none), (.method, 26, some "T"),
        (.constant, 6, none)] := by
    decide +kernel
  have hexists : ∀ entry ∈ (declared.symbols.bucket "go").map fun s => (s.kind, s.start, s.owner),
      ∃ s ∈ declared.symbols.bucket "go", (s.kind, s.start, s.owner) = entry :=
    fun _ => List.mem_map.1
  rw [hlisted] at hexists
  obtain ⟨s, hs, hsecond⟩ := hexists (.function, 50, none) (by decide)
  obtain ⟨t, ht, hmethod⟩ := hexists (.method, 26, some "T") (by decide)
  simp only [Prod.mk.injEq] at hsecond hmethod
  obtain ⟨first, -, hfirst, hfind, hearlier⟩ := hfunctions s hs hsecond.1
  obtain ⟨hdeclared, hname⟩ := (hbucket t).1 ht
  obtain ⟨m, -, -, hkind, howner, hfind'⟩ := howners "T" t hdeclared hname hmethod.2.2
  refine ⟨hlisted, ⟨first, hfirst, ?_, hfind⟩, m, hkind, howner, hfind'⟩
  rcases hearlier with rfl | hlt
  · exact Nat.le_of_eq hsecond.2.1
  · omega

end ProcedureIndex
