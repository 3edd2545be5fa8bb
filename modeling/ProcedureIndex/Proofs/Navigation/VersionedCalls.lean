import ProcedureIndex.Proofs.Document.OverloadClasses
import ProcedureIndex.Proofs.Navigation.Targets

/-!
Calls that name a version, in a workspace of one document with a function for each version.
The declarations that agree with such a call are the headers of that version, as functions
and as methods, so the call leads to its line and nowhere else unless a version cuts a
header short or what it says about classes reaches into the lines below.
-/

namespace ProcedureIndex

open Text

theorem Resolution.ofMatches_eq_found_iff {ss : List Symbol} {s : Symbol} :
    ofMatches ss = .found s ↔ ss = [s] := by
  cases ss with
  | nil => simp [ofMatches]
  | cons t rest => cases rest <;> simp [ofMatches]

def callLine (n v : Text) : Text :=
  n ++ ("(version: \"".toList ++ (v ++ "\")".toList))

/-- A place on the name in such a line of a text. -/
structure CallAt (n v cs : Text) (p : Position) : Prop where
  line : (LineMap.ofText cs).lineText p.line = some (callLine n v)
  onName : ∃ a b, n = a ++ b ∧ p.col = width a

section Calls

variable {n v cs : Text} {p : Position}

theorem callAt_callLine (hn : IsName n) (hv : Quotable v) : CallAt n v (callLine n v) ⟨0, 0⟩ where
  line := by
    have hname : '\n' ∉ n := fun hmem => absurd (hn.all _ hmem) (by decide)
    have hnewline : '\n' ∉ callLine n v := by simp [callLine, hname, hv.noNewline]
    have hlast : (callLine n v).getLast?.any (· != '\r') = true := by
      rw [callLine, ← List.append_assoc, ← List.append_assoc, List.getLast?_append]
      rfl
    have htrim := trimEndOf_append hlast []
    rw [List.append_nil, show trimEndOf '\r' [] = [] from rfl, List.append_nil] at htrim
    rw [LineMap.lineText, LineMap.ofText, lines_of_not_mem hnewline]
    exact congrArg some htrim
  onName := ⟨[], n, rfl, rfl⟩

theorem versionIn_paren (cs : Text) : versionIn ('(' :: cs) = versionIn cs := by
  have hprev : versionPattern (some '(') cs = versionPattern none cs := rfl
  have hshift := hitsFrom_add versionPattern '('.utf8Size none 0 0 cs
  rw [versionIn, versionIn, firstHit?, firstHit?, hits, hits,
    hitsFrom_cons_of_none (show versionPattern none ('(' :: cs) = none from rfl),
    hitsFrom_congr hprev, Nat.zero_add, ← Nat.add_zero '('.utf8Size, hshift, List.head?_map,
    Option.map_map]
  rfl

theorem CallAt.at? (hn : IsName n) (hv : Quotable v) (hparen : ')' ∉ v) (h : CallAt n v cs p) :
    NameUse.at? cs p = some ⟨String.ofList n, .call, none, some (String.ofList v)⟩ := by
  obtain ⟨hline, a, b, rfl, hcol⟩ := h
  have hident : identAt (callLine (a ++ b) v) p.col = some (0, a ++ b) := by
    have hwithin : identAt ([] ++ (a ++ (b ++ _))) (width [] + width a) = some (width [], a ++ b) :=
      identAt_within rfl hn (show ("(version: \"".toList ++ (v ++ "\")".toList)).head?.any
        isIdentContinue = false from rfl)
    rw [hcol, callLine, List.append_assoc]
    simpa only [List.nil_append, width_nil, Nat.zero_add] using hwithin
  have hbehind : dropBytes (0 + width (a ++ b)) (callLine (a ++ b) v) =
      "(version: \"".toList ++ (v ++ "\")".toList) := by
    rw [Nat.zero_add, callLine, dropBytes_width_append]
  have hargs : ("(version: \"".toList ++ (v ++ "\")".toList)).takeWhile (· != ')') =
      '(' :: ("version: \"".toList ++ (v ++ ['"'])) := by
    have hall : ∀ c ∈ '(' :: ("version: \"".toList ++ (v ++ ['"'])), (c != ')') = true := by
      intro c hc
      rw [bne_iff_ne]
      rintro rfl
      simp [hparen] at hc
    have hsplit : "(version: \"".toList ++ (v ++ "\")".toList) =
        ('(' :: ("version: \"".toList ++ (v ++ ['"']))) ++ [')'] := by simp
    rw [hsplit, List.takeWhile_append_of_pos hall]
    simp
  have hversion : versionIn ('(' :: ("version: \"".toList ++ (v ++ ['"']))) =
      some (String.ofList v) := by
    rw [versionIn_paren]
    exact versionIn_append hv.noQuote []
  have hbefore : takeBytes 0 (callLine (a ++ b) v) = [] := takeBytes_width_append [] _
  have hcall : (trimStart ("(version: \"".toList ++ (v ++ "\")".toList))).head? = some '(' := rfl
  simp only [NameUse.at?, hline, bind, Option.bind, hident, hbefore, hbehind, hcall, if_true, hargs,
    hversion]
  rfl

end Calls

def oneFile (path : Path) (stamp : Stamp) (cs : Text) : Snapshot :=
  (Workspace.ofFiles [(path, stamp, cs)]).snapshot

def Symbol.answers (name version : String) (s : Symbol) : Bool :=
  s.name = name && s.kind.isCallable && s.version = some version

theorem Symbol.answers_iff {name version : String} {s : Symbol} :
    s.answers name version = true ↔
      s.name = name ∧ s.kind.isCallable = true ∧ s.version = some version := by
  simp [answers, and_assoc]

section OneFile

variable (path : Path) (stamp : Stamp) (cs : Text)

theorem tables_oneFile :
    (oneFile path stamp cs).tables = [Workspace.tabulate ⟨0⟩ path stamp cs] := rfl

theorem resolve_oneFile (name version : String) :
    resolve (oneFile path stamp cs) ⟨name, .call, none, some version⟩ =
      Resolution.ofMatches (((Site.all cs).map (Site.symbol ⟨0⟩ cs)).filter
        (Symbol.answers name version)) := by
  have hnamed : (oneFile path stamp cs).named name =
      ((Site.all cs).map (Site.symbol ⟨0⟩ cs)).filter fun s => decide (s.name = name) := by
    rw [Snapshot.named, tables_oneFile, List.flatMap_singleton, Workspace.tabulate, parse,
      Declarations.symbols_ofSymbols, Grouping.bucket_collect]
  rw [resolve, Snapshot.findAll, hnamed]
  simp only [Symbol.select, List.isEmpty_nil, if_true, List.filter_filter]
  congr 1
  apply List.filter_congr
  intro s _
  simp only [Symbol.hasVersion, Option.all_some, UseForm.admits, Symbol.answers]
  cases s.kind.isCallable <;> simp [Bool.and_comm]

/-- An answer is among the declarations of the file. -/
theorem mem_of_found {text : Text} {p : Position} {s : Symbol}
    (h : definitionAt (oneFile path stamp cs) text p = .found s) :
    s ∈ (Site.all cs).map (Site.symbol ⟨0⟩ cs) := by
  rw [definitionAt] at h
  split at h
  · next q _ =>
      have hshows : (oneFile path stamp cs).Shows fun _ => cs := by
        intro t ht
        rw [tables_oneFile, List.mem_singleton] at ht
        rw [ht]
        rfl
      obtain ⟨p, -, hcandidates⟩ := hshows.exists_candidates_eq q
      rw [h, tables_oneFile, List.flatMap_singleton] at hcandidates
      have hmem : s ∈ (Resolution.found s).candidates := List.mem_singleton_self s
      rw [hcandidates] at hmem
      exact List.mem_of_mem_filter hmem
  · cases h

end OneFile

section Overloads

variable {n v : Text} {vs us ws : List Text}

namespace Site

/-- If the declaration of a line is found, the line's function was recorded with its version. -/
theorem exists_function_of_found {path : Path} {stamp : Stamp} {text : Text} {p : Position}
    (h : definitionAt (oneFile path stamp (overloads n vs)) text p =
      .found (overloadSymbol ⟨0⟩ n us v)) :
    ∃ hit ∈ hits FnHeader.pattern (overloads n vs),
      hit.start + width hit.value.lead = width (overloads n us) + 3 ∧
      versionIn hit.value.params = some (String.ofList v) ∧
      inClass ((classes (overloads n vs)).map Hit.start) (closers (overloads n vs)) hit.start =
        false := by
  obtain ⟨site, hsite, hsymbol⟩ := List.mem_map.1 (mem_of_found path stamp _ h)
  have hform : site.form = .function (some (String.ofList v)) := congrArg Symbol.form hsymbol
  have hstart : site.start = width (overloads n us) + 3 := congrArg Symbol.start hsymbol
  have hfunction := mem_functions_of_form hsite hform
  rw [functions_eq] at hfunction
  obtain ⟨hit, hhit, rfl⟩ := List.mem_map.1 hfunction
  obtain ⟨hmem, hin⟩ := List.mem_filter.1 hhit
  exact ⟨hit, hmem, hstart, SymbolForm.function.inj hform, by simpa using hin⟩

/-- Behind lines without closing parentheses in their versions, a version with one is not found. -/
theorem not_found_of_paren (hn : IsName n) (hus : ∀ u ∈ us, ')' ∉ u) (hv : Quotable v)
    (hparen : ')' ∈ v) {path : Path} {stamp : Stamp} {text : Text} {p : Position} :
    definitionAt (oneFile path stamp (overloads n (us ++ v :: ws))) text p ≠
      .found (overloadSymbol ⟨0⟩ n us v) := by
  intro h
  obtain ⟨hit, hhit, hplace, hversion, -⟩ := exists_function_of_found h
  obtain ⟨header, more, hp, hlead, hnone⟩ :=
    FnHeader.exists_pattern_of_paren hn hv hparen (overloads n ws)
  have hmem := FnHeader.mem_hits_overloads hn hus (overload_append_ne_nil n v _) hp
  rw [overloads_append, overloads_cons] at hhit
  have heq := hit_eq_of_place hhit hmem (by rw [hplace, hlead]; rfl)
  rw [heq, hnone] at hversion
  cases hversion

theorem endsInClass_eq_false_of_found (hn : IsName n) (hparen : ∀ u ∈ us ++ v :: ws, ')' ∉ u)
    {path : Path} {stamp : Stamp} {text : Text} {p : Position}
    (h : definitionAt (oneFile path stamp (overloads n (us ++ v :: ws))) text p =
      .found (overloadSymbol ⟨0⟩ n us v)) :
    endsInClass (overloads n us) = false := by
  obtain ⟨hit, hhit, hplace, -, hin⟩ := exists_function_of_found h
  have heq := hit_eq_of_place hhit (FnHeader.mem_hits_overload hn hparen) hplace
  rw [heq, inClass_overloads] at hin
  exact hin

/-- A call of the next version then has a method among its answers. -/
theorem not_found_of_open {w : Text} (hn : IsName n)
    (hquotable : ∀ u ∈ us ++ v :: w :: ws, Quotable u)
    (hparen : ∀ u ∈ us ++ v :: w :: ws, ')' ∉ u) {k : Hit ClassHeader}
    (hk : k ∈ classes (overload n v)) {inner : Text}
    (hinner : k.rest.dropWhile isBlank = '{' :: inner)
    (hopen : untilClosed .code 1 inner = inner) {path : Path} {stamp : Stamp} {text : Text}
    {p : Position} (hcall : CallAt n w text p) :
    definitionAt (oneFile path stamp (overloads n (us ++ v :: w :: ws))) text p ≠
      .found (overloadSymbol ⟨0⟩ n (us ++ [v]) w) := by
  intro hfound
  obtain ⟨site, hsite, hname, hform⟩ :=
    exists_method_of_open hn hquotable hparen hk hinner hopen
  rw [definitionAt, hcall.at? hn (hquotable w (by simp)) (hparen w (by simp))] at hfound
  simp only [resolve_oneFile, Resolution.ofMatches_eq_found_iff] at hfound
  have hmem : site.symbol ⟨0⟩ (overloads n (us ++ v :: w :: ws)) ∈
      [overloadSymbol ⟨0⟩ n (us ++ [v]) w] := by
    rw [← hfound, List.mem_filter]
    refine ⟨List.mem_map_of_mem hsite, ?_⟩
    simp [Symbol.answers, symbol, hname, hform, Symbol.kind, SymbolForm.kind,
      SymbolKind.isCallable, Symbol.version]
  have hsame := congrArg Symbol.form (List.mem_singleton.1 hmem)
  change site.form = .function _ at hsame
  rw [hform] at hsame
  cases hsame

theorem filter_answers_eq_nil {ss : List Symbol} (h : ∀ s ∈ ss, s.version = none)
    (name version : String) : ss.filter (Symbol.answers name version) = [] := by
  rw [List.filter_eq_nil_iff]
  intro s hs
  simp [Symbol.answers, h s hs]

/-- Of the functions of the document, only that of the line answers the call. -/
theorem filter_answers_functions (hn : IsName n) (hnodup : (us ++ v :: ws).Nodup)
    (hquotable : ∀ u ∈ us ++ v :: ws, Quotable u) (hparen : ∀ u ∈ us ++ v :: ws, ')' ∉ u)
    (hclass : endsInClass (overloads n us) = false) :
    ((functions (overloads n (us ++ v :: ws))).map
        (symbol ⟨0⟩ (overloads n (us ++ v :: ws)))).filter
          (Symbol.answers (String.ofList n) (String.ofList v)) =
      [overloadSymbol ⟨0⟩ n us v] := by
  have hsymbol : ∀ more, (ofFn ⟨width (overloads n us), FnHeader.ofOverload n v, more⟩).symbol ⟨0⟩
      (overloads n (us ++ v :: ws)) = overloadSymbol ⟨0⟩ n us v := by
    intro more
    rw [overloads_append, overloads_cons]
    exact symbol_overload hn (fun u hu => hquotable u (List.mem_append_left _ hu))
      (hquotable v (by simp)) ⟨0⟩ more _
  have hdistinct : ((functions (overloads n (us ++ v :: ws))).map
      (symbol ⟨0⟩ (overloads n (us ++ v :: ws)))).Nodup := by
    rw [List.Nodup, List.pairwise_map]
    refine (scanned_functions _).ascending.imp ?_
    intro x y hlt heq
    exact hlt.ne (congrArg Symbol.start heq)
  rw [← List.perm_singleton,
    List.perm_ext_iff_of_nodup (hdistinct.filter _) (List.nodup_singleton _)]
  intro s
  rw [List.mem_filter, List.mem_singleton]
  constructor
  · rintro ⟨hmem, hanswers⟩
    obtain ⟨site, hsite, rfl⟩ := List.mem_map.1 hmem
    rw [functions_eq] at hsite
    obtain ⟨⟨start, header, more⟩, hhit, rfl⟩ := List.mem_map.1 hsite
    obtain ⟨us', u, ws', hvs, hstart, hvalue⟩ :=
      FnHeader.exists_of_mem_hits_overloads hn hparen (List.mem_of_mem_filter hhit)
    cases hstart
    cases hvalue
    have hversion := FnHeader.versionIn_ofOverload (n := n) (hquotable u (hvs ▸ by simp))
    have hu : u = v := by
      rw [Symbol.answers_iff] at hanswers
      exact String.ofList_injective (Option.some.inj (hversion.symm.trans hanswers.2.2))
    rw [hu] at hvs ⊢
    obtain ⟨hmem_us, hmem_ws⟩ : v ∉ us ∧ v ∉ ws := by
      simpa using (List.nodup_cons.1 (List.nodup_middle.1 hnodup)).1
    obtain ⟨rfl, -, -⟩ := (List.append_cons_inj_of_notMem hmem_us hmem_ws).1 hvs
    exact hsymbol more
  · rintro rfl
    have hfunction := mem_functions (FnHeader.mem_hits_overload hn hparen)
      ((inClass_overloads n us (v :: ws)).trans hclass)
    exact ⟨hsymbol _ ▸ List.mem_map_of_mem hfunction, Symbol.answers_iff.2 ⟨rfl, rfl, rfl⟩⟩

theorem filter_answers_all (hn : IsName n) (hnodup : (us ++ v :: ws).Nodup)
    (hquotable : ∀ u ∈ us ++ v :: ws, Quotable u) (hparen : ∀ u ∈ us ++ v :: ws, ')' ∉ u)
    (hcontained : ∀ u ∈ (us ++ v :: ws).dropLast, Contained (overload n u)) :
    ((all (overloads n (us ++ v :: ws))).map
        (symbol ⟨0⟩ (overloads n (us ++ v :: ws)))).filter
          (Symbol.answers (String.ofList n) (String.ofList v)) =
      [overloadSymbol ⟨0⟩ n us v] := by
  have hclass : endsInClass (overloads n us) = false := by
    apply endsInClass_overloads
    intro u hu
    rw [List.dropLast_append_of_ne_nil (List.cons_ne_nil v ws)] at hcontained
    exact (hcontained u (List.mem_append_left _ hu)).nesting
  obtain ⟨others, hall, hothers⟩ := exists_all_eq (overloads n (us ++ v :: ws))
  have hversion : ∀ s ∈ others.map (symbol ⟨0⟩ (overloads n (us ++ v :: ws))),
      s.version = none := by
    intro s hs
    obtain ⟨site, hsite, rfl⟩ := List.mem_map.1 hs
    rcases hothers site hsite with hnone | ⟨k, hk, hmethod⟩
    · exact hnone _ _
    · exact version_of_mem_methodsOf hn hquotable hcontained hk hmethod _ _
  rw [hall, List.map_append, List.filter_append,
    filter_answers_functions hn hnodup hquotable hparen hclass, filter_answers_eq_nil hversion,
    List.append_nil]

end Site

theorem exists_first_paren (h : ¬ ∀ v ∈ vs, ')' ∉ v) :
    ∃ us v ws, vs = us ++ v :: ws ∧ ')' ∈ v ∧ ∀ u ∈ us, ')' ∉ u := by
  induction vs with
  | nil => exact absurd (List.forall_mem_nil _) h
  | cons v vs ih =>
      by_cases hv : ')' ∈ v
      · exact ⟨[], v, vs, rfl, hv, List.forall_mem_nil _⟩
      · rw [List.forall_mem_cons] at h
        obtain ⟨us, u, ws, rfl, hu, hus⟩ := ih fun hall => h ⟨hv, hall⟩
        exact ⟨v :: us, u, ws, rfl, hu, List.forall_mem_cons.2 ⟨hv, hus⟩⟩

theorem exists_next_of_mem_dropLast (hv : v ∈ vs.dropLast) :
    ∃ us w ws, vs = us ++ v :: w :: ws := by
  rcases List.eq_nil_or_concat vs with rfl | ⟨init, last, rfl⟩
  · cases hv
  · rw [List.concat_eq_append, List.dropLast_concat] at hv
    obtain ⟨us, rest, rfl⟩ := List.append_of_mem hv
    obtain ⟨w, ws, hrest⟩ : ∃ w ws, rest ++ [last] = w :: ws :=
      List.exists_cons_of_ne_nil (by simp)
    exact ⟨us, w, ws, by rw [← hrest, List.concat_eq_append, List.append_assoc, List.cons_append]⟩

/-- Among overloads that differ in their versions, a call that names a version leads to the function
of that version, whichever version it is, if and only if no version has a closing parenthesis and
no class header in a version, but for the last one, reaches beyond its line. -/
theorem overload_found_iff (hn : IsName n) (hnodup : vs.Nodup) (hquotable : ∀ v ∈ vs, Quotable v)
    (path : Path) (stamp : Stamp) :
    (∀ us v ws, vs = us ++ v :: ws → ∀ text p, CallAt n v text p →
        definitionAt (Workspace.ofFiles [(path, stamp, overloads n vs)]).snapshot text p =
          .found (overloadSymbol ⟨0⟩ n us v)) ↔
      (∀ v ∈ vs, ')' ∉ v) ∧ ∀ v ∈ vs.dropLast, Site.Contained (overload n v) := by
  constructor
  · intro hfound
    have hparen : ∀ v ∈ vs, ')' ∉ v := by
      by_contra hex
      obtain ⟨us, v, ws, rfl, hv, hus⟩ := exists_first_paren hex
      have hvq := hquotable v (by simp)
      exact Site.not_found_of_paren hn hus hvq hv
        (hfound us v ws rfl _ _ (callAt_callLine hn hvq))
    refine ⟨hparen, ?_⟩
    intro v hv
    obtain ⟨us, w, ws, rfl⟩ := exists_next_of_mem_dropLast hv
    have hcall := callAt_callLine hn (hquotable w (by simp))
    have hw := hfound (us ++ [v]) w ws (by simp) _ _ hcall
    refine ⟨?_, ?_⟩
    · have hsplit : us ++ v :: w :: ws = (us ++ [v]) ++ w :: ws := by simp
      rw [hsplit] at hw hparen
      have hclass := Site.endsInClass_eq_false_of_found hn hparen hw
      rw [← Bool.not_eq_true]
      intro hline
      have hends := (Site.whole_overloads n us).endsInClass_of_line hline
      rw [overloads_append, overloads_cons, overloads_nil, List.append_nil, hends] at hclass
      cases hclass
    · intro k hk inner hinner hopen
      exact Site.not_found_of_open hn hquotable hparen hk hinner hopen hcall hw
  · rintro ⟨hparen, hcontained⟩ us v ws rfl text p hcall
    rw [definitionAt, hcall.at? hn (hquotable v (by simp)) (hparen v (by simp))]
    have hresolve := resolve_oneFile path stamp (overloads n (us ++ v :: ws)) (String.ofList n)
      (String.ofList v)
    rw [Site.filter_answers_all hn hnodup hquotable hparen hcontained] at hresolve
    exact hresolve

theorem overload_found_iff_two_versions :
    (¬ ∀ us v ws, ["a)b".toList, "c".toList] = us ++ v :: ws → ∀ text p,
        CallAt "n".toList v text p →
        definitionAt (Workspace.ofFiles [(⟨"/a.method"⟩, ⟨1⟩,
          overloads "n".toList ["a)b".toList, "c".toList])]).snapshot text p =
            .found (overloadSymbol ⟨0⟩ "n".toList us v)) ∧
      ∀ us v ws, ["ab".toList, "c".toList] = us ++ v :: ws → ∀ text p,
        CallAt "n".toList v text p →
        definitionAt (Workspace.ofFiles [(⟨"/a.method"⟩, ⟨1⟩,
          overloads "n".toList ["ab".toList, "c".toList])]).snapshot text p =
            .found (overloadSymbol ⟨0⟩ "n".toList us v) := by
  have hn : IsName "n".toList := ⟨by decide, List.all_eq_true.1 (by decide)⟩
  constructor
  · intro h
    have hparen := ((overload_found_iff hn (by decide) (by decide) _ _).1 h).1
    exact hparen "a)b".toList List.mem_cons_self (by decide)
  · refine (overload_found_iff hn (by decide) (by decide) _ _).2 ⟨by decide, ?_⟩
    intro v hv
    rw [List.mem_singleton.1 hv]
    exact Site.contained_of_classes_eq_nil (List.isEmpty_iff.1 (by decide +kernel))

end Overloads

end ProcedureIndex
