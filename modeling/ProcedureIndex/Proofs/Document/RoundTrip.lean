import ProcedureIndex.Proofs.Document.CanonicalText
import ProcedureIndex.Proofs.Symbol.Groups

/-!
Reading a canonical document gives back what was printed. Family by family, the sites
found in the text are the declarations of the list: the induction is over the list,
and between two declarations no class is open and nothing is annotated yet.
-/

namespace ProcedureIndex

open Text

namespace Site

def entry (cs : Text) (site : Site) : Canonical.Entry :=
  let (labels, doc) := Annotations.above (takeBytes site.header cs)
  ⟨String.ofList site.name, site.form, labels, doc⟩

theorem entry_symbol (site : Site) (file : FileId) (cs : Text) :
    (site.symbol file cs).entry = site.entry cs := rfl

end Site

namespace Canonical

/-- Between two declarations nothing is annotated and no class is open. -/
structure Settled (a : List Line) : Prop where
  noted : noted a = ([], none)
  outside : nested a = false

/-- Below the notes of a declaration they are in force, and no class is open. -/
structure Opened (a : List Line) (d : Declaration) : Prop where
  annotated : annotations a = (d.labels, d.doc)
  outside : nested a = false

theorem settled_nil : Settled [] := ⟨rfl, rfl⟩

theorem nested_notes (a : List Line) (ns : List Note) :
    nested (a ++ ns.map .note) = nested a := by
  apply nested_append
  intro l hl above
  obtain ⟨n, -, rfl⟩ := List.mem_map.1 hl
  rfl

theorem Settled.opened {a : List Line} (h : Settled a) (d : Declaration) :
    Opened (a ++ d.notes.map .note) d :=
  ⟨annotations_notes h.noted d, by rw [nested_notes, h.outside]⟩

/-- The last line of an item is no note, and closes the class that the item may have opened. -/
theorem Item.lines_eq_concat (i : Item) :
    ∃ init last, i.lines = init ++ [last] ∧ last.asNote = .other ∧
      ∀ a, nested a = false → nested (a ++ i.lines) = false := by
  cases i with
  | function n v =>
      exact ⟨[], _, rfl, rfl, fun a ha => by rw [Item.lines, nested_concat]; rfl⟩
  | pipeline n | typeAlias n t | macroText n t | constant n t =>
      exact ⟨[], _, rfl, rfl, fun a ha => by rw [Item.lines, nested_concat]; exact ha⟩
  | classType n p ms =>
      refine ⟨.classOpen n p :: ms.map .method, .classClose, rfl, rfl, fun a ha => ?_⟩
      rw [Item.lines, ← List.cons_append, ← List.append_assoc, nested_concat]
      rfl

theorem Settled.append {a : List Line} (h : Settled a) (d : Declaration) :
    Settled (a ++ d.lines) := by
  obtain ⟨init, last, hlines, hlast, hnested⟩ := d.item.lines_eq_concat
  rw [Declaration.lines, ← List.append_assoc]
  refine ⟨?_, hnested _ (by rw [nested_notes, h.outside])⟩
  rw [hlines, ← List.append_assoc]
  exact noted_of_other _ hlast

section Gathering

variable {α β : Type} {found : Line → List (Hit α)} {g : Hit α → List β}
  {family : Declaration → List β} {whole : List Line}

theorem gather_declarations (hnote : ∀ v, found (.note v) = [])
    (hitem : ∀ a d b, Opened a d → a ++ (d.item.lines ++ b) = whole →
      gather found g a d.item.lines b = family d)
    {a b : List Line} (ha : Settled a) (ds : List Declaration)
    (hwhole : a ++ (ds.flatMap Declaration.lines ++ b) = whole) :
    gather found g a (ds.flatMap Declaration.lines) b = ds.flatMap family := by
  induction ds generalizing a with
  | nil => rfl
  | cons d ds ih =>
      have hnotes : gather found g a (d.notes.map .note)
          (d.item.lines ++ (ds.flatMap Declaration.lines ++ b)) = [] := by
        apply gather_eq_nil
        intro l hl
        obtain ⟨n, -, rfl⟩ := List.mem_map.1 hl
        exact hnote n
      have hthis : gather found g (a ++ d.notes.map .note) d.item.lines
          (ds.flatMap Declaration.lines ++ b) = family d := by
        apply hitem _ d _ (ha.opened d)
        rw [← hwhole, List.flatMap_cons, Declaration.lines]
        simp only [List.append_assoc]
      have hrest := ih (ha.append d) (by
        rw [← hwhole, List.flatMap_cons]
        simp only [List.append_assoc])
      rw [List.flatMap_cons, List.flatMap_cons, gather_append, hrest, Declaration.lines,
        gather_append, hnotes, hthis]
      rfl

theorem gather_page (hnote : ∀ v, found (.note v) = []) (hblank : found .blank = [])
    (ds : List Declaration) (closed : Bool)
    (hitem : ∀ a d b, Opened a d → a ++ (d.item.lines ++ b) = page ds closed →
      gather found g a d.item.lines b = family d) :
    gather found g [] (page ds closed) [] = ds.flatMap family := by
  have hend : ∀ a, gather found g a (if closed then [.blank] else []) [] = [] := by
    intro a
    apply gather_eq_nil
    intro l hl
    cases closed with
    | false => cases hl
    | true => rw [List.mem_singleton.1 hl, hblank]
  rw [page, gather_append, hend, List.append_nil]
  exact gather_declarations hnote hitem settled_nil ds (by simp [page])

end Gathering

section Families

variable {a b : List Line} {d : Declaration}

theorem entry_of_opened (h : Opened a d) (l : Line) (b : List Line) (start : Nat) (name : Word)
    (form : SymbolForm) :
    Site.entry (join (a ++ l :: b)) ⟨width (before a), start, name.text, form⟩ =
      d.entry name form := by
  have habove : Annotations.above (takeBytes (width (before a)) (join (a ++ l :: b))) =
      (d.labels, d.doc) := by
    rw [← h.annotated]
    exact above_takeBytes a b (List.nil_append l.text).symm rfl
  rw [Site.entry, habove]
  rfl

theorem forall_mem_bodyLines {γ : Type} {f : Line → γ} {c : γ} (hmethod : ∀ m, f (.method m) = c)
    (hclose : f .classClose = c) (ms : List Method) :
    ∀ l ∈ ms.map .method ++ [.classClose], f l = c := by
  intro l hl
  simp only [List.mem_append, List.mem_map, List.mem_singleton] at hl
  obtain ⟨m, -, rfl⟩ | rfl := hl
  · exact hmethod m
  · exact hclose

theorem gather_class_eq_nil {α β : Type} {found : Line → List (Hit α)} {g : Hit α → List β}
    {n : Word} {p : Option Word} (hopen : found (.classOpen n p) = [])
    (hmethod : ∀ m, found (.method m) = []) (hclose : found .classClose = []) (ms : List Method)
    (a b : List Line) :
    gather found g a (Item.classType n p ms).lines b = [] :=
  gather_eq_nil (List.forall_mem_cons.2 ⟨hopen, forall_mem_bodyLines hmethod hclose ms⟩) a b

theorem pipelines_print (ds : List Declaration) (closed : Bool) :
    (Site.pipelines (print ds closed)).map (Site.entry (print ds closed)) =
      ds.flatMap Declaration.pipelines := by
  rw [Site.pipelines, List.map_map, List.map_eq_flatMap, print,
    flatMap_hits_join PipelineHeader.keyed Line.finds_pipeline]
  refine gather_page (fun _ => rfl) rfl ds closed ?_
  intro a d b h hwhole
  rw [Declaration.pipelines]
  cases hitem : d.item with
  | pipeline n =>
      rw [hitem] at hwhole
      rw [Item.lines, gather_singleton, ← hwhole]
      exact congrArg (fun e => [e]) (entry_of_opened h _ _ _ _ _)
  | function n v | typeAlias n t | macroText n t | constant n t => rfl
  | classType n p ms => exact gather_class_eq_nil rfl (fun _ => rfl) rfl ms a b

theorem flatMap_filter {α β : Type} (p : α → Bool) (g : α → List β) (l : List α) :
    (l.filter p).flatMap g = l.flatMap fun x => if p x then g x else [] := by
  induction l with
  | nil => rfl
  | cons x l ih =>
      rw [List.filter_cons, List.flatMap_cons, ← ih]
      split <;> simp

/-- The entries of the functions found at a hit: none in a class, else one. -/
def functionEntries (cs : Text) (h : Hit FnHeader) : List Entry :=
  if !Site.inClass ((Site.classes cs).map Hit.start) (Site.closers cs) h.start then
    [Site.entry cs ⟨h.start, h.start + width h.value.lead, h.value.name,
      .function (versionIn h.value.params)⟩]
  else []

theorem functionEntries_function (h : Opened a d) (n : Word) (v : Option Word) :
    gather Line.fnHits (functionEntries (join (a ++ .function n v :: b))) a [.function n v] b =
      [d.entry n (.function (v.map Word.name))] := by
  have hout : Site.inClass ((Site.classes (join (a ++ .function n v :: b))).map Hit.start)
      (Site.closers (join (a ++ .function n v :: b))) (width (before a) + 0) = false := by
    rw [inClass_join (Nat.zero_le _) (fun k _ => Nat.zero_le k) (fun k _ => Nat.zero_le k),
      h.outside]
  rw [gather_singleton]
  simp only [Line.fnHits, List.flatMap_cons, List.flatMap_nil, List.append_nil, functionEntries,
    shift, hout, Bool.not_false, if_true]
  rw [versionIn_paramText]
  exact congrArg (fun e => [e]) (entry_of_opened h _ _ _ _ _)

/-- Methods are not taken for functions. -/
theorem functionEntries_methods {whole : List Line} (ms : List Method) (ha : nested a = true)
    (hwhole : a ++ (ms.map .method ++ b) = whole) :
    gather Line.fnHits (functionEntries (join whole)) a (ms.map .method) b = [] := by
  induction ms generalizing a with
  | nil => rfl
  | cons m ms ih =>
      have hrest := ih (a := a ++ [.method m]) (by rw [nested_concat]; exact ha)
        (by simpa using hwhole)
      rw [List.map_cons, gather, hrest, List.append_nil]
      have hcol : 4 ≤ width (Line.method m).text := by
        obtain ⟨rest, hrest⟩ := Line.exists_method_text m
        rw [hrest, width_append]
        exact Nat.le_add_right 4 _
      have hin : Site.inClass ((Site.classes (join whole)).map Hit.start)
          (Site.closers (join whole)) (width (before a) + 4) = true := by
        rw [← hwhole, List.map_cons, List.cons_append,
          inClass_join hcol (by simp [Line.classCols, Line.classHits]) (by simp [Line.closers]), ha]
      obtain ⟨n, v, isStatic⟩ := m
      cases isStatic with
      | false => simp [Line.fnHits, functionEntries, shift, hin]
      | true => simp [Line.fnHits, functionEntries, shift, hin]

theorem functions_print (ds : List Declaration) (closed : Bool) :
    (Site.functions (print ds closed)).map (Site.entry (print ds closed)) =
      ds.flatMap Declaration.functions := by
  have hentries : (Site.functions (print ds closed)).map (Site.entry (print ds closed)) =
      (hits FnHeader.pattern (print ds closed)).flatMap (functionEntries (print ds closed)) := by
    rw [Site.functions, List.map_map, List.map_eq_flatMap, flatMap_filter]
    rfl
  rw [hentries, print, flatMap_hits_join FnHeader.keyed Line.finds_fn]
  refine gather_page (fun _ => rfl) rfl ds closed ?_
  intro a d b h hwhole
  rw [Declaration.functions]
  cases hitem : d.item with
  | function n v =>
      rw [hitem] at hwhole
      rw [← hwhole]
      exact functionEntries_function h n v
  | pipeline n | typeAlias n t | macroText n t | constant n t => rfl
  | classType n p ms =>
      rw [hitem] at hwhole
      have hlines : (a ++ [.classOpen n p]) ++ (ms.map .method ++ .classClose :: b) =
          page ds closed := by
        simpa [Item.lines] using hwhole
      have hmethods := functionEntries_methods ms (by rw [nested_concat]; rfl) hlines
      have hclose : gather Line.fnHits (functionEntries (join (page ds closed)))
          (a ++ [.classOpen n p] ++ ms.map .method) [.classClose] b = [] :=
        gather_eq_nil (List.forall_mem_singleton.2 rfl) _ _
      rw [Item.lines, gather, gather_append, List.singleton_append, hmethods, hclose]
      rfl

def typeEntries (cs : Text) (h : Hit ClassHeader) : List Entry :=
  Site.entry cs ⟨h.start, h.start + width h.value.lead, h.value.name,
      .classType (h.value.parent.map String.ofList)⟩ ::
    (match Site.body? (width cs) h.rest with
      | some (base, body) => Site.methods h.value.name base body
      | none => []).map (Site.entry cs)

/-- The body of a class reaches to the line that closes it. -/
theorem body?_class (ms : List Method) (taken : Text) :
    Site.body? (width (taken ++ ([' ', '{'] ++ behind (ms.map .method ++ .classClose :: b))))
        ([' ', '{'] ++ behind (ms.map .method ++ .classClose :: b)) =
      some (width (taken ++ [' ', '{']), join (.blank :: (ms.map .method ++ [.blank]))) := by
  have hnewline : Calm ['\n'] := ⟨rfl, by decide, by decide⟩
  have hcalm : Calm (behind (ms.map .method) ++ ['\n']) := by
    refine Calm.append (Calm.flatMap ?_) hnewline
    intro l hl
    obtain ⟨m, -, rfl⟩ := List.mem_map.1 hl
    exact hnewline.append (Line.calm_method m)
  have hsplit : behind (ms.map .method ++ .classClose :: b) =
      (behind (ms.map .method) ++ ['\n']) ++ ('}' :: behind b) := by
    simp [behind, show Line.classClose.text = ['}'] from rfl]
  have hbody : untilClosed .code 1 (behind (ms.map .method ++ .classClose :: b)) =
      join (.blank :: (ms.map .method ++ [.blank])) := by
    rw [hsplit, hcalm.untilClosed, join_cons]
    simp [behind, untilClosed, show Line.blank.text = [] from rfl, Quoting.isCode, Quoting.isQuote]
  have hdrop : ([' ', '{'] ++ behind (ms.map .method ++ .classClose :: b)).dropWhile isBlank =
      '{' :: behind (ms.map .method ++ .classClose :: b) := rfl
  have hwidth : width (taken ++ ([' ', '{'] ++ behind (ms.map .method ++ .classClose :: b))) =
      width (taken ++ [' ', '{']) + width (behind (ms.map .method ++ .classClose :: b)) := by
    rw [← List.append_assoc, width_append]
  simp only [Site.body?, hdrop, hbody, hwidth, Nat.add_sub_cancel]

/-- In the body of a class every method line gives its method. The lines above it are read off the
whole text, not off the body. -/
theorem methodEntries {whole x y z : List Line} (owner : Word) {base : Nat} (ms : List Method)
    (hbase : base + width (before x) = width (before y)) (hy : noted y = ([], none))
    (hwhole : y ++ (ms.map .method ++ b) = whole) :
    gather Line.fnHits (fun h => [Site.entry (join whole)
        ⟨base + h.start, base + h.start + width h.value.lead, h.value.name,
          .method owner.name (versionIn h.value.params) h.value.isStatic⟩])
      x (ms.map .method) z = ms.map (Declaration.methodEntry owner) := by
  induction ms generalizing x y with
  | nil => rfl
  | cons m ms ih =>
      have hnext : base + width (before (x ++ [.method m])) =
          width (before (y ++ [.method m])) := by
        rw [width_before_concat, width_before_concat, ← hbase]
        omega
      have hrest := ih hnext (noted_of_other y rfl) (by simpa using hwhole)
      have habove : Annotations.above (takeBytes (base + (width (before x) + 4)) (join whole)) =
          ([], none) := by
        obtain ⟨rest, htext⟩ := Line.exists_method_text m
        have hread := above_takeBytes y (ms.map .method ++ b) htext (by decide)
        rw [← Nat.add_assoc, hbase, ← hwhole]
        rw [annotations, hy] at hread
        exact hread
      rw [List.map_cons, List.map_cons, gather, hrest]
      obtain ⟨n, v, isStatic⟩ := m
      cases isStatic with
      | false =>
          simp only [Line.fnHits, List.flatMap_cons, List.flatMap_nil, shift, Site.entry, habove,
            versionIn_paramText]
          rfl
      | true =>
          simp only [Line.fnHits, List.flatMap_cons, List.flatMap_nil, shift, Site.entry, habove,
            versionIn_paramText]
          rfl

theorem methods_body {whole y z : List Line} (owner : Word) {base : Nat} (ms : List Method)
    (hbase : base + 1 = width (before y)) (hy : noted y = ([], none))
    (hwhole : y ++ (ms.map .method ++ z) = whole) :
    (Site.methods owner.text base (join (.blank :: (ms.map .method ++ [.blank])))).map
      (Site.entry (join whole)) = ms.map (Declaration.methodEntry owner) := by
  have hmethods := methodEntries (x := [.blank]) (z := [.blank]) owner ms hbase hy hwhole
  rw [Site.methods, List.map_map, List.map_eq_flatMap,
    flatMap_hits_join FnHeader.keyed Line.finds_fn, gather, gather_append, List.nil_append,
    List.append_nil]
  exact (congrArg₂ (· ++ ·) hmethods (gather_eq_nil (List.forall_mem_singleton.2 rfl) _ _)).trans
    (List.append_nil _)

theorem typeEntries_class (h : Opened a d) (n : Word) (p : Option Word) (ms : List Method)
    {whole : List Line} (hwhole : a ++ ((Item.classType n p ms).lines ++ b) = whole) :
    gather Line.classHits (typeEntries (join whole)) a (Item.classType n p ms).lines b =
      d.entry n (.classType (p.map Word.name)) :: ms.map (Declaration.methodEntry n) := by
  have hlines : a ++ .classOpen n p :: (ms.map .method ++ .classClose :: b) = whole := by
    simpa [Item.lines] using hwhole
  have hrest : gather Line.classHits (typeEntries (join whole)) (a ++ [.classOpen n p])
      (ms.map .method ++ [.classClose]) b = [] :=
    gather_eq_nil (forall_mem_bodyLines (fun _ => rfl) rfl ms) _ _
  obtain ⟨front, hfront⟩ := Line.exists_classOpen_text n p
  have hjoin : join whole = (before a ++ front) ++
      ([' ', '{'] ++ behind (ms.map .method ++ .classClose :: b)) := by
    rw [← hlines, join_append, hfront]
    simp only [List.append_assoc]
  have hbody := body?_class (b := b) ms (before a ++ front)
  rw [← hjoin] at hbody
  have hbase : width ((before a ++ front) ++ [' ', '{']) + 1 =
      width (before (a ++ [.classOpen n p])) := by
    rw [width_before_concat, hfront, List.append_assoc, width_append]
  have hbelow : (a ++ [.classOpen n p]) ++ (ms.map .method ++ .classClose :: b) = whole := by
    simpa using hlines
  have hmethods := methods_body n ms hbase (noted_of_other a rfl) hbelow
  have hentry := entry_of_opened h (.classOpen n p) (ms.map .method ++ .classClose :: b)
    (width (before a) + width (ClassHeader.keyword ++ [' '])) n (.classType (p.map Word.name))
  rw [hlines] at hentry
  have hparent : (p.map Word.text).map String.ofList = p.map Word.name := by
    rw [Option.map_map]
    rfl
  have hfirst : typeEntries (join whole)
      ⟨width (before a), ⟨ClassHeader.keyword ++ [' '], n.text, p.map Word.text⟩,
        [' ', '{'] ++ behind (ms.map .method ++ .classClose :: b)⟩ =
      d.entry n (.classType (p.map Word.name)) :: ms.map (Declaration.methodEntry n) := by
    rw [typeEntries, hbody, hparent]
    exact congrArg₂ List.cons hentry hmethods
  rw [Item.lines, gather, hrest, List.append_nil, List.append_assoc, Line.classHits,
    List.flatMap_singleton]
  exact hfirst

theorem types_print (ds : List Declaration) (closed : Bool) :
    (Site.types (print ds closed)).map (Site.entry (print ds closed)) =
      ds.flatMap Declaration.types := by
  have hentries : (Site.types (print ds closed)).map (Site.entry (print ds closed)) =
      (hits ClassHeader.pattern (print ds closed)).flatMap (typeEntries (print ds closed)) := by
    rw [Site.types, List.map_flatMap]
    rfl
  rw [hentries, print, flatMap_hits_join ClassHeader.keyed Line.finds_class]
  refine gather_page (fun _ => rfl) rfl ds closed ?_
  intro a d b h hwhole
  rw [Declaration.types]
  cases hitem : d.item with
  | classType n p ms =>
      rw [hitem] at hwhole
      exact typeEntries_class h n p ms hwhole
  | function n v | pipeline n | typeAlias n t | macroText n t | constant n t => rfl

/-- The declarations of one line each. A family is told by its recogniser, and each of its headers
stands on the one line of an item. -/
theorem onLines_print {recognise : Text → Option LineHeader} {header : Line → Option LineHeader}
    {form : String → SymbolForm} {family : Declaration → List Entry}
    (hrec : ∀ l : Line, recognise l.text = header l) (hblank : header .blank = none)
    (hnote : ∀ v, header (.note v) = none)
    (hfamily : ∀ d : Declaration, (family d = [] ∧ ∀ l ∈ d.item.lines, header l = none) ∨
      ∃ l h name value, d.item.lines = [l] ∧ header l = some h ∧ h.name = Word.text name ∧
        LineHeader.literal h.value = Word.text value ∧ family d = [d.entry name (form value.name)])
    (ds : List Declaration) (closed : Bool) :
    (Site.onLines recognise form (print ds closed)).map (Site.entry (print ds closed)) =
      ds.flatMap family := by
  rw [Site.onLines, List.map_map, List.map_eq_flatMap, print, flatMap_all_join hrec hblank]
  have hnone : ∀ {l}, header l = none → onLine header l = [] := by
    intro l hl
    rw [onLine, hl]
    rfl
  refine gather_page (fun v => hnone (hnote v)) (hnone hblank) ds closed ?_
  intro a d b h hwhole
  obtain ⟨hnil, hlines⟩ | ⟨l, head, name, value, hlines, hhead, hname, hvalue, hone⟩ := hfamily d
  · rw [hnil]
    exact gather_eq_nil (fun l hl => hnone (hlines l hl)) a b
  · rw [hlines] at hwhole
    have hentry := entry_of_opened h l b (width (before a) + width head.lead) name
      (form value.name)
    rw [hlines, gather_singleton, onLine, hhead, hone, ← hentry, ← hwhole, ← hname, Word.name,
      ← hvalue]
    rfl

theorem aliases_print (ds : List Declaration) (closed : Bool) :
    (Site.aliases (print ds closed)).map (Site.entry (print ds closed)) =
      ds.flatMap Declaration.aliases := by
  refine onLines_print (fun l => l.recognised.1) rfl (fun _ => rfl) ?_ ds closed
  intro d
  rw [Declaration.aliases]
  cases d.item with
  | typeAlias n t =>
      exact .inr ⟨_, _, n, t, rfl, rfl, rfl, t.isName.literal_of_trim t.isName.trim_space, rfl⟩
  | function n v | pipeline n | macroText n t | constant n t =>
      exact .inl ⟨rfl, List.forall_mem_singleton.2 rfl⟩
  | classType n p ms =>
      exact .inl ⟨rfl, List.forall_mem_cons.2 ⟨rfl, forall_mem_bodyLines (fun _ => rfl) rfl ms⟩⟩

theorem macros_print (ds : List Declaration) (closed : Bool) :
    (Site.macros (print ds closed)).map (Site.entry (print ds closed)) =
      ds.flatMap Declaration.macros := by
  refine onLines_print (fun l => l.recognised.2.1) rfl (fun _ => rfl) ?_ ds closed
  intro d
  rw [Declaration.macros]
  cases d.item with
  | macroText n v =>
      exact .inr ⟨_, _, n, v, rfl, rfl, rfl, v.isName.literal_of_trim v.isName.trim_eq, rfl⟩
  | function n v | pipeline n | typeAlias n t | constant n t =>
      exact .inl ⟨rfl, List.forall_mem_singleton.2 rfl⟩
  | classType n p ms =>
      exact .inl ⟨rfl, List.forall_mem_cons.2 ⟨rfl, forall_mem_bodyLines (fun _ => rfl) rfl ms⟩⟩

theorem constants_print (ds : List Declaration) (closed : Bool) :
    (Site.constants (print ds closed)).map (Site.entry (print ds closed)) =
      ds.flatMap Declaration.constants := by
  refine onLines_print (fun l => l.recognised.2.2) rfl (fun _ => rfl) ?_ ds closed
  intro d
  rw [Declaration.constants]
  cases d.item with
  | constant n v =>
      exact .inr ⟨_, _, n, v, rfl, rfl, rfl, v.isName.literal_of_trim v.isName.trim_space, rfl⟩
  | function n v | pipeline n | typeAlias n t | macroText n t =>
      exact .inl ⟨rfl, List.forall_mem_singleton.2 rfl⟩
  | classType n p ms =>
      exact .inl ⟨rfl, List.forall_mem_cons.2 ⟨rfl, forall_mem_bodyLines (fun _ => rfl) rfl ms⟩⟩

end Families

theorem all_print (ds : List Declaration) (closed : Bool) :
    (Site.all (print ds closed)).map (Site.entry (print ds closed)) = entries ds := by
  simp only [Site.all, List.map_append, functions_print, pipelines_print, types_print,
    aliases_print, macros_print, constants_print]
  rfl

theorem groups_entry (symbols : List Symbol) :
    (Grouping.collect Symbol.name symbols).groups.map
        (fun (name, ss) => (name, ss.map Symbol.entry)) =
      grouped (symbols.map Symbol.entry) := by
  rw [Grouping.groups_collect, grouped, List.map_map, List.map_map]
  apply List.map_congr_left
  intro name _
  change (name, (symbols.filter (·.name = name)).map Symbol.entry) = _
  rw [List.filter_map]
  rfl

/-- Reading a printed document gives a table with the declarations of the document and nothing
else. -/
theorem parse_print (file : FileId) (ds : List Declaration) (closed : Bool) :
    (parse file (print ds closed)).symbols.groups.map
        (fun (name, symbols) => (name, symbols.map Symbol.entry)) = grouped (entries ds) ∧
      ∀ s ∈ (parse file (print ds closed)).all, s.file = file := by
  have hentries : ((Site.all (print ds closed)).map (Site.symbol file (print ds closed))).map
      Symbol.entry = entries ds := by
    rw [← all_print ds closed, List.map_map]
    exact List.map_congr_left fun site _ => site.entry_symbol file _
  refine ⟨?_, ?_⟩
  · rw [parse, Declarations.symbols_ofSymbols, groups_entry, hentries]
  · intro s hs
    rw [parse, Declarations.mem_all_ofSymbols, List.mem_map] at hs
    obtain ⟨site, -, rfl⟩ := hs
    rfl

end Canonical
end ProcedureIndex
