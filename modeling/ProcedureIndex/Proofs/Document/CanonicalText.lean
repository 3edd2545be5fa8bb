import Mathlib.Data.List.Induction
import ProcedureIndex.Proofs.Document.CanonicalLines
import ProcedureIndex.Proofs.Text.Positions

/-!
Texts made of canonical lines. A reading of the whole text, be it a search or the cut
into lines, gives what it gives on each line in its surroundings; and of those
surroundings only the lines above matter: they say whether a line counts as lying in
a class, and what is annotated.
-/

namespace ProcedureIndex
namespace Canonical

open Text

def before (ls : List Line) : Text :=
  ls.flatMap fun l => l.text ++ ['\n']

def behind (ls : List Line) : Text :=
  ls.flatMap fun l => '\n' :: l.text

theorem width_before_cons (l : Line) (a : List Line) :
    width (before (l :: a)) = width l.text + 1 + width (before a) := by
  simp [before, show ('\n' : Char).utf8Size = 1 from rfl, Nat.add_assoc]

theorem width_before_concat (a : List Line) (l : Line) :
    width (before (a ++ [l])) = width (before a) + width l.text + 1 := by
  simp [before, show ('\n' : Char).utf8Size = 1 from rfl, Nat.add_assoc]

theorem join_cons (l : Line) (ls : List Line) : join (l :: ls) = l.text ++ behind ls := by
  induction ls generalizing l with
  | nil => simp [join, behind]
  | cons m ls ih =>
      have hm : ['\n'].intercalate (m.text :: ls.map Line.text) = m.text ++ behind ls := ih m
      rw [join, List.map_cons, List.map_cons, List.intercalate_cons_cons, hm]
      simp [behind]

theorem behind_cons (l : Line) (ls : List Line) : behind (l :: ls) = '\n' :: join (l :: ls) := by
  rw [join_cons]
  simp [behind]

theorem join_append (a : List Line) (l : Line) (b : List Line) :
    join (a ++ l :: b) = before a ++ (l.text ++ behind b) := by
  induction a with
  | nil => exact join_cons l b
  | cons k a ih =>
      obtain ⟨m, ms, hm⟩ : ∃ m ms, a ++ l :: b = m :: ms := List.exists_cons_of_ne_nil (by simp)
      have hbehind : behind (a ++ l :: b) = '\n' :: join (a ++ l :: b) := by
        rw [hm, behind_cons]
      rw [List.cons_append, join_cons, hbehind, ih]
      simp [before]

theorem lineEnd_behind (ls : List Line) : LineEnd (behind ls) := by
  cases ls with
  | nil => exact .inl rfl
  | cons l ls => exact .inr ⟨join (l :: ls), behind_cons l ls⟩

theorem Line.noNewline (l : Line) : '\n' ∉ l.text := by
  refine not_mem_pieces (by decide) ?_
  cases l with
  | blank | classClose | pipeline n | typeAlias n t | macroText n t | constant n t => rfl
  | note value => cases value <;> rfl
  | function n v => cases v <;> rfl
  | classOpen n p => cases p <;> rfl
  | method m =>
      obtain ⟨m, v, isStatic⟩ := m
      cases isStatic <;> cases v <;> rfl

theorem lines_before (ls : List Line) {last : Text} (hlast : '\n' ∉ last) :
    lines (before ls ++ last) = ls.map Line.text ++ [last] := by
  induction ls with
  | nil => exact lines_of_not_mem hlast
  | cons l ls ih =>
      have hsplit : before (l :: ls) ++ last = l.text ++ '\n' :: (before ls ++ last) := by
        simp [before]
      rw [hsplit, lines_append_newline l.noNewline, ih]
      rfl

theorem lines_join {ls : List Line} (hls : ls ≠ []) : lines (join ls) = ls.map Line.text := by
  obtain ⟨init, last, rfl⟩ := (List.eq_nil_or_concat' ls).resolve_left hls
  rw [join_append]
  simp only [behind, List.flatMap_nil, List.append_nil]
  rw [lines_before init last.noNewline, List.map_append, List.map_singleton]

section Gathering

variable {α β : Type}

/-- What `g` makes of the findings on some lines, which stand between the lines `a` and the lines
`b`. -/
def gather (found : Line → List (Hit α)) (g : Hit α → List β) :
    List Line → List Line → List Line → List β
  | _, [], _ => []
  | a, l :: ls, b =>
      (found l).flatMap (fun h => g (shift (width (before a)) (behind (ls ++ b)) h)) ++
        gather found g (a ++ [l]) ls b

variable {found : Line → List (Hit α)} {g : Hit α → List β}

theorem gather_append (a ls ms b : List Line) :
    gather found g a (ls ++ ms) b =
      gather found g a ls (ms ++ b) ++ gather found g (a ++ ls) ms b := by
  induction ls generalizing a with
  | nil => simp [gather]
  | cons l ls ih => simp [gather, ih]

theorem gather_eq_nil {ls : List Line} (h : ∀ l ∈ ls, found l = []) (a b : List Line) :
    gather found g a ls b = [] := by
  induction ls generalizing a with
  | nil => rfl
  | cons l ls ih =>
      rw [gather, h l (by simp), ih fun m hm => h m (by simp [hm])]
      rfl

theorem gather_singleton (a : List Line) (l : Line) (b : List Line) :
    gather found g a [l] b =
      (found l).flatMap fun h => g (shift (width (before a)) (behind b) h) := by
  simp [gather]

theorem flatMap_hitsFrom_join {keys : List Text} {p : Pattern α} (h : Keyed keys p)
    (hfound : ∀ l, Finds p l (found l)) (g : Hit α → List β) (a ls : List Line) :
    (hitsFrom p none (width (before a)) 0 (join ls)).flatMap g = gather found g a ls [] := by
  induction ls generalizing a with
  | nil => rw [show join [] = [] from rfl, h.hitsFrom_nil]; rfl
  | cons l ls ih =>
      rw [join_cons, hfound l _ _ (lineEnd_behind ls), List.flatMap_append, List.flatMap_map,
        gather, List.append_nil]
      congr 1
      rw [← ih (a ++ [l]), width_before_concat]
      cases ls with
      | nil =>
          rw [show behind [] = [] from rfl, show join [] = [] from rfl, h.hitsFrom_nil,
            h.hitsFrom_nil]
      | cons m ls =>
          rw [behind_cons, h.hitsFrom_mark (by decide)]
          rfl

theorem flatMap_hits_join {keys : List Text} {p : Pattern α} (h : Keyed keys p)
    (hfound : ∀ l, Finds p l (found l)) (g : Hit α → List β) (ls : List Line) :
    (hits p (join ls)).flatMap g = gather found g [] ls [] :=
  flatMap_hitsFrom_join h hfound g [] ls

def onLine (header : Line → Option LineHeader) (l : Line) : List (Hit LineHeader) :=
  (header l).toList.map fun h => ⟨0, h, []⟩

theorem flatMap_linesFrom {recognise : Text → Option LineHeader} {header : Line → Option LineHeader}
    (hrec : ∀ l : Line, recognise l.text = header l) (g : Nat × LineHeader → List β)
    (a ls : List Line) :
    ((LineHeader.linesFrom (width (before a)) (ls.map Line.text)).filterMap fun (offset, line) =>
        (recognise line).map fun h => (offset, h)).flatMap g =
      gather (onLine header) (fun h => g (h.start, h.value)) a ls [] := by
  induction ls generalizing a with
  | nil => rfl
  | cons l ls ih =>
      rw [List.map_cons, LineHeader.linesFrom, gather, ← ih (a ++ [l]), width_before_concat]
      simp only [List.filterMap_cons, hrec, onLine]
      cases header l with
      | none => rfl
      | some h => simp [shift]

theorem flatMap_all_join {recognise : Text → Option LineHeader} {header : Line → Option LineHeader}
    (hrec : ∀ l : Line, recognise l.text = header l) (hblank : header .blank = none)
    (g : Nat × LineHeader → List β) (ls : List Line) :
    (LineHeader.all recognise (join ls)).flatMap g =
      gather (onLine header) (fun h => g (h.start, h.value)) [] ls [] := by
  cases ls with
  | nil =>
      have hnil : recognise [] = none := (hrec .blank).trans hblank
      simp [LineHeader.all, join, lines, LineHeader.linesFrom, hnil, gather]
  | cons l ls =>
      rw [LineHeader.all, lines_join (by simp)]
      exact flatMap_linesFrom hrec g [] (l :: ls)

end Gathering

section Notes

def noted (a : List Line) : List Text × Option Text :=
  Annotations.read (a.map Line.text).reverse

/-- The labels and the documentation that the lines above give to a declaration. -/
def annotations (a : List Line) : List String × Option String :=
  (((noted a).1.reverse.map String.ofList).eraseDups, (noted a).2.map String.ofList)

theorem above_before (a : List Line) {lead : Text} (hlead : lead.all (· == ' ') = true) :
    Annotations.above (before a ++ lead) = annotations a := by
  have hspaces : ∀ c ∈ lead, c = ' ' := by simpa using hlead
  have hnewline : '\n' ∉ lead := fun hmem => absurd (hspaces _ hmem) (by decide)
  have htrim : trim lead = [] := by
    have hstart : trimStart lead = [] := by
      rw [trimStart, List.dropWhile_eq_nil_iff]
      intro c hc
      rw [hspaces c hc]
      decide
    rw [trim, hstart]
    rfl
  rw [Annotations.above, lines_before a hnewline, List.reverse_append]
  simp only [List.reverse_singleton, List.singleton_append, htrim, List.isEmpty_nil, if_true]
  rfl

/-- Where a header starts behind nothing but spaces, the lines above its own annotate it. -/
theorem above_takeBytes (a b : List Line) {l : Line} {lead rest : Text}
    (hl : l.text = lead ++ rest) (hlead : lead.all (· == ' ') = true) :
    Annotations.above (takeBytes (width (before a) + width lead) (join (a ++ l :: b))) =
      annotations a := by
  rw [join_append, hl, List.append_assoc, ← List.append_assoc, ← width_append,
    takeBytes_width_append, above_before a hlead]

theorem noted_concat (a : List Line) (l : Line) :
    noted (a ++ [l]) = Annotations.read (l.text :: (a.map Line.text).reverse) := by
  rw [noted, List.map_append, List.reverse_append]
  rfl

theorem noted_of_other (a : List Line) {l : Line} (hl : l.asNote = .other) :
    noted (a ++ [l]) = ([], none) := by
  rw [noted_concat, Annotations.read, l.ofLine_text, hl]

theorem noted_label (a : List Line) (value : Word) :
    noted (a ++ [.note (.label value)]) = (value.text :: (noted a).1, (noted a).2) := by
  rw [noted_concat, Annotations.read, Line.ofLine_text]
  rfl

theorem noted_doc (a : List Line) (value : Word) :
    noted (a ++ [.note (.doc value)]) = ((noted a).1, some value.text) := by
  rw [noted_concat, Annotations.read, Line.ofLine_text]
  rfl

theorem noted_notes {a : List Line} (ha : noted a = ([], none)) (ns : List Note) :
    noted (a ++ ns.map .note) =
      (((ns.filterMap Note.label?).map Word.text).reverse,
        (ns.filterMap Note.doc?).getLast?.map Word.text) := by
  induction ns using List.reverseRecOn with
  | nil => simpa using ha
  | append_singleton ns n ih =>
      rw [List.map_append, ← List.append_assoc, List.map_singleton, List.filterMap_append,
        List.filterMap_append]
      cases n with
      | label value =>
          rw [noted_label, ih, show [Note.label value].filterMap Note.label? = [value] from rfl,
            show [Note.label value].filterMap Note.doc? = [] from rfl]
          simp
      | doc value =>
          rw [noted_doc, ih, show [Note.doc value].filterMap Note.label? = [] from rfl,
            show [Note.doc value].filterMap Note.doc? = [value] from rfl]
          simp

theorem eraseDups_of_nodup {α : Type} [BEq α] [LawfulBEq α] {l : List α} (h : l.Nodup) :
    l.eraseDups = l := by
  induction l with
  | nil => rfl
  | cons x l ih =>
      rw [List.nodup_cons] at h
      have hkeep : l.filter (fun y => !y == x) = l := by
        rw [List.filter_eq_self]
        intro y hy
        have hne : y ≠ x := by
          rintro rfl
          exact h.1 hy
        simpa using hne
      rw [List.eraseDups_cons, hkeep, ih h.2]

theorem annotations_notes {a : List Line} (ha : noted a = ([], none)) (d : Declaration) :
    annotations (a ++ d.notes.map .note) = (d.labels, d.doc) := by
  have hlabels : ((d.notes.filterMap Note.label?).map Word.text).map String.ofList = d.labels := by
    rw [List.map_map]
    rfl
  have hdoc : ((d.notes.filterMap Note.doc?).getLast?.map Word.text).map String.ofList = d.doc := by
    rw [Declaration.doc, Option.map_map]
    have hsingle := d.single
    cases hdocs : d.notes.filterMap Note.doc? with
    | nil => rfl
    | cons v vs =>
        rw [hdocs, List.length_cons] at hsingle
        have hvs : vs = [] := List.eq_nil_of_length_eq_zero (by omega)
        rw [hvs]
        rfl
  have hdistinct : d.labels.Nodup := d.distinct
  rw [annotations, noted_notes ha, List.reverse_reverse, hlabels, hdoc,
    eraseDups_of_nodup hdistinct]

end Notes

section Nesting

/-- The places of columns on some lines, the first of which starts at `offset`. -/
def places (cols : Line → List Nat) : Nat → List Line → List Nat
  | _, [] => []
  | offset, l :: ls => (cols l).map (offset + ·) ++ places cols (offset + width l.text + 1) ls

variable {cols : Line → List Nat}

theorem places_append (cols : Line → List Nat) (offset : Nat) (a b : List Line) :
    places cols offset (a ++ b) =
      places cols offset a ++ places cols (offset + width (before a)) b := by
  induction a generalizing offset with
  | nil => rfl
  | cons l a ih =>
      rw [List.cons_append, places, places, ih, List.append_assoc, width_before_cons]
      congr 3
      omega

theorem bounds_of_mem_places (hfit : ∀ l, ∀ k ∈ cols l, k ≤ width l.text) {offset k : Nat}
    {ls : List Line} (hk : k ∈ places cols offset ls) :
    offset ≤ k ∧ k < offset + width (before ls) := by
  induction ls generalizing offset with
  | nil => cases hk
  | cons l ls ih =>
      have hwidth := width_before_cons l ls
      rw [places, List.mem_append] at hk
      cases hk with
      | inl hk =>
          obtain ⟨j, hj, rfl⟩ := List.mem_map.1 hk
          have hle := hfit l j hj
          omega
      | inr hk =>
          have hrest := ih hk
          omega

/-- Of the places before an offset on a line, the last is the last of those above the line. -/
theorem lastBefore_places (hfit : ∀ l, ∀ k ∈ cols l, k ≤ width l.text) {a b : List Line} {l : Line}
    {col : Nat} (hcol : col ≤ width l.text) (hcols : ∀ k ∈ cols l, col ≤ k) :
    Site.lastBefore (places cols 0 (a ++ l :: b)) (width (before a) + col) =
      (places cols 0 a).getLast? := by
  have habove : (places cols 0 a).filter (· < width (before a) + col) = places cols 0 a := by
    rw [List.filter_eq_self]
    intro k hk
    have hbounds := bounds_of_mem_places hfit hk
    rw [decide_eq_true_eq]
    omega
  have hbelow : (places cols (0 + width (before a)) (l :: b)).filter
      (· < width (before a) + col) = [] := by
    rw [List.filter_eq_nil_iff]
    intro k hk
    rw [places, List.mem_append] at hk
    rw [decide_eq_true_eq]
    cases hk with
    | inl hk =>
        obtain ⟨j, hj, rfl⟩ := List.mem_map.1 hk
        have hle := hcols j hj
        omega
    | inr hk =>
        have hbounds := bounds_of_mem_places hfit hk
        omega
  rw [Site.lastBefore, places_append, List.filter_append, habove, hbelow, List.append_nil]

theorem closersFrom_join (offset : Nat) (ls : List Line) :
    closersFrom .code offset (join ls) = places Line.closers offset ls := by
  induction ls generalizing offset with
  | nil => rfl
  | cons l ls ih =>
      rw [join_cons, l.closersFrom_text, places]
      congr 1
      cases ls with
      | nil => rfl
      | cons m ls =>
          rw [behind_cons, ← ih]
          rfl

theorem gather_start {α : Type} (found : Line → List (Hit α)) (a ls b : List Line) :
    gather found (fun h => [h.start]) a ls b =
      places (fun l => (found l).map Hit.start) (width (before a)) ls := by
  induction ls generalizing a with
  | nil => rfl
  | cons l ls ih =>
      rw [gather, places, ih, width_before_concat, List.map_map, List.map_eq_flatMap]
      rfl

def Line.classCols (l : Line) : List Nat :=
  l.classHits.map Hit.start

theorem starts_join (ls : List Line) :
    (Site.classes (join ls)).map Hit.start = places Line.classCols 0 ls := by
  have hgather := flatMap_hits_join ClassHeader.keyed Line.finds_class (fun h => [h.start]) ls
  rw [gather_start, ← List.map_eq_flatMap] at hgather
  exact hgather

def Line.nests (above : Bool) : Line → Bool
  | .classOpen _ _ => true
  | .function _ _ | .classClose => false
  | _ => above

def nested (a : List Line) : Bool :=
  a.foldl Line.nests false

theorem nested_concat (a : List Line) (l : Line) : nested (a ++ [l]) = l.nests (nested a) := by
  rw [nested, List.foldl_append]
  rfl

theorem nested_append {ls : List Line} (hls : ∀ l ∈ ls, ∀ above, l.nests above = above)
    (a : List Line) : nested (a ++ ls) = nested a := by
  induction ls generalizing a with
  | nil => rw [List.append_nil]
  | cons l ls ih =>
      rw [List.append_cons, ih fun m hm => hls m (by simp [hm]), nested_concat]
      exact hls l (by simp) _

theorem classCols_le (l : Line) : ∀ k ∈ l.classCols, k ≤ width l.text := by
  cases l <;> simp [Line.classCols, Line.classHits]

theorem closers_le (l : Line) : ∀ k ∈ l.closers, k ≤ width l.text := by
  cases l <;> simp [Line.closers]

/-- The last class header above stands behind the last closing brace above if, and only if, a class
is open. -/
theorem nested_eq (a : List Line) :
    (match (places Line.classCols 0 a).getLast?, (places Line.closers 0 a).getLast? with
      | some c, some b => decide (b < c)
      | some _, none => true
      | none, _ => false) = nested a := by
  induction a using List.reverseRecOn with
  | nil => rfl
  | append_singleton a l ih =>
      have hclass : ∀ c, (places Line.classCols 0 a).getLast? = some c → c < width (before a) := by
        intro c hc
        have hbounds := bounds_of_mem_places classCols_le (List.mem_of_getLast? hc)
        omega
      have hcloser : ∀ b, (places Line.closers 0 a).getLast? = some b → b < width (before a) := by
        intro b hb
        have hbounds := bounds_of_mem_places closers_le (List.mem_of_getLast? hb)
        omega
      rw [places_append, places_append, nested_concat]
      simp only [places, List.append_nil, List.getLast?_append, Nat.zero_add]
      cases l with
      | classOpen n p =>
          cases hb : (places Line.closers 0 a).getLast? with
          | none => simp [Line.classCols, Line.classHits, Line.closers, Line.nests]
          | some b =>
              have hbound := hcloser b hb
              simpa [Line.classCols, Line.classHits, Line.closers, Line.nests] using hbound
      | function n v =>
          cases hc : (places Line.classCols 0 a).getLast? with
          | none => simp [Line.classCols, Line.classHits, Line.nests]
          | some c =>
              have hlt : ¬ width (before a) + (width (Line.function n v).text - 1) < c := by
                have hbound := hclass c hc
                omega
              simpa [Line.classCols, Line.classHits, Line.closers, Line.nests] using hlt
      | classClose =>
          cases hc : (places Line.classCols 0 a).getLast? with
          | none => simp [Line.classCols, Line.classHits, Line.nests]
          | some c =>
              have hbound := Nat.le_of_lt (hclass c hc)
              simpa [Line.classCols, Line.classHits, Line.closers, Line.nests] using hbound
      | _ => simpa [Line.classCols, Line.classHits, Line.closers, Line.nests] using ih

/-- Whether a place on a line counts as lying in a class is settled by the lines above, unless the
line has a class header or a closing brace before that place. -/
theorem inClass_join {a b : List Line} {l : Line} {col : Nat} (hcol : col ≤ width l.text)
    (hclass : ∀ k ∈ l.classCols, col ≤ k) (hcloser : ∀ k ∈ l.closers, col ≤ k) :
    Site.inClass ((Site.classes (join (a ++ l :: b))).map Hit.start)
      (Site.closers (join (a ++ l :: b))) (width (before a) + col) = nested a := by
  have hclosers : Site.closers (join (a ++ l :: b)) = places Line.closers 0 (a ++ l :: b) :=
    closersFrom_join 0 _
  rw [Site.inClass, starts_join, hclosers, lastBefore_places classCols_le hcol hclass,
    lastBefore_places closers_le hcol hcloser]
  exact nested_eq a

end Nesting

end Canonical
end ProcedureIndex
