import Mathlib.Data.List.Basic
import ProcedureIndex.Navigation.Reference
import ProcedureIndex.Proofs.Text.Identifiers

/-!
The places where uses of a name are found. Each of the four patterns makes sure of
something on either side of the name; put together, a use that is no declaration lies in
code, is not declared there, and is a whole identifier, but for two slips: `extends` is
taken for a keyword without a blank behind it, and beyond ASCII a word may end inside an
identifier.
-/

namespace ProcedureIndex

open Text

namespace Reference

variable {name line cs : Text} {prev : Option Char}

theorem nameAt_eq_some_iff (hname : name ≠ []) {edgeBefore edgeAfter : Bool} {r : Unit × Text} :
    nameAt name edgeBefore edgeAfter prev cs = some r ↔
      cs = name ++ r.2 ∧ (edgeBefore = true → isWordEdge prev name.head? = true) ∧
        (edgeAfter = true → isWordEdge name.getLast? r.2.head? = true) := by
  have hlast : name.getLast?.or prev = name.getLast? := by
    rw [List.getLast?_eq_some_getLast hname, Option.some_or]
  have hhead : ∀ rest, (name ++ rest).head? = name.head? := by
    intro rest
    rw [List.head?_append, List.head?_eq_some_head hname, Option.some_or]
  simp only [nameAt, bind, Option.bind_eq_some_iff, after?_eq_some_iff, hlast]
  constructor
  · rintro ⟨rest, rfl, hr⟩
    split at hr
    · next hedges =>
        cases hr
        rw [hhead] at hedges
        cases edgeBefore <;> cases edgeAfter <;> simp_all
    · cases hr
  · rintro ⟨rfl, hbefore, hafter⟩
    refine ⟨r.2, rfl, ?_⟩
    rw [hhead, if_pos]
    cases edgeBefore <;> cases edgeAfter <;> simp_all

theorem callPattern_eq_some_iff (hname : name ≠ []) {r : Unit × Text} :
    callPattern name prev cs = some r ↔ isWordEdge prev name.head? = true ∧
      ∃ gap, cs = name ++ (gap ++ '(' :: r.2) ∧ ∀ c ∈ gap, isBlank c = true := by
  simp only [callPattern, bind, pure, Option.bind_eq_some_iff, nameAt_eq_some_iff hname,
    after?_eq_some_iff]
  constructor
  · rintro ⟨⟨⟨⟩, behind⟩, ⟨rfl, hedge, -⟩, rest, hrest, hr⟩
    cases hr
    refine ⟨hedge trivial, behind.takeWhile isBlank, ?_, fun c hc => List.mem_takeWhile_imp hc⟩
    rw [← List.singleton_append, ← hrest, List.takeWhile_append_dropWhile]
  · rintro ⟨hedge, gap, rfl, hgap⟩
    refine ⟨((), gap ++ '(' :: r.2), ⟨rfl, fun _ => hedge, by simp⟩, r.2, ?_, rfl⟩
    rw [List.dropWhile_append_of_pos hgap]
    rfl

theorem behindBlanks_eq_some {p : Pattern Unit} {skipped n : Nat} {rest : Text}
    (h : behindBlanks p skipped prev cs = some (n, rest)) :
    ∃ gap suf, cs = gap ++ suf ∧ (∀ c ∈ gap, isBlank c = true) ∧ n = skipped + width gap ∧
      p (gap.getLast?.or prev) suf = some ((), rest) := by
  induction cs generalizing skipped prev with
  | nil =>
      rw [behindBlanks, Option.map_eq_some_iff] at h
      obtain ⟨r, hp, hr⟩ := h
      cases hr
      exact ⟨[], [], rfl, by simp, rfl, hp⟩
  | cons c cs ih =>
      have here : (p prev (c :: cs)).map (fun r => (skipped, r.2)) = some (n, rest) →
          ∃ gap suf, c :: cs = gap ++ suf ∧ (∀ c ∈ gap, isBlank c = true) ∧
            n = skipped + width gap ∧ p (gap.getLast?.or prev) suf = some ((), rest) := by
        intro h
        obtain ⟨r, hp, hr⟩ := Option.map_eq_some_iff.1 h
        cases hr
        exact ⟨[], c :: cs, rfl, by simp, rfl, hp⟩
      simp only [behindBlanks] at h
      split at h
      · next hc =>
          rcases Option.or_eq_some_iff.1 h with h | ⟨-, h⟩
          · obtain ⟨gap, suf, rfl, hgap, rfl, hp⟩ := ih h
            refine ⟨c :: gap, suf, rfl, List.forall_mem_cons.2 ⟨hc, hgap⟩, ?_, ?_⟩
            · rw [width_cons, Nat.add_assoc]
            · rw [List.getLast?_cons]
              cases hl : gap.getLast? <;> simpa [hl] using hp
          · exact here h
      · exact here h

theorem markedPattern_eq_some (hname : name ≠ []) {mark rest : Text} (hmark : mark ≠ [])
    {edge : Bool} {n : Nat} (h : markedPattern mark edge name prev cs = some (n, rest)) :
    ∃ gap, cs = (mark ++ gap) ++ (name ++ rest) ∧ (∀ c ∈ gap, isBlank c = true) ∧
      n = width (mark ++ gap) ∧ (edge = true → isWordEdge prev mark.head? = true) ∧
      isWordEdge name.getLast? rest.head? = true := by
  simp only [markedPattern, bind, Option.bind_eq_some_iff, nameAt_eq_some_iff hmark] at h
  obtain ⟨⟨⟨⟩, behind⟩, ⟨rfl, hedge, -⟩, h⟩ := h
  obtain ⟨gap, suf, rfl, hgap, rfl, hp⟩ := behindBlanks_eq_some h
  obtain ⟨rfl, -, hright⟩ := (nameAt_eq_some_iff hname).1 hp
  exact ⟨gap, by rw [List.append_assoc], hgap, (width_append _ _).symm, hedge, hright rfl⟩

theorem memberPattern_eq_some (hname : name ≠ []) {r : Unit × Text}
    (h : memberPattern name prev cs = some r) :
    cs = ['.'] ++ (name ++ r.2) ∧ isWordEdge name.getLast? r.2.head? = true := by
  simp only [memberPattern, bind, Option.bind_eq_some_iff, after?_eq_some_iff] at h
  obtain ⟨rest, rfl, h⟩ := h
  obtain ⟨rfl, -, hright⟩ := (nameAt_eq_some_iff hname).1 h
  exact ⟨rfl, hright rfl⟩

def EndsWithExtends (before : Text) : Prop :=
  ∃ front, before = front ++ "extends".toList ∧ inWord front.getLast? = false

/-- Between two characters of an identifier there is a word boundary. -/
def splitsIdent (before after : Option Char) : Bool :=
  before.any isIdentContinue && after.any isIdentContinue && isWordEdge before after

/-- What the patterns make sure of where they find the name on a line. -/
structure Spot (name line : Text) (use : Nat × ReferenceKind) (before behind : Text) : Prop where
  split : line = before ++ (name ++ behind)
  col : use.1 = width before
  left : isWordEdge before.getLast? name.head? = true ∨ EndsWithExtends before ∨
    before.getLast?.any isIdentContinue = false
  right : isWordEdge name.getLast? behind.head? = true ∨ behind.head?.any isIdentContinue = false
  call : use.2 = .call → ∃ gap rest, behind = gap ++ '(' :: rest ∧ ∀ c ∈ gap, isBlank c = true
  used : use.2 ≠ .declaration

theorem spot_of_call (hname : name ≠ []) {h : Hit Unit} (hm : h ∈ hits (callPattern name) line) :
    ∃ before behind, Spot name line (h.start, .call) before behind := by
  obtain ⟨pre, suf, rfl, hstart, hp⟩ := mem_hits hm
  obtain ⟨hedge, gap, rfl, hgap⟩ := (callPattern_eq_some_iff hname).1 hp
  refine ⟨pre, gap ++ '(' :: h.rest, rfl, hstart, .inl hedge, .inr ?_, fun _ => ⟨gap, _, rfl, hgap⟩,
    nofun⟩
  cases gap with
  | nil => rfl
  | cons c gap => exact isIdentContinue_of_isBlank (hgap c (by simp))

theorem spot_of_marked (hname : name ≠ []) {mark pre suf rest : Text} (hmark : mark ≠ [])
    {edge : Bool} {n : Nat} (h : markedPattern mark edge name pre.getLast? suf = some (n, rest))
    (hleft : (edge = true → isWordEdge pre.getLast? mark.head? = true) →
      EndsWithExtends (pre ++ mark) ∨ (pre ++ mark).getLast?.any isIdentContinue = false) :
    ∃ before behind, Spot name (pre ++ suf) (width pre + n, .typePosition) before behind := by
  obtain ⟨gap, rfl, hgap, rfl, hedge, hright⟩ := markedPattern_eq_some hname hmark h
  refine ⟨pre ++ (mark ++ gap), rest, (List.append_assoc _ _ _).symm, (width_append _ _).symm,
    .inr ?_, .inl hright, nofun, nofun⟩
  by_cases hnone : gap = []
  · rw [hnone, List.append_nil]
    exact hleft hedge
  · -- Blanks of any kind end an identifier.
    right
    rw [← List.append_assoc, List.getLast?_append, List.getLast?_eq_some_getLast hnone]
    exact isIdentContinue_of_isBlank (hgap _ (List.getLast_mem hnone))

theorem spot_of_type (hname : name ≠ []) {h : Hit Nat} (hm : h ∈ hits (typePattern name) line) :
    ∃ before behind, Spot name line (h.start + h.value, .typePosition) before behind := by
  obtain ⟨pre, suf, rfl, hstart, hp⟩ := mem_hits hm
  rw [hstart]
  rcases Option.or_eq_some_iff.1 hp with hp | ⟨-, hp⟩
  · apply spot_of_marked hname (by simp) hp
    intro _
    right
    rw [List.getLast?_concat]
    decide
  · apply spot_of_marked hname (by simp) hp
    intro hedge
    have houtside : inWord pre.getLast? = false := by
      simpa [isWordEdge, inWord, show isWordChar 'e' = true by decide] using hedge rfl
    exact .inl ⟨pre, rfl, houtside⟩

theorem spot_of_member (hname : name ≠ []) {h : Hit Unit}
    (hm : h ∈ hits (memberPattern name) line) :
    ∃ before behind, Spot name line (h.start + 1, .member) before behind := by
  obtain ⟨pre, suf, rfl, hstart, hp⟩ := mem_hits hm
  obtain ⟨rfl, hright⟩ := memberPattern_eq_some hname hp
  refine ⟨pre ++ ['.'], h.rest, by rw [List.append_assoc], ?_, .inr (.inr ?_), .inl hright, nofun,
    nofun⟩
  · rw [hstart, width_append]
    rfl
  · rw [List.getLast?_concat]
    decide

theorem spot_of_bare (hname : name ≠ []) {h : Hit Unit}
    (hm : h ∈ hits (nameAt name true true) line) :
    ∃ before behind, Spot name line (h.start, .bare) before behind := by
  obtain ⟨pre, suf, rfl, hstart, hp⟩ := mem_hits hm
  obtain ⟨rfl, hleft, hright⟩ := (nameAt_eq_some_iff hname).1 hp
  exact ⟨pre, h.rest, rfl, hstart, .inl (hleft rfl), .inl (hright rfl), nofun, nofun⟩

theorem spot_of_mem_onLine (hname : name ≠ []) {use : Nat × ReferenceKind}
    (h : use ∈ onLine name line) : ∃ before behind, Spot name line use before behind := by
  simp only [onLine, List.mem_append, List.mem_map, List.mem_filter] at h
  rcases h with ((⟨h, hm, rfl⟩ | ⟨h, hm, rfl⟩) | ⟨h, hm, rfl⟩) | ⟨h, ⟨hm, -⟩, rfl⟩
  · exact spot_of_call hname hm
  · exact spot_of_type hname hm
  · exact spot_of_member hname hm
  · exact spot_of_bare hname hm

namespace Spot

variable {use : Nat × ReferenceKind} {before behind : Text}

/-- A found name is a whole identifier unless one of the two slips has happened. -/
theorem whole_iff (h : Spot name line use before behind) (hname : IsIdent name) :
    identAt line use.1 = some (use.1, name) ↔
      ¬ EndsWithExtends before ∧ splitsIdent before.getLast? name.head? = false ∧
        splitsIdent name.getLast? behind.head? = false := by
  rw [h.split, h.col, identAt_eq_self_iff]
  constructor
  · rintro ⟨-, hleft, hright⟩
    refine ⟨?_, by simp [splitsIdent, hleft], by simp [splitsIdent, hright]⟩
    rintro ⟨front, rfl, -⟩
    rw [List.getLast?_append, show "extends".toList.getLast? = some 's' from rfl,
      Option.some_or] at hleft
    exact absurd hleft (by decide)
  · rintro ⟨hextends, hleft, hright⟩
    have hhead := any_head?_of_forall hname.ne_nil hname.all
    have hlast := any_getLast?_of_forall hname.ne_nil hname.all
    refine ⟨hname, ?_, ?_⟩
    · rcases h.left with hedge | hextends' | hleft
      · simpa [splitsIdent, hhead, hedge] using hleft
      · exact absurd hextends' hextends
      · exact hleft
    · rcases h.right with hedge | hright
      · simpa [splitsIdent, hlast, hedge] using hright
      · exact hright

end Spot

/-- In ASCII words and identifiers have the same characters. -/
theorem splitsIdent_eq_false {before after : Option Char} (hbefore : ∀ c ∈ before, c.toNat < 0x80)
    (hafter : ∀ c ∈ after, c.toNat < 0x80) : splitsIdent before after = false := by
  rw [splitsIdent, isWordEdge, any_isWordChar_eq hbefore, any_isWordChar_eq hafter]
  cases before.any isIdentContinue <;> cases after.any isIdentContinue <;> rfl

theorem firstOf_subset (seen : List Position) (entries : List (Position × ReferenceKind)) :
    firstOf seen entries ⊆ entries := by
  induction entries generalizing seen with
  | nil => exact List.Subset.refl []
  | cons e rest ih =>
      rw [firstOf]
      split
      · exact List.subset_cons_of_subset e (ih seen)
      · exact List.cons_subset_cons e (ih _)

theorem mem_onLines {declared : List Position} {k : Nat} {ls : List Text}
    {e : Position × ReferenceKind} (h : e ∈ onLines name declared k ls) :
    ∃ n line, ls[n]? = some line ∧ e.1.line = k + n ∧ (e.1.col, e.2) ∈ onLine name line ∧
      (CodeMask.ofLine line).isCode e.1.col = true ∧ e.1 ∉ declared := by
  induction ls generalizing k with
  | nil => cases h
  | cons line ls ih =>
      rw [onLines, List.mem_append] at h
      rcases h with h | h
      · split at h
        · obtain ⟨use, huse, rfl⟩ := List.mem_map.1 h
          obtain ⟨hmem, hcode⟩ := List.mem_filter.1 huse
          simp only [Bool.and_eq_true, Bool.not_eq_true', List.contains_eq_mem,
            decide_eq_false_iff_not] at hcode
          exact ⟨0, line, rfl, rfl, hmem, hcode.1, hcode.2⟩
        · cases h
      · obtain ⟨n, line', hline, hn, hrest⟩ := ih h
        exact ⟨n + 1, line', by rwa [List.getElem?_cons_succ], by omega, hrest⟩

theorem mem_all {file : FileId} {name : String} {declared : List Position}
    {withDeclarations : Bool} {engine : PatternEngine} {r : Reference}
    (hr : r ∈ all file cs name declared withDeclarations engine) :
    r ∈ search file cs name declared withDeclarations := by
  rw [all] at hr
  split at hr
  · exact hr
  · cases hr

theorem mem_search {file : FileId} {name : String} {declared : List Position}
    {withDeclarations : Bool} {r : Reference}
    (hr : r ∈ search file cs name declared withDeclarations)
    (hkind : r.kind ≠ .declaration) :
    (r.position, r.kind) ∈ onLines name.toList declared 0 (readLines cs) := by
  obtain ⟨e, he, rfl⟩ := List.mem_map.1 hr
  have hmem := firstOf_subset _ _ (List.mem_mergeSort.1 he)
  rcases List.mem_append.1 hmem with hmem | hmem
  · obtain ⟨p, -, rfl⟩ := List.mem_map.1 hmem
    exact absurd rfl hkind
  · exact hmem

end Reference

/-- A use that is no declaration lies in code and is not declared there. It is a whole identifier
unless the word `extends` stands right in front of it, or a word boundary lies between it and a
neighbour that belongs to the same identifier; the latter does not happen in ASCII. -/
theorem reference_whole_iff (file : FileId) {cs : Text} {name : String} (hname : IsIdent name.toList)
    (declared : List Position) (withDeclarations : Bool) {engine : PatternEngine} {r : Reference}
    (hr : r ∈ Reference.all file cs name declared withDeclarations engine)
    (hkind : r.kind ≠ .declaration) :
    r.position ∉ declared ∧ ∃ line before behind,
      (readLines cs)[r.position.line]? = some line ∧
      line = before ++ (name.toList ++ behind) ∧ r.position.col = width before ∧
      (CodeMask.ofLine line).isCode r.position.col = true ∧
      (identAt line r.position.col = some (r.position.col, name.toList) ↔
        ¬ Reference.EndsWithExtends before ∧
          Reference.splitsIdent before.getLast? name.toList.head? = false ∧
          Reference.splitsIdent name.toList.getLast? behind.head? = false) ∧
      ((∀ c ∈ line, c.toNat < 0x80) →
        (identAt line r.position.col = some (r.position.col, name.toList) ↔
          ¬ Reference.EndsWithExtends before)) := by
  obtain ⟨n, line, hline, hn, huse, hcode, hfree⟩ :=
    Reference.mem_onLines (Reference.mem_search (Reference.mem_all hr) hkind)
  obtain ⟨before, behind, hspot⟩ := Reference.spot_of_mem_onLine hname.ne_nil huse
  rw [Nat.zero_add] at hn
  have hwhole := hspot.whole_iff hname
  refine ⟨hfree, line, before, behind, by rwa [hn], hspot.split, hspot.col, hcode, hwhole, ?_⟩
  intro hascii
  have hbefore : ∀ c ∈ before, c.toNat < 0x80 :=
    fun c hc => hascii c (by simp [hspot.split, hc])
  have hnamed : ∀ c ∈ name.toList, c.toNat < 0x80 :=
    fun c hc => hascii c (by simp [hspot.split, hc])
  have hbehind : ∀ c ∈ behind, c.toNat < 0x80 :=
    fun c hc => hascii c (by simp [hspot.split, hc])
  rw [hwhole]
  refine and_iff_left ⟨?_, ?_⟩
  · exact Reference.splitsIdent_eq_false (fun c hc => hbefore c (List.mem_of_getLast? hc))
      fun c hc => hnamed c (List.mem_of_head? hc)
  · exact Reference.splitsIdent_eq_false (fun c hc => hnamed c (List.mem_of_getLast? hc))
      fun c hc => hbehind c (List.mem_of_head? hc)

def joinedHeader : Text := "class B extendsA \x7b\n".toList

theorem reference_torn_joinedHeader :
    ∃ r ∈ Reference.all ⟨0⟩ joinedHeader "A" [] false, r.kind ≠ .declaration ∧
      ∃ line, (readLines joinedHeader)[r.position.line]? = some line ∧
        identAt line r.position.col ≠ some (r.position.col, "A".toList) := by
  have hfound : Reference.firstOf [] (Reference.onLines "A".toList [] 0 (readLines joinedHeader)) =
      [(⟨0, 15⟩, .typePosition)] := by decide +kernel
  have hr : (⟨⟨0⟩, ⟨0, 15⟩, 1, .typePosition⟩ : Reference) ∈
      Reference.all ⟨0⟩ joinedHeader "A" [] false := by
    rw [Reference.all, if_pos (by decide +kernel)]
    simp only [Reference.search, Bool.false_eq_true, if_false, List.map_nil, List.nil_append,
      hfound, List.mergeSort_singleton]
    decide
  have hname : IsIdent "A".toList := ⟨by decide, List.forall_iff_forall_mem.1 (by decide)⟩
  obtain ⟨-, line, before, behind, hline, hsplit, hcol, -, -, hascii⟩ :=
    reference_whole_iff ⟨0⟩ hname [] false hr (by decide)
  have hlines : readLines joinedHeader = ["class B extendsA \x7b".toList] := by decide
  have hread : line = "class B extendsA \x7b".toList := by
    rw [hlines] at hline
    exact (Option.some.inj hline).symm
  have hbefore : before = "class B extends".toList := by
    have htake := takeBytes_width_append before ("A".toList ++ behind)
    rw [← hsplit, ← hcol, hread] at htake
    rw [← htake]
    decide
  refine ⟨_, hr, by decide, line, hline, fun hwhole => ?_⟩
  refine (hascii ?_).1 hwhole ⟨"class B ".toList, hbefore, by decide⟩
  rw [hread]
  exact List.forall_iff_forall_mem.1 (by decide)

end ProcedureIndex
