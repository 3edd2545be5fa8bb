import ProcedureIndex.Proofs.Document.Canonical
import ProcedureIndex.Proofs.Document.Recognition
import ProcedureIndex.Proofs.Text.Braces

/-!
The lines of canonical documents, one at a time: where the searches for classes,
functions and pipelines stop on a line and what they find, what the recognisers of
one-line declarations say of it, which braces it closes, and what it is as an
annotation.
-/

namespace ProcedureIndex
namespace Canonical

open Text

namespace Word

variable (w : Word)

theorem toNat_lt_of_isAlphanum {c : Char} (h : (c.isAlphanum || c == '_') = true) :
    c.toNat < 128 := by
  have below : ∀ {d : Char}, d.toNat < 128 → c.val ≤ d.val → c.toNat < 128 :=
    fun hd hle => Nat.lt_of_le_of_lt (UInt32.le_iff_toNat_le.1 hle) hd
  rw [Bool.or_eq_true, beq_iff_eq] at h
  cases h with
  | inl h =>
      obtain halpha | hdigit := (Bool.or_eq_true c.isAlpha c.isDigit).mp h
      · obtain hupper | hlower := (Bool.or_eq_true c.isUpper c.isLower).mp halpha
        · exact below (d := 'Z') (by decide) (of_decide_eq_true hupper).2
        · have hle := of_decide_eq_true ((Bool.and_eq_true _ _).mp hlower).2
          exact below (d := 'z') (by decide) hle
      · have hle := of_decide_eq_true ((Bool.and_eq_true _ _).mp hdigit).2
        exact below (d := '9') (by decide) hle
  | inr h =>
      cases h
      decide

theorem isName : IsName w.text where
  start := by
    have hs := w.start
    cases htext : w.text with
    | nil => simp [htext] at hs
    | cons c cs =>
        have hc := toNat_lt_of_isAlphanum (w.all c (by simp [htext]))
        rw [htext] at hs
        have hs : (c.isAlpha || c == '_') = true := hs
        simpa [isNameStart, hc] using hs
  all c hc := by
    have hword := w.all c hc
    simp only [Char.isAlphanum, Bool.or_eq_true] at hword
    simp only [isNameContinue, isNameStart, toNat_lt_of_isAlphanum (w.all c hc), if_true,
      Bool.or_eq_true]
    tauto

theorem isWordChar : ∀ c ∈ w.text, isWordChar c = true := by
  intro c hc
  have hlt := toNat_lt_of_isAlphanum (w.all c hc)
  have hascii : covers [(0, 0x7F)] c.toNat = true := by
    simp only [covers, List.any_cons, List.any_nil]
    grind
  have hwordless : covers nonWordNameRanges c.toNat = false :=
    covers_eq_false_of_apart (by decide) hascii
  simp [Text.isWordChar, w.isName.all c hc, hwordless]

theorem not_mem {c : Char} (h : (c.isAlphanum || c == '_') = false) : c ∉ w.text := by
  intro hc
  rw [w.all c hc] at h
  exact absurd h (by decide)

theorem ne_of_mem {c d : Char} (hc : c ∈ w.text) (hd : (d.isAlphanum || d == '_') = false) :
    c ≠ d := by
  rintro rfl
  exact w.not_mem hd hc

theorem calm : Calm w.text where
  code := after_eq_self fun c hc => by
    have hdouble := w.ne_of_mem hc (d := '"') (by decide)
    have hsingle := w.ne_of_mem hc (d := '\'') (by decide)
    simp [Quoting.next, Quoting.isQuote, hdouble, hsingle]
  noOpen := w.not_mem (by decide)
  noClose := w.not_mem (by decide)

theorem after_within : (Quoting.within '"').after w.text = .within '"' := by
  apply after_eq_self
  intro c hc
  have hslash := w.ne_of_mem hc (d := '\\') (by decide)
  have hquote := w.ne_of_mem hc (d := '"') (by decide)
  have hnewline := w.ne_of_mem hc (d := '\n') (by decide)
  simp [Quoting.next, hslash, hquote, hnewline]

end Word

def Piece.parts : Piece → Bool
  | .fixed s => s.toList.head?.any (!isWordChar ·)
  | .word _ => false

/-- Are words kept apart, and is no word of the fixed text a key? -/
def idle (keys : List Text) : List Piece → Bool
  | [] => true
  | .fixed s :: ps => idleFrom keys [] s.toList && idle keys ps
  | .word _ :: ps => ps.head?.all Piece.parts && idle keys ps

theorem edge_of_parts {ps : List Piece} (hps : ps.head?.all Piece.parts = true) {b : Text}
    (hb : Edge b) : Edge (ps.flatMap Piece.text ++ b) := by
  cases ps with
  | nil => exact hb
  | cons q ps =>
      have hq : q.parts = true := hps
      cases q with
      | word w => cases hq
      | fixed s =>
          rw [List.flatMap_cons, Piece.text]
          rw [Piece.parts] at hq
          cases hs : s.toList with
          | nil => simp [hs] at hq
          | cons c cs =>
              rw [hs] at hq
              exact edge_cons (by simpa using hq)

/-- A search passes over a line without its keys. -/
theorem hitsFrom_pieces {α : Type} {keys : List Text} {p : Pattern α} (h : Keyed keys p)
    (hkeys : ∀ k ∈ keys, k ∈ reserved) {offset : Nat} {ps : List Piece} (hps : idle keys ps = true)
    {b : Text} (hb : Edge b) :
    hitsFrom p none offset 0 (ps.flatMap Piece.text ++ b) =
      hitsFrom p none (offset + width (ps.flatMap Piece.text)) 0 b := by
  induction ps generalizing offset with
  | nil => rfl
  | cons q ps ih =>
      rw [List.flatMap_cons, List.append_assoc, width_append]
      cases q with
      | fixed s =>
          rw [idle, Bool.and_eq_true] at hps
          have hgo := h.hitsFrom_idle offset (List.forall_mem_nil _) hps.1
            (ps.flatMap Piece.text ++ b)
          rw [List.nil_append, List.nil_append] at hgo
          rw [Piece.text, hgo, ih hps.2, Nat.add_assoc]
      | word w =>
          rw [idle, Bool.and_eq_true] at hps
          have hfree : w.text ∉ keys := fun hk => w.free (hkeys _ hk)
          rw [Piece.text, h.hitsFrom_word w.isWordChar hfree (edge_of_parts hps.1 hb), ih hps.2,
            Nat.add_assoc]

namespace Line

theorem idle_class (l : Line) (hl : ∀ n p, l ≠ .classOpen n p) :
    idle [ClassHeader.keyword] l.pieces = true := by
  cases l with
  | blank | classClose => rfl
  | note value => cases value <;> rfl
  | function n v => cases v <;> rfl
  | pipeline n | typeAlias n t | macroText n t | constant n t => rfl
  | classOpen n p => exact absurd rfl (hl n p)
  | method m =>
      obtain ⟨m, v, isStatic⟩ := m
      cases isStatic <;> cases v <;> rfl

theorem idle_pipeline (l : Line) (hl : ∀ n, l ≠ .pipeline n) :
    idle [PipelineHeader.keyword] l.pieces = true := by
  cases l with
  | blank | classClose => rfl
  | note value => cases value <;> rfl
  | function n v => cases v <;> rfl
  | typeAlias n t | macroText n t | constant n t => rfl
  | pipeline n => exact absurd rfl (hl n)
  | classOpen n p => cases p <;> rfl
  | method m =>
      obtain ⟨m, v, isStatic⟩ := m
      cases isStatic <;> cases v <;> rfl

theorem idle_fn (l : Line) (hl : ∀ n v, l ≠ .function n v) (hl' : ∀ m, l ≠ .method m) :
    idle [FnHeader.keyword, FnHeader.staticKeyword] l.pieces = true := by
  cases l with
  | blank | classClose => rfl
  | note value => cases value <;> rfl
  | function n v => exact absurd rfl (hl n v)
  | pipeline n | typeAlias n t | macroText n t | constant n t => rfl
  | classOpen n p => cases p <;> rfl
  | method m => exact absurd rfl (hl' m)

end Line

def LineEnd (b : Text) : Prop :=
  b = [] ∨ ∃ r, b = '\n' :: r

namespace LineEnd

variable {b : Text}

theorem edge (h : LineEnd b) : Edge b := by
  obtain rfl | ⟨r, rfl⟩ := h
  · exact edge_nil
  · exact edge_cons (by decide)

theorem head?_any (h : LineEnd b) : b.head?.any isNameContinue = false := by
  obtain rfl | ⟨r, rfl⟩ := h
  · rfl
  · rfl

end LineEnd

/-- A hit on a line as a hit in a text with that line at `offset` and `b` behind it. -/
def shift {α : Type} (offset : Nat) (b : Text) (h : Hit α) : Hit α :=
  ⟨offset + h.start, h.value, h.rest ++ b⟩

/-- A search that reads a line finds what it finds there, and goes on behind the line. -/
def Finds {α : Type} (p : Pattern α) (l : Line) (found : List (Hit α)) : Prop :=
  ∀ offset b, LineEnd b → hitsFrom p none offset 0 (l.text ++ b) =
    found.map (shift offset b) ++ hitsFrom p none (offset + width l.text) 0 b

theorem finds_nil {α : Type} {keys : List Text} {p : Pattern α} (h : Keyed keys p)
    (hkeys : ∀ k ∈ keys, k ∈ reserved) {l : Line} (hl : idle keys l.pieces = true) :
    Finds p l [] :=
  fun _ _ hb => hitsFrom_pieces h hkeys hl hb.edge

theorem finds_one {α : Type} {keys : List Text} {p : Pattern α} (h : Keyed keys p) {l : Line}
    (pre m post : Text) {a : α} (hl : l.text = pre ++ (m ++ post))
    (hpre : pre.all (fun c => !isWordChar c) = true) (hm : m ≠ [])
    (hpost : post.all (fun c => !isWordChar c) = true)
    (hp : ∀ b, LineEnd b → p none (m ++ (post ++ b)) = some (a, post ++ b)) :
    Finds p l [⟨width pre, a, post⟩] := by
  intro offset b hb
  have hpre : ∀ c ∈ pre, isWordChar c = false := by simpa using hpre
  have hpost : ∀ c ∈ post, isWordChar c = false := by simpa using hpost
  have hgo := h.hitsFrom_between hpre hm hpost hb.edge (hp b hb) offset
  rw [hl, List.append_assoc, List.append_assoc, hgo]
  rfl

namespace Line

def classHits : Line → List (Hit ClassHeader)
  | .classOpen n p => [⟨0, ⟨ClassHeader.keyword ++ [' '], n.text, p.map Word.text⟩, [' ', '{']⟩]
  | _ => []

theorem finds_class (l : Line) : Finds ClassHeader.pattern l l.classHits := by
  have hnone : (∀ n p, l ≠ .classOpen n p) → Finds ClassHeader.pattern l [] := fun hl =>
    finds_nil ClassHeader.keyed (by decide) (idle_class l hl)
  cases l with
  | classOpen n p =>
      cases p with
      | none =>
          refine finds_one ClassHeader.keyed [] (ClassHeader.keyword ++ ' ' :: n.text) [' ', '{']
            ?_ rfl (by simp) (by decide) ?_
          · simp [text, pieces, Piece.text, ClassHeader.keyword_eq]
          · intro b hb
            simpa using ClassHeader.pattern_plain n.isName b
      | some p =>
          refine finds_one ClassHeader.keyed []
            (ClassHeader.keyword ++ ' ' :: (n.text ++ ' ' :: ("extends".toList ++ ' ' :: p.text)))
            [' ', '{'] ?_ rfl (by simp) (by decide) ?_
          · simp [text, pieces, Piece.text, ClassHeader.keyword_eq]
          · intro b hb
            simpa using ClassHeader.pattern_extends n.isName p.isName (' ' :: '{' :: b) rfl
  | _ => exact hnone (by simp)

def pipelineHits : Line → List (Hit PipelineHeader)
  | .pipeline n => [⟨0, ⟨PipelineHeader.keyword ++ [' '], n.text⟩, []⟩]
  | _ => []

theorem finds_pipeline (l : Line) : Finds PipelineHeader.pattern l l.pipelineHits := by
  have hnone : (∀ n, l ≠ .pipeline n) → Finds PipelineHeader.pattern l [] := fun hl =>
    finds_nil PipelineHeader.keyed (by decide) (idle_pipeline l hl)
  cases l with
  | pipeline n =>
      refine finds_one PipelineHeader.keyed [] (PipelineHeader.keyword ++ ' ' :: n.text) []
        ?_ rfl (by simp) rfl ?_
      · simp [text, pieces, Piece.text, PipelineHeader.keyword_eq]
      · intro b hb
        simpa using PipelineHeader.pattern_append n.isName hb.head?_any
  | _ => exact hnone (by simp)

end Line

def paramText (v : Option Word) : Text :=
  v.elim [] fun v => "version: \"".toList ++ (v.text ++ ['"'])

theorem not_mem_paramText (v : Option Word) : ')' ∉ paramText v := by
  cases v with
  | none => simp [paramText]
  | some v => simp [paramText, v.not_mem (c := ')') (by decide)]

theorem versionIn_paramText (v : Option Word) : versionIn (paramText v) = v.map Word.name := by
  cases v with
  | none => rfl
  | some v => exact versionIn_append (v.not_mem (by decide)) []

theorem params_text (close : String) (v : Option Word) :
    (params close v).flatMap Piece.text = '(' :: (paramText v ++ close.toList) := by
  cases v with
  | none => simp [params, paramText, Piece.text]
  | some v => simp [params, paramText, Piece.text]

namespace Line

def fnHits : Line → List (Hit FnHeader)
  | .function n v =>
      [⟨0, ⟨false, FnHeader.keyword ++ [' '], n.text, paramText v⟩, ") {}".toList⟩]
  | .method ⟨m, v, false⟩ =>
      [⟨4, ⟨false, FnHeader.keyword ++ [' '], m.text, paramText v⟩, [')']⟩]
  | .method ⟨m, v, true⟩ =>
      [⟨4, ⟨true, FnHeader.staticKeyword ++ [' '] ++ (FnHeader.keyword ++ [' ']), m.text,
        paramText v⟩, [')']⟩]
  | _ => []

theorem finds_fn (l : Line) : Finds FnHeader.pattern l l.fnHits := by
  have hnone : (∀ n v, l ≠ .function n v) → (∀ m, l ≠ .method m) → Finds FnHeader.pattern l [] :=
    fun hl hl' => finds_nil FnHeader.keyed (by decide) (idle_fn l hl hl')
  cases l with
  | function n v =>
      refine finds_one FnHeader.keyed []
        (FnHeader.keyword ++ ' ' :: (n.text ++ '(' :: paramText v)) ") {}".toList
        ?_ rfl (by simp) (by decide +kernel) ?_
      · simp [text, pieces, Piece.text, params_text, FnHeader.keyword_eq]
      · intro b hb
        simpa using FnHeader.pattern_plain n.isName (not_mem_paramText v) (" {}".toList ++ b)
  | method m =>
      obtain ⟨m, v, isStatic⟩ := m
      cases isStatic with
      | false =>
          refine finds_one FnHeader.keyed "    ".toList
            (FnHeader.keyword ++ ' ' :: (m.text ++ '(' :: paramText v)) [')']
            ?_ (by decide +kernel) (by simp) (by decide) ?_
          · simp [text, pieces, Piece.text, params_text, FnHeader.keyword_eq]
          · intro b hb
            simpa using FnHeader.pattern_plain m.isName (not_mem_paramText v) b
      | true =>
          refine finds_one FnHeader.keyed "    ".toList
            (FnHeader.staticKeyword ++
              ' ' :: (FnHeader.keyword ++ ' ' :: (m.text ++ '(' :: paramText v))) [')']
            ?_ (by decide +kernel) (by simp) (by decide) ?_
          · simp [text, pieces, Piece.text, params_text, FnHeader.keyword_eq,
              FnHeader.staticKeyword_eq]
          · intro b hb
            simpa using FnHeader.pattern_static m.isName (not_mem_paramText v) b
  | _ => exact hnone (by simp) (by simp)

end Line

def Piece.lacks (c : Char) : Piece → Bool
  | .fixed s => !s.toList.contains c
  | .word _ => true

theorem not_mem_pieces {c : Char} (hc : (c.isAlphanum || c == '_') = false) {ps : List Piece}
    (hps : ps.all (Piece.lacks c) = true) : c ∉ ps.flatMap Piece.text := by
  intro hmem
  obtain ⟨q, hq, hcq⟩ := List.mem_flatMap.1 hmem
  have hlacks := List.all_eq_true.1 hps q hq
  cases q with
  | word w => exact w.not_mem hc hcq
  | fixed s =>
      rw [Piece.lacks] at hlacks
      simp only [Bool.not_eq_true', List.contains_eq_mem, decide_eq_false_iff_not] at hlacks
      exact hlacks hcq

/-- The state after some pieces, if every word among them stands in code or between double
quotes. -/
def quotingAfter? : Quoting → List Piece → Option Quoting
  | q, [] => some q
  | q, .fixed s :: ps => quotingAfter? (q.after s.toList) ps
  | q, .word _ :: ps => if q = .code ∨ q = .within '"' then quotingAfter? q ps else none

theorem after_pieces {q q' : Quoting} {ps : List Piece} (h : quotingAfter? q ps = some q') :
    q.after (ps.flatMap Piece.text) = q' := by
  induction ps generalizing q with
  | nil => exact Option.some.inj h
  | cons r ps ih =>
      rw [List.flatMap_cons, Quoting.after_append]
      cases r with
      | fixed s => exact ih h
      | word w =>
          rw [quotingAfter?] at h
          split at h
          · next hq =>
              have hstay : q.after w.text = q := by
                rcases hq with rfl | rfl
                · exact w.calm.code
                · exact w.after_within
              rw [Piece.text, hstay]
              exact ih h
          · cases h

namespace Line

theorem after_text (l : Line) : Quoting.code.after l.text = .code := by
  apply after_pieces
  cases l with
  | blank | classClose | pipeline n | typeAlias n t | macroText n t | constant n t => rfl
  | note value => cases value <;> rfl
  | function n v => cases v <;> rfl
  | classOpen n p => cases p <;> rfl
  | method m =>
      obtain ⟨m, v, isStatic⟩ := m
      cases isStatic <;> cases v <;> rfl

theorem exists_classOpen_text (n : Word) (p : Option Word) :
    ∃ front, (Line.classOpen n p).text = front ++ [' ', '{'] := by
  cases p with
  | none => exact ⟨"class ".toList ++ n.text, by simp [text, pieces, Piece.text]⟩
  | some p =>
      exact ⟨"class ".toList ++ (n.text ++ (" extends ".toList ++ p.text)), by
        simp [text, pieces, Piece.text]⟩

theorem exists_method_text (m : Method) :
    ∃ rest, (Line.method m).text = [' ', ' ', ' ', ' '] ++ rest := by
  obtain ⟨m, v, isStatic⟩ := m
  cases isStatic with
  | false =>
      exact ⟨"fn ".toList ++ (m.text ++ (params ")" v).flatMap Piece.text), by
        simp [text, pieces, Piece.text]⟩
  | true =>
      exact ⟨"static fn ".toList ++ (m.text ++ (params ")" v).flatMap Piece.text), by
        simp [text, pieces, Piece.text]⟩

theorem calm_method (m : Method) : Calm (Line.method m).text where
  code := after_text _
  noOpen := not_mem_pieces (by decide) (by
    obtain ⟨m, v, isStatic⟩ := m
    cases isStatic <;> cases v <;> rfl)
  noClose := not_mem_pieces (by decide) (by
    obtain ⟨m, v, isStatic⟩ := m
    cases isStatic <;> cases v <;> rfl)

def closers : Line → List Nat
  | .function n v => [width (Line.function n v).text - 1]
  | .classClose => [0]
  | _ => []

theorem noClose (l : Line) (hl : ∀ n v, l ≠ .function n v) (hl' : l ≠ .classClose) :
    '}' ∉ l.text := by
  refine not_mem_pieces (by decide) ?_
  cases l with
  | blank | pipeline n | typeAlias n t | macroText n t | constant n t => rfl
  | note value => cases value <;> rfl
  | function n v => exact absurd rfl (hl n v)
  | classOpen n p => cases p <;> rfl
  | method m =>
      obtain ⟨m, v, isStatic⟩ := m
      cases isStatic <;> cases v <;> rfl
  | classClose => exact absurd rfl hl'

theorem closersFrom_text (l : Line) (offset : Nat) (b : Text) :
    closersFrom .code offset (l.text ++ b) =
      l.closers.map (offset + ·) ++ closersFrom .code (offset + width l.text) b := by
  rw [closersFrom_append, after_text]
  congr 1
  have hnone : (∀ n v, l ≠ .function n v) → l ≠ .classClose →
      closersFrom .code offset l.text = [] := fun hl hl' =>
    closersFrom_eq_nil (l.noClose hl hl') .code offset
  cases l with
  | function n v =>
      have hsplit : (Line.function n v).text =
          (.fixed "fn " :: .word n :: params ") \x7b" v).flatMap Piece.text ++ ['}'] := by
        simp [text, pieces, Piece.text, params_text]
      have hcode : Quoting.code.after
          ((.fixed "fn " :: .word n :: params ") \x7b" v).flatMap Piece.text) = .code :=
        after_pieces (by cases v <;> rfl)
      have hclose : '}' ∉ (.fixed "fn " :: .word n :: params ") \x7b" v).flatMap Piece.text :=
        not_mem_pieces (by decide) (by cases v <;> rfl)
      rw [closers, hsplit, closersFrom_append, closersFrom_eq_nil hclose, hcode, width_append]
      rfl
  | classClose => rfl
  | _ => exact hnone (by simp) (by simp)

def aliasHeader : Line → Option LineHeader
  | .typeAlias n t => some ⟨"alias".toList ++ [' '], n.text, ' ' :: t.text⟩
  | _ => none

def macroHeader : Line → Option LineHeader
  | .macroText n v => some ⟨"macro".toList ++ [' '], n.text, v.text⟩
  | _ => none

def constantHeader : Line → Option LineHeader
  | .constant n v => some ⟨"const".toList ++ [' '], n.text, ' ' :: v.text⟩
  | _ => none

/-- No recogniser takes a line of another kind for its own. -/
theorem recognised (l : Line) :
    LineHeader.assigned? "alias".toList l.text = l.aliasHeader ∧
      LineHeader.spaced? "macro".toList l.text = l.macroHeader ∧
      LineHeader.assigned? "const".toList l.text = l.constantHeader := by
  cases l with
  | typeAlias n t =>
      have htext : (Line.typeAlias n t).text =
          "alias".toList ++ ' ' :: (n.text ++ ' ' :: '=' :: ' ' :: t.text) := by
        simp [text, pieces, Piece.text]
      refine ⟨?_, rfl, rfl⟩
      rw [htext]
      exact LineHeader.assigned?_append rfl (by simp) n.isName (' ' :: t.text)
  | macroText n v =>
      have htext : (Line.macroText n v).text =
          "macro".toList ++ ' ' :: (n.text ++ ' ' :: v.text) := by
        simp [text, pieces, Piece.text]
      refine ⟨rfl, ?_, rfl⟩
      rw [htext]
      exact LineHeader.spaced?_append rfl (by simp) n.isName v.text
  | constant n v =>
      have htext : (Line.constant n v).text =
          "const".toList ++ ' ' :: (n.text ++ ' ' :: '=' :: ' ' :: v.text) := by
        simp [text, pieces, Piece.text]
      refine ⟨rfl, rfl, ?_⟩
      rw [htext]
      exact LineHeader.assigned?_append rfl (by simp) n.isName (' ' :: v.text)
  | blank | classClose | pipeline n | function n v => exact ⟨rfl, rfl, rfl⟩
  | note value => cases value <;> exact ⟨rfl, rfl, rfl⟩
  | classOpen n p => cases p <;> exact ⟨rfl, rfl, rfl⟩
  | method m =>
      obtain ⟨m, v, isStatic⟩ := m
      cases isStatic <;> exact ⟨rfl, rfl, rfl⟩

open Annotations in
def asNote : Line → LineNote
  | .blank => .blank
  | .note (.label l) => .label l.text
  | .note (.doc d) => .doc d.text
  | _ => .other

open Annotations in
theorem ofLine_text (l : Line) : LineNote.ofLine l.text = l.asNote := by
  cases l with
  | blank => rfl
  | note value =>
      cases value with
      | label l =>
          have htext : (Line.note (.label l)).text =
              "@label(\"".toList ++ (l.text ++ ['"', ')']) := by
            simp [text, pieces, Piece.text]
          rw [htext]
          exact ofLine_label (l.not_mem (by decide))
      | doc d =>
          have htext : (Line.note (.doc d)).text = "/// ".toList ++ d.text := by
            simp [text, pieces, Piece.text]
          rw [htext]
          exact ofLine_doc d.isName
  | function n v => exact ofLine_other rfl (by decide) (by decide) (by decide)
  | pipeline n => exact ofLine_other rfl (by decide) (by decide) (by decide)
  | typeAlias n t => exact ofLine_other rfl (by decide) (by decide) (by decide)
  | macroText n v => exact ofLine_other rfl (by decide) (by decide) (by decide)
  | constant n v => exact ofLine_other rfl (by decide) (by decide) (by decide)
  | classOpen n p => cases p <;> exact ofLine_other rfl (by decide) (by decide) (by decide)
  | method m =>
      obtain ⟨m, v, isStatic⟩ := m
      cases isStatic <;> exact ofLine_other rfl (by decide) (by decide) (by decide)
  | classClose => rfl

end Line

end Canonical
end ProcedureIndex
