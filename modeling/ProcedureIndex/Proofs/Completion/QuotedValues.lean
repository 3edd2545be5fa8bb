import ProcedureIndex.Completion.Generator
import ProcedureIndex.Proofs.Completion.CursorContext

/-!
Labels and versions as they are inserted. Whether a value needs quotes is decided by the number of
double quotes on the line of the cursor, which is odd in a string between double quotes and even
in code. A double quote that a string holds as text counts as well, and in a string between single
quotes nothing else does; so the number decides rightly exactly when the quotes that are held are
even in number, and odd if the cursor stands in a string between single quotes.
-/

namespace ProcedureIndex

open Text

namespace Text

/-- The quote of the string in which a scan stands. -/
def Quoting.open? : Quoting → Option Char
  | .code => none
  | .within q | .hidden q => some q

/-- Does the next double quote belong to the text of a string? -/
def Quoting.holdsQuote : Quoting → Bool
  | .code => false
  | .within q => q != '"'
  | .hidden _ => true

/-- How many double quotes neither open nor close a string. -/
def heldQuotes : Quoting → Text → Nat
  | _, [] => 0
  | q, c :: cs => (if c = '"' ∧ q.holdsQuote then 1 else 0) + heldQuotes (q.next c) cs

def Quoting.opened (q : Quoting) : Nat :=
  if q.open? = some '"' then 1 else 0

/-- A double quote that is not held is the one that changes between code and a string between double
quotes; on a line nothing else does. -/
theorem Quoting.opened_next (q : Quoting) {c : Char} (hc : c ≠ '\n') :
    ((if c = '"' then 1 else 0) + q.opened) % 2 =
      ((if c = '"' ∧ q.holdsQuote then 1 else 0) + (q.next c).opened) % 2 := by
  cases q with
  | code =>
      by_cases hdouble : c = '"'
      · simp [hdouble, next, isQuote, opened, open?, holdsQuote]
      · by_cases hsingle : c = '\''
        · simp [hsingle, next, isQuote, opened, open?]
        · simp [hdouble, hsingle, next, isQuote, opened, open?]
  | within q =>
      by_cases hslash : c = '\\'
      · simp [hslash, next, opened, open?]
      · by_cases hclose : c = q
        · by_cases hdouble : c = '"'
          · simp [← hclose, hdouble, next, opened, open?, holdsQuote]
          · simp [← hclose, hdouble, hslash, next, opened, open?]
        · by_cases hdouble : c = '"'
          · have hq : q ≠ '"' := fun h => hclose (hdouble.trans h.symm)
            simp [hdouble, Ne.symm hq, hq, next, opened, open?, holdsQuote]
          · simp [hdouble, hslash, hclose, hc, next, opened, open?]
  | hidden q => simp [next, opened, open?, holdsQuote]

theorem count_quote_mod_two {line : Text} (hline : '\n' ∉ line) (q : Quoting) :
    (line.count '"' + q.opened) % 2 = (heldQuotes q line + (q.after line).opened) % 2 := by
  induction line generalizing q with
  | nil => simp [heldQuotes]
  | cons c line ih =>
      obtain ⟨hc, hline⟩ : c ≠ '\n' ∧ '\n' ∉ line := by
        simpa [eq_comm] using hline
      have hstep := q.opened_next hc
      have hrest := ih hline (q.next c)
      rw [List.count_cons, heldQuotes, Quoting.after_cons]
      simp only [beq_iff_eq]
      omega

/-- No string stands between anything but quotes. -/
theorem Quoting.isQuote_of_open? {q : Quoting} (h : ∀ r ∈ q.open?, isQuote r = true) (cs : Text) :
    ∀ r ∈ (q.after cs).open?, isQuote r = true := by
  induction cs generalizing q with
  | nil => exact h
  | cons c cs ih =>
      rw [after_cons]
      apply ih
      cases q with
      | code =>
          by_cases hc : isQuote c = true
          · simp [next, hc, open?]
          · simp [next, hc, open?]
      | within r =>
          rw [next]
          split
          · exact h
          · split
            · simp [open?]
            · exact h
      | hidden r => exact h

/-- An odd number of double quotes shows an open string exactly if the quotes that are held are even
in number, or odd in a string between single quotes. -/
theorem odd_quotes_iff {line : Text} (hline : '\n' ∉ line) :
    (line.count '"' % 2 = 1 ↔ endsInString line = true) ↔
      (heldQuotes .code line % 2 = 1 ↔ (Quoting.code.after line).open? = some '\'') := by
  have hcount := count_quote_mod_two hline .code
  have hquote := Quoting.isQuote_of_open? (q := .code) (by simp [Quoting.open?]) line
  have hends : endsInString line = true ↔ (Quoting.code.after line).open? ≠ none := by
    rw [endsInString]
    cases Quoting.code.after line <;> simp [Quoting.open?]
  have hcode : Quoting.code.opened = 0 := rfl
  rw [hends]
  cases hopen : (Quoting.code.after line).open? with
  | none =>
      have hopened : (Quoting.code.after line).opened = 0 := by
        rw [Quoting.opened, hopen]
        rfl
      simp only [ne_eq, not_true_eq_false, reduceCtorEq, iff_false]
      omega
  | some r =>
      rw [hopen] at hquote
      simp only [ne_eq, reduceCtorEq, not_false_eq_true, iff_true, Option.some.injEq]
      rcases (by simpa [Quoting.isQuote] using hquote : r = '"' ∨ r = '\'') with rfl | rfl
      · have hopened : (Quoting.code.after line).opened = 1 := by
          rw [Quoting.opened, hopen]
          rfl
        simp only [Char.reduceEq, iff_false]
        omega
      · have hopened : (Quoting.code.after line).opened = 0 := by
          rw [Quoting.opened, hopen]
          rfl
        simp only [iff_true]
        omega

end Text

/-- A value as the end of a line takes it: bare in a string that is open there, in quotes
otherwise. -/
def fitted (line : Text) (value : String) : String :=
  if endsInString line then value else "\"" ++ value ++ "\""

namespace Generator

variable {here : Situation}

theorem insert_of_mem_valuesInUse {kind : OfferKind} {inUse suggested : List String}
    {detail : String → String} {inUseReason suggestedDetail suggestedReason : String} {p : Proposal}
    (h : p ∈ valuesInUse here kind inUse detail inUseReason suggested suggestedDetail
      suggestedReason) : p.offer.insert = quoted here p.offer.label := by
  rcases List.mem_append.1 h with h | h
  · obtain ⟨v, -, rfl⟩ := List.mem_map.1 h
    rfl
  · obtain ⟨v, -, rfl⟩ := List.mem_map.1 h
    rfl

theorem insert_of_mem_generate {g : Generator} (hg : g ∈ [labels, versions]) {p : Proposal}
    (h : p ∈ g.generate here) : p.offer.insert = quoted here p.offer.label := by
  simp only [List.mem_cons, List.not_mem_nil, or_false] at hg
  rcases hg with rfl | rfl
  · exact insert_of_mem_valuesInUse h
  · simp only [versions] at h
    split at h
    · exact insert_of_mem_valuesInUse h
    · cases h

theorem quoted_eq_fitted_iff (value : String) :
    quoted here value = fitted here.request.lineBefore value ↔
      (here.request.lineBefore.count '"' % 2 = 1 ↔
        endsInString here.request.lineBefore = true) := by
  have hne : value ≠ "\"" ++ value ++ "\"" := by
    intro h
    have hlength := congrArg String.length h
    simp only [String.length_append] at hlength
    have hquote : "\"".length = 1 := rfl
    omega
  rw [quoted, fitted]
  split
  · next hodd =>
      split
      · next hends => simp [hodd, hends]
      · next hends => simp [hodd, hends, hne]
  · next hodd =>
      split
      · next hends => simp [hodd, hends, hne.symm]
      · next hends => simp [hodd, hends]

end Generator

/-- A label or a version is inserted as the line of the cursor takes it, in quotes unless a string
is open there, if and only if the double quotes that strings on the line hold as text are odd in
number exactly when that string is one between single quotes. -/
theorem insertion_fitted_iff {g : Generator} (hg : g ∈ [Generator.labels, Generator.versions])
    (here : Situation) {p : Proposal} (hp : p ∈ g.generate here) :
    p.offer.insert = fitted here.request.lineBefore p.offer.label ↔
      (heldQuotes .code here.request.lineBefore % 2 = 1 ↔
        (Quoting.code.after here.request.lineBefore).open? = some '\'') := by
  have hline : '\n' ∉ here.request.lineBefore := newline_not_mem_lastLine here.request.before
  rw [Generator.insert_of_mem_generate hg hp, Generator.quoted_eq_fitted_iff, odd_quotes_iff hline]

def behindText (before : Text) : Situation where
  context := Context.classify before []
  snapshot := ⟨[Workspace.tabulate ⟨0⟩ ⟨"/a.method"⟩ ⟨1⟩
    "fn mark(sign, version: \"odd\") \x7b\x7d\n".toList]⟩
  habits := {}
  config := {}
  request := ⟨⟨1⟩, before, []⟩
  enclosing := none

def oddVersion (insert : String) : Proposal where
  offer := { label := "odd", kind := .version, insert := insert,
             detail := some "existing version of mark", origin := .workspace, boost := 250 }
  rationale := "version already declared"

def heldPair : Text := "mark('\"\"', version: ".toList

theorem insertion_fitted_iff_heldPair :
    oddVersion "\"odd\"" ∈ Generator.versions.generate (behindText heldPair) ∧
      heldQuotes .code heldPair = 2 ∧
      "\"odd\"" = fitted heldPair "odd" := by
  have hmem : oddVersion "\"odd\"" ∈ Generator.versions.generate (behindText heldPair) := by
    decide +kernel
  exact ⟨hmem, by decide, (insertion_fitted_iff (by simp) _ hmem).2 (by decide +kernel)⟩

def heldQuote : Text := "mark('\"', version: ".toList

theorem version_bare_heldQuote :
    Context.classify heldQuote [] = .version [] (some "mark".toList) ∧
      endsInString heldQuote = false ∧
      oddVersion "odd" ∈ Generator.versions.generate (behindText heldQuote) ∧
      "odd" ≠ fitted (behindText heldQuote).request.lineBefore "odd" := by
  decide +kernel

end ProcedureIndex
