import ProcedureIndex.Proofs.Completion.Merging
import ProcedureIndex.Proofs.Text.Blanking
import ProcedureIndex.Proofs.Text.Identifiers
import ProcedureIndex.Proofs.Text.Openings
import ProcedureIndex.Proofs.Text.Stretches

/-!
The context at the cursor. It is judged by the line of the cursor alone, and the word being
typed is always an end of that line, whichever check found it. An open string leaves only
labels, versions and the general context; open parentheses that are closed behind the cursor
leave no call, and an argument is named only there, for the call that they belong to.
-/

namespace ProcedureIndex

open Text

namespace Text

theorem lastLine_append_newline (front below : Text) :
    lastLine (front ++ '\n' :: below) = lastLine below := by
  rw [lastLine, lastLine, lines_append_cons_newline,
    List.getLast?_append_of_ne_nil _ (lines_ne_nil below)]

theorem lastLine_of_not_mem {line : Text} (hline : '\n' ∉ line) : lastLine line = line := by
  rw [lastLine, lines_of_not_mem hline]
  rfl

theorem newline_not_mem_lastLine (cs : Text) : '\n' ∉ lastLine cs := by
  induction cs using byLines with
  | last line hline => rwa [lastLine_of_not_mem hline]
  | line line below _ ih => rwa [lastLine_append_newline]

/-- What stands above the last line has no part in it. -/
theorem lastLine_join {front : Text} (hfront : front = [] ∨ front.getLast? = some '\n')
    (cs : Text) : lastLine (front ++ lastLine cs) = lastLine cs := by
  have hlast : lastLine (lastLine cs) = lastLine cs :=
    lastLine_of_not_mem (newline_not_mem_lastLine cs)
  rcases hfront with rfl | hfront
  · exact hlast
  · obtain ⟨above, rfl⟩ := List.getLast?_eq_some_iff.1 hfront
    rw [List.append_assoc, List.singleton_append, lastLine_append_newline, hlast]

theorem firstLine_join {tail : Text} (htail : tail = [] ∨ tail.head? = some '\n') (cs : Text) :
    firstLine (firstLine cs ++ tail) = firstLine cs := by
  have hall : ∀ c ∈ firstLine cs, (c != '\n') = true := by
    intro c hc
    rw [firstLine] at hc
    exact List.mem_takeWhile_imp (p := (· != '\n')) hc
  refine takeWhile_append_of_head? hall ?_
  rcases htail with rfl | htail
  · rfl
  · rw [htail]
    rfl

theorem trailingRun_append_of_edge {left : Text} (hleft : left.getLast?.any isIdentContinue = false)
    (right : Text) : trailingRun (left ++ right) <:+ right := by
  have hnone : left.reverse.takeWhile isIdentContinue = [] := by
    have hrun := trailingRun_eq_nil_iff.2 hleft
    rwa [trailingRun, List.reverse_eq_nil_iff] at hrun
  have hprefix : (left ++ right).reverse.takeWhile isIdentContinue <+: right.reverse := by
    rw [List.reverse_append, List.takeWhile_append]
    split
    · simp [hnone]
    · exact List.takeWhile_prefix _
  have hsuffix := List.reverse_suffix.2 hprefix
  rwa [List.reverse_reverse] at hsuffix

theorem trailingIdent_suffix_run (cs : Text) : trailingIdent cs <:+ trailingRun cs := by
  rw [trailingIdent]
  split
  · exact List.suffix_refl _
  · exact List.nil_suffix

theorem eq_false_of_any {p : Char → Bool} {cs : Text} (h : cs.any p = false) :
    ∀ c ∈ cs, p c = false :=
  fun c hc => Bool.eq_false_iff.2 (List.any_eq_false.1 h c hc)

theorem take_of_suffix {cs word front : Text} (h : front ++ word = cs) :
    cs.take (cs.length - word.length) = front := by
  rw [← h, List.length_append, Nat.add_sub_cancel]
  exact List.take_left

/-- A suffix starts at a boundary. -/
theorem takeBytes_of_suffix {cs word front : Text} (h : front ++ word = cs) :
    isBoundary (width cs - width word) cs = true ∧
      takeBytes (width cs - width word) cs = front := by
  have hwidth : width cs - width word = width front := by
    rw [← h, width_append, Nat.add_sub_cancel]
  rw [hwidth, ← h, takeBytes_width_append]
  exact ⟨isBoundary_width front word, rfl⟩

end Text

namespace Context

variable {line rest : Text}

def isParen (c : Char) : Bool :=
  c == '(' || c == ')'

theorem isParen_of_isBlank {c : Char} (h : isBlank c = true) : isParen c = false := by
  rw [isParen, Bool.or_eq_false_iff, beq_eq_false_iff_ne, beq_eq_false_iff_ne]
  constructor
  · rintro rfl
    exact absurd h (by decide)
  · rintro rfl
    exact absurd h (by decide)

/-- A label being typed is the end of the text. -/
theorem labelPattern_suffix {prev : Option Char} {cs value rest : Text}
    (h : labelPattern prev cs = some (value, rest)) : value <:+ cs := by
  simp only [labelPattern, bind, Option.bind_eq_some_iff] at h
  obtain ⟨behind, hbehind, h⟩ := h
  rw [after?_eq_some_iff.1 hbehind]
  split at h
  · cases h
    exact List.nil_suffix
  · next value' hvalue =>
      split at h
      · cases h
      · cases h
        have hsuffix : '"' :: value <:+ behind := hvalue ▸ List.dropWhile_suffix _
        exact ((List.suffix_cons '"' value).trans hsuffix).trans (List.suffix_append _ _)
  · cases h

/-- The version key and what stands between it and the value: behind its colon blanks, and perhaps
a quote. -/
structure IsVersionKey (key : Text) : Prop where
  form : ∃ word gap quote, key = (word ++ [':']) ++ (gap ++ quote) ∧
    (∀ c ∈ gap, isBlank c = true) ∧ (quote = [] ∨ quote = ['"'])
  noParens : ∀ c ∈ key, isParen c = false

/-- What a version key is made of. -/
theorem versionKey?_eq_some {prev : Option Char} {cs behind : Text}
    (h : versionKey? prev cs = some behind) :
    inWord prev = false ∧ ∃ gap gap', (∀ c ∈ gap, isBlank c = true) ∧
      (∀ c ∈ gap', isBlank c = true) ∧
      cs = ("version".toList ++ gap ++ [':']) ++ (gap' ++ behind) := by
  rw [versionKey?] at h
  split at h
  · cases h
  · next hprev =>
      simp only [bind, Option.bind_eq_some_iff] at h
      obtain ⟨r, hversion, r', hcolon, he⟩ := h
      cases he
      have hcs := after?_eq_some_iff.1 hversion
      have hr : r = r.takeWhile isBlank ++ ':' :: r' := eq_of_after?_dropWhile hcolon
      refine ⟨by simpa using hprev, r.takeWhile isBlank, r'.takeWhile isBlank,
        fun c hc => List.mem_takeWhile_imp hc, fun c hc => List.mem_takeWhile_imp hc, ?_⟩
      rw [List.takeWhile_append_dropWhile, hcs]
      conv => lhs; rw [hr]
      simp only [List.append_assoc, List.cons_append, List.nil_append]

/-- A quote in front of a value is passed over. -/
theorem exists_quote (cs : Text) :
    ∃ quote, (quote = [] ∨ quote = ['"']) ∧ cs = quote ++ (after? ['"'] cs).getD cs := by
  cases hafter : after? ['"'] cs with
  | none => exact ⟨[], .inl rfl, rfl⟩
  | some behind => exact ⟨['"'], .inr rfl, after?_eq_some_iff.1 hafter⟩

theorem isVersionKey_version {gap gap' quote : Text} (hgap : ∀ c ∈ gap, isBlank c = true)
    (hgap' : ∀ c ∈ gap', isBlank c = true) (hquote : quote = [] ∨ quote = ['"']) :
    IsVersionKey (("version".toList ++ gap ++ [':']) ++ (gap' ++ quote)) where
  form := ⟨_, _, quote, rfl, hgap', hquote⟩
  noParens := by
    have hword : ∀ c ∈ "version".toList, isParen c = false := eq_false_of_any (by decide)
    have hmarks : ∀ c ∈ quote, isParen c = false := by
      rcases hquote with rfl | rfl
      · exact List.forall_mem_nil _
      · exact eq_false_of_any (by decide)
    intro c hc
    simp only [List.mem_append, List.mem_singleton] at hc
    rcases hc with ((hc | hc) | rfl) | hc | hc
    · exact hword c hc
    · exact isParen_of_isBlank (hgap c hc)
    · rfl
    · exact isParen_of_isBlank (hgap' c hc)
    · exact hmarks c hc

theorem versionValuePattern_eq_some {prev : Option Char} {cs value rest : Text}
    (h : versionValuePattern prev cs = some (value, rest)) :
    inWord prev = false ∧ ∃ key, cs = key ++ value ∧ IsVersionKey key ∧
      ∀ c ∈ value, isVersionChar c = true := by
  simp only [versionValuePattern, bind, Option.bind_eq_some_iff] at h
  obtain ⟨behind, hkey, h⟩ := h
  obtain ⟨hprev, gap, gap', hgap, hgap', hcs⟩ := versionKey?_eq_some hkey
  obtain ⟨quote, hquote, hbehind⟩ := exists_quote behind
  split at h
  · next hall =>
      cases h
      refine ⟨hprev, _, ?_, isVersionKey_version hgap hgap' hquote, List.all_eq_true.1 hall⟩
      rw [List.append_assoc, List.append_assoc gap', ← hbehind]
      exact hcs
  · cases h

/-- No character of a version is a blank, a brace, a parenthesis or a comma. -/
theorem isBlank_of_isVersionChar {c : Char} (h : isVersionChar c = true) : isBlank c = false := by
  rw [isVersionChar, Bool.or_eq_true, Bool.or_eq_true] at h
  rcases h with (h | h) | h
  · rw [Bool.eq_false_iff]
    intro hblank
    rw [isWordChar_of_isBlank hblank] at h
    cases h
  · rw [eq_of_beq h]
    decide
  · rw [eq_of_beq h]
    decide

theorem ne_of_isVersionChar {c d : Char} (h : isVersionChar c = true)
    (hd : isVersionChar d = false) : c ≠ d := by
  rintro rfl
  rw [h] at hd
  cases hd

namespace IsVersionKey

variable {key : Text}

theorem getLast?_eq (h : IsVersionKey key) :
    ∃ last, key.getLast? = some last ∧ (last = '"' ∨ last = ':' ∨ isBlank last = true) := by
  obtain ⟨word, gap, quote, rfl, hgap, rfl | rfl⟩ := h.form
  · rcases List.eq_nil_or_concat' gap with rfl | ⟨init, c, rfl⟩
    · refine ⟨':', ?_, .inr (.inl rfl)⟩
      rw [List.append_nil, List.append_nil]
      exact List.getLast?_concat
    · refine ⟨c, ?_, .inr (.inr (hgap c (by simp)))⟩
      rw [List.append_nil, ← List.append_assoc]
      exact List.getLast?_concat
  · refine ⟨'"', ?_, .inl rfl⟩
    rw [← List.append_assoc]
    exact List.getLast?_concat

theorem getLast?_any (h : IsVersionKey key) : key.getLast?.any isIdentContinue = false := by
  obtain ⟨last, hlast, rfl | rfl | hblank⟩ := h.getLast?_eq
  · rw [hlast]
    decide +kernel
  · rw [hlast]
    decide +kernel
  · rw [hlast]
    exact isIdentContinue_of_isBlank hblank

/-- No call starts behind a version key. -/
theorem isCallPosition (h : IsVersionKey key) (front : Text) :
    isCallPosition (front ++ key) = false := by
  obtain ⟨last, hlast, hlastform⟩ := h.getLast?_eq
  obtain ⟨word, gap, quote, rfl, hgap, hquote⟩ := h.form
  have hend : (front ++ ((word ++ [':']) ++ (gap ++ quote))).getLast? = some last := by
    rw [List.getLast?_append, hlast]
    rfl
  rw [Context.isCallPosition, hend]
  rcases hlastform with rfl | rfl | hblank
  · rfl
  · rfl
  · have hnone : quote = [] := by
      rcases hquote with rfl | rfl
      · rfl
      · rw [← List.append_assoc, List.getLast?_concat] at hlast
        cases hlast
        exact absurd hblank (by decide)
    cases hnone
    -- Behind the blanks at the end stands the colon.
    have htrim : trimEnd (front ++ ((word ++ [':']) ++ (gap ++ []))) = front ++ word ++ [':'] := by
      rw [List.append_nil, ← List.append_assoc, ← List.append_assoc,
        trimEnd_append_blanks hgap]
      exact trimEnd_of_getLast? (by rw [List.getLast?_concat]; decide)
    have hcolon : endsWith (front ++ word ++ [':']) [':'] = true := by
      simp [endsWith, after?]
    simp only [htrim, hcolon, Bool.true_or, Bool.not_true, Bool.and_false, Bool.false_and]

end IsVersionKey

/-- Where a version is typed, the line in front of the word is no place for a call. -/
theorem isCallPosition_of_version {hit : Hit Text}
    (h : firstHit? versionValuePattern line = some hit) :
    isCallPosition (line.take (line.length - (trailingIdent line).length)) = false := by
  obtain ⟨front, suf, rfl, hp⟩ := exists_split_of_firstHit? h
  obtain ⟨-, key, rfl, hkey, hvalue⟩ := versionValuePattern_eq_some hp
  have hedge : (front ++ key).getLast?.any isIdentContinue = false := by
    obtain ⟨last, hlast, -⟩ := hkey.getLast?_eq
    have hany := hkey.getLast?_any
    rw [hlast] at hany
    rw [List.getLast?_append, hlast]
    exact hany
  rw [← List.append_assoc]
  obtain ⟨init, hinit⟩ :=
    (trailingIdent_suffix_run _).trans (trailingRun_append_of_edge hedge hit.value)
  have hhead : (front ++ key ++ hit.value).take ((front ++ key ++ hit.value).length -
      (trailingIdent (front ++ key ++ hit.value)).length) = front ++ key ++ init :=
    take_of_suffix (by rw [List.append_assoc (front ++ key), hinit])
  rw [hhead]
  rcases List.eq_nil_or_concat' init with rfl | ⟨init, c, rfl⟩
  · rw [List.append_nil]
    exact hkey.isCallPosition front
  · have hc : isVersionChar c = true := hvalue c (by rw [← hinit]; simp)
    have hmarks : ['{', '}', '(', ')', ','].contains c = false := by
      have hother : ∀ d ∈ ['{', '}', '(', ')', ','], isVersionChar d = false :=
        eq_false_of_any (by decide +kernel)
      rw [Bool.eq_false_iff]
      intro hmem
      have hmem : c ∈ ['{', '}', '(', ')', ','] := by simpa using hmem
      exact ne_of_isVersionChar hc (hother c hmem) rfl
    rw [← List.append_assoc, isCallPosition, List.getLast?_concat]
    simp only [isBlank_of_isVersionChar hc, hmarks, Bool.or_self, Bool.false_and]

/-- Among the arguments of a call that is closed behind the cursor. -/
structure InArguments (line rest : Text) : Prop where
  isOpen : (openParen? line).isSome = true
  code : endsInString line = false
  noVersion : firstHit? versionValuePattern line = none
  closed : ')' ∈ rest

/-- Each context with what the line says where it is chosen. -/
inductive Judged (line rest : Text) : Context → Prop
  | label {hit : Hit Text} (h : firstHit? labelPattern line = some hit) :
      Judged line rest (.label hit.value)
  | call {atStart : Bool} (hcode : endsInString line = false) (hplace : ¬ InArguments line rest)
      (hhead : isCallPosition (line.take (line.length - (trailingIdent line).length)) = true) :
      Judged line rest (.call (trailingIdent line) atStart)
  | keyword (hcode : endsInString line = false) : Judged line rest (.keyword (trailingIdent line))
  | type (hcode : endsInString line = false) : Judged line rest (.type (trailingIdent line))
  | parameter (hplace : InArguments line rest) :
      Judged line rest (.parameter (trailingIdent line)
        ((openParen? line).bind fun start => calleeOf (takeBytes start line)))
  | version {hit : Hit Text} (h : firstHit? versionValuePattern line = some hit) :
      Judged line rest (.version hit.value ((firstHit? versionCallPattern line).map Hit.value))
  | variableName (hcode : endsInString line = false) :
      Judged line rest (.variable (trailingIdent line))
  | general : Judged line rest (.general (trailingIdent line))

theorem judged_ofLine (line rest : Text) : Judged line rest (ofLine line rest) := by
  have hplace : ((openParen? line).isSome && !endsInString line &&
      ((firstHit? versionValuePattern line).map Hit.value).isNone && rest.contains ')') = true ↔
        InArguments line rest := by
    simp only [Bool.and_eq_true, Bool.not_eq_true', Option.isNone_map, Option.isNone_iff_eq_none,
      List.contains_iff_mem]
    exact ⟨fun ⟨⟨⟨ho, hs⟩, hv⟩, hc⟩ => ⟨ho, hs, hv, hc⟩, fun h =>
      ⟨⟨⟨h.isOpen, h.code⟩, h.noVersion⟩, h.closed⟩⟩
  simp only [ofLine]
  split
  · next hit h => exact .label h
  · split
    · next h =>
        simp only [Bool.and_eq_true, Bool.not_eq_true', ← Bool.not_eq_true, hplace] at h
        exact .call (by simpa using h.1.1) h.1.2 h.2
    · split
      · next h =>
          rw [Bool.and_eq_true] at h
          exact .keyword (by simpa using h.1)
      · split
        · next h =>
            simp only [Bool.and_eq_true] at h
            exact .type (by simpa using h.1.1)
        · split
          · next h => exact .parameter (hplace.1 h)
          · split
            · next value hvalue =>
                obtain ⟨hit, hhit, rfl⟩ := Option.map_eq_some_iff.1 hvalue
                exact .version hhit
            · split
              · next h =>
                  rw [Bool.and_eq_true] at h
                  exact .variableName (by simpa using h.1)
              · exact .general

/-- Whichever check finds it, the word being typed is an end of the line. -/
theorem Judged.typed_suffix {context : Context} (h : Judged line rest context) :
    context.typed <:+ line := by
  cases h with
  | label h =>
      obtain ⟨front, suf, rfl, hp⟩ := exists_split_of_firstHit? h
      exact (labelPattern_suffix hp).trans (List.suffix_append front suf)
  | version h =>
      obtain ⟨front, suf, rfl, hp⟩ := exists_split_of_firstHit? h
      obtain ⟨-, key, rfl, -⟩ := versionValuePattern_eq_some hp
      exact (List.suffix_append key _).trans (List.suffix_append front _)
  | call | keyword | type | parameter | variableName | general => exact trailingIdent_suffix line

theorem stackParen_eq : stackParen = stackMark '(' ')' := by
  funext stack p
  obtain ⟨n, m⟩ := p
  simp only [stackParen, stackMark]
  split
  · next h => simp_all
  · next h => simp_all
  · next hopen hclose => simp_all

theorem openParen?_eq (line : Text) : openParen? line = (openMarks '(' ')' line).head? := by
  rw [openParen?, stackParen_eq, openMarks]

theorem isSome_openParen? {pre post : Text} {d : Nat} (h : LeftOpen '(' ')' line pre post d) :
    (openParen? line).isSome = true := by
  obtain ⟨opened, hopened, -⟩ := h.exists_openMarks_eq rfl
  rw [openParen?_eq, hopened]
  cases opened <;> rfl

theorem judged (before after : Text) :
    Judged (lastLine before) (firstLine after) (classify before after) :=
  judged_ofLine _ _

/-- Nothing, or text whose last line is complete. -/
def EndsAbove (above : Text) : Prop :=
  above = [] ∨ above.getLast? = some '\n'

def StartsBelow (below : Text) : Prop :=
  below = [] ∨ below.head? = some '\n'

theorem exists_above (cs : Text) : ∃ above, EndsAbove above ∧ cs = above ++ lastLine cs := by
  induction cs using byLines with
  | last line hline => exact ⟨[], .inl rfl, by rw [lastLine_of_not_mem hline, List.nil_append]⟩
  | line line below _ ih =>
      obtain ⟨above, habove, hbelow⟩ := ih
      refine ⟨line ++ '\n' :: above, .inr ?_, ?_⟩
      · rw [List.getLast?_append, List.getLast?_cons]
        rcases habove with rfl | habove
        · rfl
        · rw [habove]
          rfl
      · rw [lastLine_append_newline, List.append_assoc, List.cons_append, ← hbelow]

theorem exists_below (cs : Text) : ∃ below, StartsBelow below ∧ cs = firstLine cs ++ below := by
  refine ⟨cs.dropWhile (· != '\n'), ?_, List.takeWhile_append_dropWhile.symm⟩
  have hhead := head?_dropWhile_any (p := (· != '\n')) cs
  cases hd : cs.dropWhile (· != '\n') with
  | nil => exact .inl rfl
  | cons c ds =>
      rw [hd] at hhead
      exact .inr (congrArg some (by simpa using hhead))

/-- The line of the cursor alone decides on the context, whatever stands above and below it. The
word being typed is an end of what stands on the line in front of the cursor, so the text in front
of the word is a whole number of characters of the document: the text that is searched for
variables. -/
theorem judged_by_cursor_line (before after : Text) :
    ∃ above line rest below, before = above ++ line ∧ after = rest ++ below ∧
      EndsAbove above ∧ '\n' ∉ line ∧ '\n' ∉ rest ∧ StartsBelow below ∧
      (∀ above' below', EndsAbove above' → StartsBelow below' →
        classify (above' ++ line) (rest ++ below') = classify before after) ∧
      (classify before after).typed <:+ line ∧
      ∀ w habits config file,
        let here := Completion.situation w habits config ⟨file, before, after⟩
        let cut := width before - width here.context.typed
        width here.context.typed ≤ width before ∧ isBoundary cut before = true ∧
          takeBytes cut before = Generator.beforeWord here := by
  obtain ⟨above, habove, hbefore⟩ := exists_above before
  obtain ⟨below, hbelow, hafter⟩ := exists_below after
  have htyped := (judged before after).typed_suffix
  refine ⟨above, lastLine before, firstLine after, below, hbefore, hafter, habove,
    newline_not_mem_lastLine before, ?_, hbelow, ?_, htyped, ?_⟩
  · intro hmem
    have hnewline := List.mem_takeWhile_imp (p := (· != '\n')) hmem
    exact absurd hnewline (by decide)
  · intro above' below' habove' hbelow'
    rw [classify, classify, lastLine_join habove', firstLine_join hbelow']
  · intro w habits config file here cut
    obtain ⟨front, hfront⟩ : here.context.typed <:+ before :=
      htyped.trans (lastLine_suffix before)
    obtain ⟨hboundary, htake⟩ := takeBytes_of_suffix hfront
    refine ⟨?_, hboundary, ?_⟩
    · rw [← hfront, width_append]
      exact Nat.le_add_left _ _
    · rw [htake]
      exact (take_of_suffix hfront).symm

theorem judged_by_cursor_line_acute :
    let before := "\"x\nread(version: \"é-1".toList
    let after := "\")\n".toList
    ∃ above line rest below, before = above ++ line ∧ after = rest ++ below ∧
      '\n' ∉ line ∧ classify line rest = .version "é-1".toList (some "read".toList) ∧
      ∀ w habits config file,
        let here := Completion.situation w habits config ⟨file, before, after⟩
        width here.context.typed = 4 ∧ isBoundary (width before - 4) before = true ∧
          takeBytes (width before - 4) before = Generator.beforeWord here := by
  intro before after
  obtain ⟨above, line, rest, below, hbefore, hafter, habove, hline, hrest, hbelow, hlocal, htyped,
    hslice⟩ := judged_by_cursor_line before after
  have hversion : classify before after = .version "é-1".toList (some "read".toList) := by
    decide +kernel
  have hsame := hlocal [] [] (.inl rfl) (.inl rfl)
  have hline' : classify line rest = classify line (rest ++ []) := by rw [List.append_nil]
  refine ⟨above, line, rest, below, hbefore, hafter, hline, ?_, ?_⟩
  · rw [hline', ← hversion]
    exact hsame
  · intro w habits config file here
    have hwidth : width here.context.typed = 4 := by
      change width (classify before after).typed = 4
      rw [hversion]
      decide
    obtain ⟨-, hboundary, htake⟩ := hslice w habits config file
    exact ⟨hwidth, hwidth ▸ hboundary, hwidth ▸ htake⟩

end Context
end ProcedureIndex
