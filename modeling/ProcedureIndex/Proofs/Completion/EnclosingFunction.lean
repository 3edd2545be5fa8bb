import ProcedureIndex.Proofs.Completion.CursorContext
import ProcedureIndex.Proofs.Completion.LocalNames
import ProcedureIndex.Proofs.Document.ClassBodies
import ProcedureIndex.Proofs.Document.FnSearch
import ProcedureIndex.Proofs.Text.Blanking
import ProcedureIndex.Proofs.Text.Openings
import ProcedureIndex.Proofs.Text.Stretches

/-!
The function whose body is open at the end of a text. Headers are searched for in the whole text
and braces are matched in its code, so the two have to be brought together: in front of the brace
of a body stands its header, whatever headers the text above it and the body itself hold, as long
as the parameters of those above are closed. Blocks that are open inside the body have a brace
between themselves and the header, and are passed over.
-/

namespace ProcedureIndex

open Text

namespace FnHeader

structure IsGap (gap : Text) : Prop where
  ne_nil : gap ≠ []
  blank : ∀ c ∈ gap, isBlank c = true

theorem isGap_space : IsGap [' '] :=
  ⟨List.cons_ne_nil _ _, List.all_eq_true.1 (by decide)⟩

def IsModifier (modifier : Text) : Prop :=
  modifier = [] ∨ ∃ gap, IsGap gap ∧ modifier = staticKeyword ++ gap

/-- A text that starts with a header of a name, up to its parenthesis. -/
structure Opens (cs name behind : Text) : Prop where
  whole : IsName name
  form : ∃ modifier space gap, IsModifier modifier ∧ IsGap space ∧
    (∀ c ∈ gap, isBlank c = true) ∧
    cs = (modifier ++ (keyword ++ space)) ++ (name ++ (gap ++ '(' :: behind))

variable {prev : Option Char} {cs name rest : Text}

theorem plain?_eq_some_iff :
    (∃ h, plain? cs = some (h, rest) ∧ h.name = name) ↔
      ∃ behind, rest = behind.dropWhile (· != ')') ∧ IsName name ∧
        ∃ space gap, IsGap space ∧ (∀ c ∈ gap, isBlank c = true) ∧
          cs = keyword ++ (space ++ (name ++ (gap ++ '(' :: behind))) := by
  simp only [plain?, bind, Option.bind_eq_some_iff]
  constructor
  · rintro ⟨h, ⟨⟨⟨lead, n⟩, r⟩, hnamed, behind, hopen, he⟩, rfl⟩
    cases he
    obtain ⟨hname, -, space, hne, hblank, rfl⟩ := named?_eq_some_iff.1 ⟨lead, hnamed⟩
    have hr : r = r.takeWhile isBlank ++ '(' :: behind := eq_of_after?_dropWhile hopen
    refine ⟨behind, rfl, hname, space, r.takeWhile isBlank, ⟨hne, hblank⟩,
      fun c hc => List.mem_takeWhile_imp hc, ?_⟩
    rw [← hr]
  · rintro ⟨behind, rfl, hname, space, gap, hspace, hgap, rfl⟩
    obtain ⟨lead, hnamed⟩ :=
      named?_eq_some_iff.2 ⟨hname, isNameContinue_gap hgap behind, space, hspace.ne_nil,
        hspace.blank, rfl⟩
    refine ⟨_, ⟨_, hnamed, behind, ?_, rfl⟩, rfl⟩
    rw [List.dropWhile_append_of_pos hgap, List.dropWhile_cons_of_neg (by decide)]
    rfl

theorem static?_eq_some {lead : Text} (h : static? cs = some (lead, rest)) :
    IsModifier lead ∧ cs = lead ++ rest := by
  simp only [static?, bind, Option.bind_eq_some_iff] at h
  obtain ⟨r, hkey, ⟨gap, r'⟩, hgap, he⟩ := h
  cases he
  obtain ⟨rfl, hlast⟩ := some?_eq_some hgap
  refine ⟨.inr ⟨gap, ⟨?_, all_of_some? hgap⟩, rfl⟩, ?_⟩
  · rintro rfl
    cases hlast
  · rw [after?_eq_some_iff.1 hkey, List.append_assoc]

/-- A header is recognised where a text starts with one, and what it leaves starts with the
parenthesis that closes its parameters. -/
theorem pattern_eq_some_iff :
    (∃ h, pattern prev cs = some (h, rest) ∧ h.name = name) ↔
      inWord prev = false ∧
        ∃ behind, rest = behind.dropWhile (· != ')') ∧ Opens cs name behind := by
  constructor
  · rintro ⟨h, hp, rfl⟩
    rw [pattern] at hp
    split at hp
    · cases hp
    · next hprev =>
        refine ⟨by simpa using hprev, ?_⟩
        split at hp
        · next lead r hs =>
            obtain ⟨⟨h', rest'⟩, hplain, he⟩ := Option.map_eq_some_iff.1 hp
            cases he
            obtain ⟨behind, hrest, hname, space, gap, hspace, hgap, hr⟩ :=
              plain?_eq_some_iff.1 ⟨h', hplain, rfl⟩
            obtain ⟨hlead, hcs⟩ := static?_eq_some hs
            exact ⟨behind, hrest, hname, lead, space, gap, hlead, hspace, hgap,
              by rw [hcs, hr]; simp only [List.append_assoc]⟩
        · obtain ⟨behind, hrest, hname, space, gap, hspace, hgap, hcs⟩ :=
            plain?_eq_some_iff.1 ⟨h, hp, rfl⟩
          exact ⟨behind, hrest, hname, [], space, gap, .inl rfl, hspace, hgap,
            by rw [hcs, List.nil_append, List.append_assoc]⟩
  · rintro ⟨hprev, behind, rfl, hname, modifier, space, gap, hmodifier, hspace, hgap, rfl⟩
    obtain ⟨h, hplain, hsame⟩ :=
      plain?_eq_some_iff.2 ⟨behind, rfl, hname, space, gap, hspace, hgap, rfl⟩
    rw [List.append_assoc, List.append_assoc]
    rcases hmodifier with rfl | ⟨wide, hwide, rfl⟩
    · have hstatic : ∀ cs, static? (keyword ++ cs) = none := fun _ => rfl
      refine ⟨h, ?_, hsame⟩
      rw [pattern, hprev, if_neg (by decide), List.nil_append, hstatic]
      exact hplain
    · have hblanks : blanks? (wide ++ (keyword ++ (space ++ (name ++ (gap ++ '(' :: behind))))) =
          some (wide, keyword ++ (space ++ (name ++ (gap ++ '(' :: behind)))) :=
        some?_append_of_pos hwide.blank hwide.ne_nil (by rfl)
      refine ⟨{ h with isStatic := true, lead := staticKeyword ++ wide ++ h.lead }, ?_, hsame⟩
      simp [pattern, hprev, static?, after?_append, hblanks, hplain]

/-- Two names that end one text and stand behind no character of names are the same. -/
theorem name_unique {front front' name' : Text} (h : front ++ name = front' ++ name')
    (hname : IsName name) (hname' : IsName name')
    (hfront : front.getLast?.any isNameContinue = false)
    (hfront' : front'.getLast?.any isNameContinue = false) : name = name' := by
  have hrun : ∀ {front name : Text}, IsName name → front.getLast?.any isNameContinue = false →
      (front ++ name).reverse.takeWhile isNameContinue = name.reverse := by
    intro front name hname hfront
    rw [List.reverse_append]
    exact takeWhile_append_of_head? (fun c hc => hname.all c (List.mem_reverse.1 hc))
      (by rwa [List.head?_reverse])
  rw [← List.reverse_inj, ← hrun hname hfront, h, hrun hname' hfront']

/-- A header is split at its parenthesis in one way. -/
theorem split_unique {a b a' b' : Text} (h : a ++ '(' :: b = a' ++ '(' :: b')
    (ha : ∀ c ∈ a, isHeaderChar c = true) (ha' : ∀ c ∈ a', isHeaderChar c = true) :
    a = a' ∧ b = b' := by
  have hparen : ∀ {cs : Text}, ('(' :: cs).head?.any isHeaderChar = false := by
    intro cs
    change isHeaderChar '(' = false
    decide
  have hsame := congrArg (List.takeWhile isHeaderChar) h
  rw [takeWhile_append_of_head? ha hparen, takeWhile_append_of_head? ha' hparen] at hsame
  subst hsame
  exact ⟨rfl, (List.cons.inj (List.append_cancel_left h)).2⟩

theorem IsGap.getLast?_any {gap : Text} (h : IsGap gap) (front : Text) :
    (front ++ gap).getLast?.any isNameContinue = false := by
  obtain ⟨init, c, rfl⟩ := (List.eq_nil_or_concat' gap).resolve_left h.ne_nil
  rw [← List.append_assoc, List.getLast?_concat]
  exact isNameContinue_of_isBlank (h.blank c (by simp))

theorem IsModifier.headerChars {modifier : Text} (h : IsModifier modifier) :
    ∀ c ∈ modifier, isHeaderChar c = true := by
  rcases h with rfl | ⟨gap, hgap, rfl⟩
  · exact List.forall_mem_nil _
  · intro c hc
    rcases List.mem_append.1 hc with hc | hc
    · exact staticKeyword_chars c hc
    · exact isHeaderChar_of_isBlank (hgap.blank c hc)

theorem spaced_chars (hname : IsName name) :
    ∀ c ∈ keyword ++ ' ' :: name, isHeaderChar c = true := by
  intro c hc
  rcases List.mem_append.1 hc with hc | hc
  · exact keyword_chars c hc
  · rcases List.mem_cons.1 hc with rfl | hc
    · decide
    · simp [isHeaderChar, hname.all c hc]

namespace Opens

variable {behind : Text}

theorem append (h : Opens cs name behind) (back : Text) :
    Opens (cs ++ back) name (behind ++ back) := by
  obtain ⟨modifier, space, gap, hmodifier, hspace, hgap, rfl⟩ := h.form
  refine ⟨h.whole, modifier, space, gap, hmodifier, hspace, hgap, ?_⟩
  simp only [List.append_assoc, List.cons_append]

/-- A header that starts in front of another one ends in front of it as well, or is that one with
`static` on a line above. -/
theorem of_append {front other back : Text}
    (h : Opens (front ++ (keyword ++ ' ' :: (name ++ '(' :: back))) other behind)
    (hname : IsName name) :
    (∃ more, behind = more ++ (keyword ++ ' ' :: (name ++ '(' :: back)) ∧
      Opens front other more) ∨ other = name ∧ behind = back := by
  obtain ⟨modifier, space, gap, hmodifier, hspace, hgap, hcs⟩ := h.form
  have hheader : ∀ c ∈ (modifier ++ (keyword ++ space)) ++ (other ++ gap),
      isHeaderChar c = true := by
    intro c hc
    simp only [List.mem_append] at hc
    rcases hc with (hc | hc | hc) | hc | hc
    · exact hmodifier.headerChars c hc
    · exact keyword_chars c hc
    · exact isHeaderChar_of_isBlank (hspace.blank c hc)
    · simp [isHeaderChar, h.whole.all c hc]
    · exact isHeaderChar_of_isBlank (hgap c hc)
  rw [← List.append_assoc other, ← List.append_assoc (modifier ++ (keyword ++ space))] at hcs
  rcases List.append_eq_append_iff.1 hcs with ⟨more, hleft, hright⟩ | ⟨more, hfront, hright⟩
  · right
    have hsplit : (keyword ++ ' ' :: name) ++ '(' :: back = more ++ '(' :: behind := by
      rw [← hright, List.append_assoc, List.cons_append]
    obtain ⟨rfl, rfl⟩ := split_unique hsplit (spaced_chars hname) fun c hc =>
      hheader c (hleft ▸ List.mem_append_right front hc)
    refine ⟨?_, rfl⟩
    have hsame : (modifier ++ (keyword ++ space)) ++ other =
        ((front ++ keyword) ++ [' ']) ++ name := by
      have hright : front ++ (keyword ++ ' ' :: name) = ((front ++ keyword) ++ [' ']) ++ name := by
        simp only [List.append_assoc, List.singleton_append]
      have htrim := congrArg trimEnd (hleft.trans hright)
      rwa [← List.append_assoc, trimEnd_append_blanks hgap, h.whole.trimEnd_append,
        hname.trimEnd_append] at htrim
    rw [← List.append_assoc modifier] at hsame
    exact name_unique hsame h.whole hname (hspace.getLast?_any _) (isGap_space.getLast?_any _)
  · left
    cases more with
    | nil => cases hright
    | cons d more =>
        obtain ⟨rfl, rfl⟩ := List.cons.inj hright
        refine ⟨more, rfl, h.whole, modifier, space, gap, hmodifier, hspace, hgap, ?_⟩
        rw [hfront]
        simp only [List.append_assoc]

theorem plain (hname : IsName name) (behind : Text) :
    Opens (keyword ++ ' ' :: (name ++ '(' :: behind)) name behind where
  whole := hname
  form := ⟨[], [' '], [], .inl rfl, isGap_space, List.forall_mem_nil _, rfl⟩

/-- Where a text starts with a header, the search finds it and goes on behind the parenthesis that
closes its parameters. -/
theorem exists_hitsFrom_eq {params back : Text} (h : Opens cs name (params ++ ')' :: back))
    (hparams : ')' ∉ params) (hprev : inWord prev = false) (offset : Nat) :
    ∃ hit place, hitsFrom pattern prev offset 0 cs = hit :: hitsFrom pattern none place 0 back ∧
      hit.value.name = name ∧ hit.rest = ')' :: back := by
  have hall : ∀ c ∈ params, (c != ')') = true := by
    intro c hc
    rw [bne_iff_ne]
    rintro rfl
    exact hparams hc
  obtain ⟨header, hp, hsame⟩ :=
    pattern_eq_some_iff.2 ⟨(rfl : inWord none = false), _, rfl, h⟩
  rw [List.dropWhile_append_of_pos hall, List.dropWhile_cons_of_neg (by decide)] at hp
  obtain ⟨m, hne, rfl⟩ : ∃ m, m ≠ [] ∧ cs = m ++ ')' :: back := by
    obtain ⟨modifier, space, gap, -, -, -, hcs⟩ := h.form
    refine ⟨(modifier ++ (keyword ++ space)) ++ (name ++ (gap ++ '(' :: params)), by simp, ?_⟩
    rw [hcs]
    simp only [List.append_assoc, List.cons_append]
  have hhits : hitsFrom pattern none offset 0 (m ++ ')' :: back) = _ :=
    keyed.hitsFrom_hit hne hp (edge_cons (by decide))
  rw [keyed.hitsFrom_mark (by decide), ← keyed.hitsFrom_of_not_inWord hprev] at hhits
  exact ⟨_, _, hhits, hsame, rfl⟩

end Opens

/-- What a text opens it opens in front of anything as well. -/
theorem pattern_eq_none_of_append {back : Text} (h : pattern prev (cs ++ back) = none) :
    pattern prev cs = none := by
  rw [Option.eq_none_iff_forall_ne_some]
  rintro ⟨header, rest⟩ hcs
  obtain ⟨hprev, behind, -, hopens⟩ := pattern_eq_some_iff.1 ⟨header, hcs, rfl⟩
  obtain ⟨header', hback, -⟩ := pattern_eq_some_iff.2 ⟨hprev, _, rfl, hopens.append back⟩
  rw [h] at hback
  cases hback

/-- A header with closed parameters covers as much in front of another text. -/
theorem length_covered_append {front more back : Text} (h : more.dropWhile (· != ')') ≠ []) :
    (front ++ back).length - ((more ++ back).dropWhile (· != ')')).length =
      front.length - (more.dropWhile (· != ')')).length := by
  rw [List.dropWhile_append, if_neg (by simpa using h), List.length_append, List.length_append,
    Nat.add_sub_add_right]

/-- The header behind a text whose own headers have closed parameters is found, and behind it the
search goes on as though it started there. -/
theorem exists_hitsFrom_eq {params : Text} (hname : IsName name) (hparams : ')' ∉ params)
    (back : Text) {front : Text} {offset n : Nat} (hn : n ≤ front.length)
    (hedge : inWord (front.getLast?.or prev) = false)
    (hclosed : ∀ h ∈ hitsFrom pattern prev offset n front, h.rest ≠ []) :
    ∃ first hit place,
      hitsFrom pattern prev offset n
          (front ++ (keyword ++ ' ' :: (name ++ '(' :: (params ++ ')' :: back)))) =
        first ++ hit :: hitsFrom pattern none place 0 back ∧
      hit.value.name = name ∧ hit.rest = ')' :: back := by
  have hown := Opens.plain hname (params ++ ')' :: back)
  generalize hheader : keyword ++ ' ' :: (name ++ '(' :: (params ++ ')' :: back)) = header at hown ⊢
  induction front generalizing prev offset n with
  | nil =>
      cases Nat.le_zero.1 hn
      obtain ⟨hit, place, hfound⟩ := hown.exists_hitsFrom_eq hparams hedge offset
      exact ⟨[], hit, place, hfound⟩
  | cons c front ih =>
      have hlast : inWord (front.getLast?.or (some c)) = false := by
        rw [List.getLast?_cons] at hedge
        cases hfront : front.getLast? <;> simpa [hfront] using hedge
      cases n with
      | succ n => exact ih (Nat.le_of_succ_le_succ hn) hlast hclosed
      | zero =>
          rw [List.cons_append]
          cases hp : pattern prev (c :: (front ++ header)) with
          | none =>
              rw [hitsFrom_cons_of_none (pattern_eq_none_of_append hp)] at hclosed
              rw [hitsFrom_cons_of_none hp]
              exact ih (Nat.zero_le _) hlast hclosed
          | some r =>
              obtain ⟨h, rest⟩ := r
              obtain ⟨hprev, behind, hrest, hopens⟩ := pattern_eq_some_iff.1 ⟨h, hp, rfl⟩
              rw [← List.cons_append, ← hheader] at hopens
              rcases hopens.of_append hname with ⟨more, rfl, hfront⟩ | ⟨hsame, rfl⟩
              · obtain ⟨h', hp', -⟩ := pattern_eq_some_iff.2 ⟨hprev, more, rfl, hfront⟩
                rw [hitsFrom_cons_of_some hp'] at hclosed
                have hmore : more.dropWhile (· != ')') ≠ [] := hclosed _ List.mem_cons_self
                rw [hitsFrom_cons_of_some hp, hrest, hheader, length_covered_append hmore]
                obtain ⟨first, hit, place, hhits, hfound⟩ := ih (Nat.sub_le _ _) hlast
                  fun h hh => hclosed h (List.mem_cons_of_mem _ hh)
                exact ⟨_ :: first, hit, place, by rw [hhits, List.cons_append], hfound⟩
              · rw [hheader, List.cons_append, hsame] at hopens
                obtain ⟨hit, place, hfound⟩ := hopens.exists_hitsFrom_eq hparams hprev offset
                exact ⟨[], hit, place, hfound⟩

/-- The headers of a text that ends with the body of a function: some in front of its header, its
own, and those of the body. -/
theorem exists_hits_eq {front params : Text} (hfront : Context.EndsAbove front)
    (hclosed : ∀ h ∈ hits pattern front, h.rest.head? = some ')') (hname : IsName name)
    (hparams : ')' ∉ params) (body : Text) :
    ∃ first hit place,
      hits pattern
          (front ++ (keyword ++ ' ' :: (name ++ '(' :: (params ++ ')' :: ' ' :: '{' :: body)))) =
        first ++ hit :: (hits pattern body).map (Hit.down place) ∧
      hit.value.name = name ∧ hit.rest = ')' :: ' ' :: '{' :: body := by
  have hedge : inWord (front.getLast?.or none) = false := by
    rcases hfront with rfl | hfront
    · rfl
    · rw [hfront]
      decide
  have hopen : ∀ h ∈ hits pattern front, h.rest ≠ [] := by
    intro h hh hnil
    have hhead := hclosed h hh
    rw [hnil] at hhead
    cases hhead
  obtain ⟨first, hit, place, hhits, hfound⟩ := exists_hitsFrom_eq hname hparams
    (' ' :: '{' :: body) (Nat.zero_le front.length) hedge hopen
  refine ⟨first, hit, place + width [' ', '{'], ?_, hfound⟩
  have hbody : hitsFrom pattern none place 0 (' ' :: '{' :: body) =
      hitsFrom pattern none (place + width [' ', '{'] + 0) 0 body :=
    keyed.hitsFrom_marks (m := [' ', '{']) (eq_false_of_any (by decide))
  rw [hits, hhits, hbody, hitsFrom_add]
  rfl

end FnHeader

section OpenBody

variable {before pre body : Text} {first : List (Hit FnHeader)} {hit : Hit FnHeader} {place : Nat}

/-- The name of the header in front of a brace, if no other brace stands between the two. -/
def ownerAt (before : Text) (brace : Nat) : Option Text := do
  let header ← (hits FnHeader.pattern before).reverse.find? fun h =>
    width before - width h.rest ≤ brace
  let between := takeBytes (brace - (width before - width header.rest)) header.rest
  if between.any (fun c => c == '{' || c == '}') then none else some header.value.name

theorem enclosingFunction_eq_findSome? (before : Text) :
    enclosingFunction before = (openBraces before).findSome? (ownerAt before) :=
  rfl

/-- What a header of the body leaves is a part of the body. -/
theorem width_rest_le {h : Hit FnHeader} (hh : h ∈ hits FnHeader.pattern body) :
    width h.rest ≤ width body := by
  obtain ⟨front, suf, rfl, -, hp⟩ := mem_hits hh
  obtain ⟨passed, hpassed⟩ := List.dropWhile_suffix (l := suf) (· != ')')
  rw [FnHeader.rest_eq hp, width_append]
  have hwidth := congrArg width hpassed
  rw [width_append] at hwidth
  omega

/-- The last header that ends in front of a brace is asked for its function. -/
theorem ownerAt_of_last {later : List (Hit FnHeader)} {brace : Nat}
    (hhits : hits FnHeader.pattern before = first ++ hit :: later)
    (hhit : width before - width hit.rest ≤ brace)
    (hlater : ∀ h ∈ later, brace < width before - width h.rest) :
    ownerAt before brace =
      if (takeBytes (brace - (width before - width hit.rest)) hit.rest).any
        (fun c => c == '{' || c == '}') then none else some hit.value.name := by
  have hnone : later.reverse.find? (fun h => width before - width h.rest ≤ brace) = none := by
    rw [List.find?_eq_none]
    intro h hh
    exact mt of_decide_eq_true (Nat.not_le.2 (hlater h (List.mem_reverse.1 hh)))
  have hhere : [hit].find? (fun h => width before - width h.rest ≤ brace) = some hit :=
    List.find?_cons_of_pos (decide_eq_true hhit)
  have hfind : (hits FnHeader.pattern before).reverse.find?
      (fun h => width before - width h.rest ≤ brace) = some hit := by
    rw [hhits, List.reverse_append, List.reverse_cons, List.find?_append, List.find?_append, hnone,
      hhere, Option.none_or, Option.some_or]
  rw [ownerAt, hfind]
  rfl

/-- A header ends two characters in front of the brace that stands behind it and a blank. -/
theorem width_header (hbefore : before = pre ++ '{' :: body)
    (hrest : hit.rest = ')' :: ' ' :: '{' :: body) :
    width before - width hit.rest = width pre - 2 := by
  have hwhole : width before = width pre + (1 + width body) := by
    rw [hbefore, width_append]
    rfl
  have hleft : width hit.rest = 1 + (1 + (1 + width body)) := by
    rw [hrest]
    rfl
  omega

/-- The brace of the body is owned by the header in front of it. -/
theorem ownerAt_eq (hbefore : before = pre ++ '{' :: body) (hpre : 2 ≤ width pre)
    (hhits : hits FnHeader.pattern before =
      first ++ hit :: (hits FnHeader.pattern body).map (Hit.down place))
    (hrest : hit.rest = ')' :: ' ' :: '{' :: body) :
    ownerAt before (width pre) = some hit.value.name := by
  have hhit := width_header hbefore hrest
  rw [ownerAt_of_last hhits (by omega), hhit, hrest, Nat.sub_sub_self hpre]
  · rfl
  · intro h hh
    obtain ⟨h, hmem, rfl⟩ := List.mem_map.1 hh
    have hwhole : width before = width pre + (1 + width body) := by
      rw [hbefore, width_append]
      rfl
    have hbehind := width_rest_le hmem
    change width pre < width before - width h.rest
    omega

/-- A brace that is opened in the body has the brace of the body between itself and the header,
if there is no other header in the body. -/
theorem ownerAt_eq_none (hbefore : before = pre ++ '{' :: body) (hpre : 2 ≤ width pre)
    (hhits : hits FnHeader.pattern before = first ++ [hit])
    (hrest : hit.rest = ')' :: ' ' :: '{' :: body) {brace : Nat}
    (hbrace : width pre + 1 ≤ brace) : ownerAt before brace = none := by
  have hhit := width_header hbefore hrest
  have hbetween : brace - (width before - width hit.rest) =
      width [')', ' ', '{'] + (brace - (width pre + 1)) := by
    rw [hhit, show width [')', ' ', '{'] = 3 from rfl]
    omega
  have htaken : takeBytes (brace - (width before - width hit.rest)) hit.rest =
      [')', ' ', '{'] ++ takeBytes (brace - (width pre + 1)) body := by
    rw [hbetween, hrest]
    exact takeBytes_add [')', ' ', '{'] body _
  rw [ownerAt_of_last hhits (by omega) (List.forall_mem_nil _), htaken]
  rfl

/-- The brace of the body decides: the braces behind it have no owner. -/
theorem enclosingFunction_of_leftOpen {d : Nat} (hopen : LeftOpen '{' '}' before pre body d)
    (hpre : 2 ≤ width pre)
    (hhits : hits FnHeader.pattern before =
      first ++ hit :: (hits FnHeader.pattern body).map (Hit.down place))
    (hrest : hit.rest = ')' :: ' ' :: '{' :: body)
    (hbody : d = 0 ∨ hits FnHeader.pattern body = []) :
    enclosingFunction before = some hit.value.name := by
  obtain ⟨opened, hopened, hlength, hbehind⟩ := hopen.exists_openMarks_eq rfl
  have hnone : opened.findSome? (ownerAt before) = none := by
    rw [List.findSome?_eq_none_iff]
    intro brace hbrace
    rcases hbody with rfl | hbody
    · rw [List.length_eq_zero_iff.1 hlength] at hbrace
      cases hbrace
    · rw [hbody] at hhits
      exact ownerAt_eq_none hopen.split hpre hhits hrest (hbehind brace hbrace)
  rw [enclosingFunction_eq_findSome?, openBraces_eq, hopened, List.findSome?_append, hnone,
    Option.none_or, List.findSome?_cons, ownerAt_eq hopen.split hpre hhits hrest]

end OpenBody

section Header

variable {front name params body : Text} {d : Nat}

/-- A header without quotes opens its body in code if the text above it ends in code. -/
theorem leftOpen_body (hcode : endsInString front = false) (hname : IsName name)
    (hparams : ∀ c ∈ params, Quoting.isQuote c = false) (hdepth : depth? '{' '}' body = some d) :
    LeftOpen '{' '}'
      (front ++ ("fn ".toList ++ (name ++ '(' :: (params ++ (") \x7b".toList ++ body)))))
      (front ++ ("fn ".toList ++ (name ++ '(' :: (params ++ ") ".toList)))) body d where
  split := by simp
  code := by
    have hfront : Quoting.code.after front = .code := by simpa [endsInString] using hcode
    have hheader : Quoting.code.after ("fn ".toList ++ name) = .code :=
      after_header (FnHeader.spaced_chars hname)
    rw [← List.append_assoc "fn ".toList, Quoting.after_append, hfront, Quoting.after_append,
      hheader, Quoting.after_cons, Quoting.after_append]
    change (Quoting.code.after params).after ") ".toList = .code
    rw [after_of_no_quote hparams]
    rfl
  depth := hdepth

/-- The enclosing function is the one whose body is open. The lines above its header may hold any
functions whose parameters are closed, and leave any blocks open; the body may hold any blocks and
functions if all of them are closed again, and any open blocks if no header starts in it. -/
theorem enclosingFunction_of_openBody (hfront : Context.EndsAbove front)
    (hcode : endsInString front = false)
    (hclosed : ∀ h ∈ hits FnHeader.pattern front, h.rest.head? = some ')')
    (hname : IsName name) (hparams : ∀ c ∈ params, c ∉ [')', '{', '}', '"', '\''])
    (hdepth : depth? '{' '}' body = some d)
    (hbody : d = 0 ∨ hits FnHeader.pattern body = []) :
    enclosingFunction (front ++ ("fn ".toList ++ (name ++ '(' :: (params ++
      (") \x7b".toList ++ body))))) = some name := by
  have hparen : ')' ∉ params := fun hmem => hparams ')' hmem (by decide)
  have hquotes : ∀ c ∈ params, Quoting.isQuote c = false := by
    intro c hc
    have hother := hparams c hc
    simp only [List.mem_cons, not_or] at hother
    simp [Quoting.isQuote, hother]
  obtain ⟨first, hit, place, hhits, rfl, hrest⟩ :=
    FnHeader.exists_hits_eq hfront hclosed hname hparen body
  have hwidth : 2 ≤ width (front ++ ("fn ".toList ++ (hit.value.name ++
      '(' :: (params ++ ") ".toList)))) := by
    have hfn : width "fn ".toList = 3 := rfl
    rw [width_append, width_append]
    omega
  exact enclosingFunction_of_leftOpen (leftOpen_body hcode hname hquotes hdepth) hwidth hhits hrest
    hbody

theorem enclosingFunction_of_openBody_nestedBlocks :
    let front := "class A \x7b\nfn first(a) \x7b\x7d\nstatic\n".toList
    let body := "\n if x \x7b\n  s = \"\x7b\";\n  for y \x7b\n".toList
    hits FnHeader.pattern body = [] ∧ depth? '{' '}' body = some 2 ∧
      enclosingFunction (front ++ ("fn ".toList ++ ("run".toList ++ '(' :: ("a, b".toList ++
        (") \x7b".toList ++ body))))) = some "run".toList := by
  intro front body
  have hbody : hits FnHeader.pattern body = [] := by rfl
  have hdepth : depth? '{' '}' body = some 2 := by decide
  have hclosed : ∀ h ∈ hits FnHeader.pattern front, h.rest.head? = some ')' := by
    decide +kernel
  have hname : IsName "run".toList :=
    ⟨by decide +kernel, List.all_eq_true.1 (by decide +kernel)⟩
  have hparams : ∀ c ∈ "a, b".toList, c ∉ [')', '{', '}', '"', '\''] := by
    have hnone : "a, b".toList.any [')', '{', '}', '"', '\''].contains = false := by decide
    intro c hc hmem
    exact List.any_eq_false.1 hnone c hc (List.contains_iff_mem.2 hmem)
  exact ⟨hbody, hdepth, enclosingFunction_of_openBody (.inr (by decide)) (by decide) hclosed hname
    hparams hdepth (.inr hbody)⟩

end Header

end ProcedureIndex
