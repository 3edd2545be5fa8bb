import ProcedureIndex.Proofs.Completion.CursorContext
import ProcedureIndex.Proofs.Document.Recognition

/-!
The call that a version is typed in. It is searched for without regard to strings and to
other calls among the arguments: the last parenthesis of the line decides. If it opens, the
name in front of it is reported, and if it closes, none. So the call whose parenthesis is
still open is reported where no other parenthesis stands behind its own.
-/

namespace ProcedureIndex

open Text

namespace Context

/-- The longest name that a text ends with, blanks behind it aside, if it ends with a name. -/
def lastName (cs : Text) : Option Text :=
  let run := ((trimEnd cs).reverse.takeWhile isNameContinue).reverse
  let name := run.dropWhile fun c => !isNameStart c
  if name.isEmpty then none else some name

section LastName

variable {cs : Text}

/-- What a text without the blanks at its end consists of: a front, characters that no name starts
with, and the name. -/
theorem exists_run (cs : Text) :
    ∃ front digits gap, front.getLast?.any isNameContinue = false ∧
      (∀ c ∈ digits, isNameStart c = false) ∧ (∀ c ∈ gap, isBlank c = true) ∧
      (∀ c ∈ digits ++ (lastName cs).getD [], isNameContinue c = true) ∧
      ((lastName cs).getD []).head?.all isNameStart = true ∧
      cs = front ++ (digits ++ ((lastName cs).getD [] ++ gap)) := by
  have hname : (lastName cs).getD [] =
      ((trimEnd cs).reverse.takeWhile isNameContinue).reverse.dropWhile
        fun c => !isNameStart c := by
    rw [lastName]
    split
    · next h => exact (List.isEmpty_iff.1 h).symm
    · rfl
  have hrun : (((trimEnd cs).reverse.dropWhile isNameContinue).reverse) ++
      ((trimEnd cs).reverse.takeWhile isNameContinue).reverse = trimEnd cs := by
    rw [← List.reverse_append, List.takeWhile_append_dropWhile, List.reverse_reverse]
  obtain ⟨gap, htrim, hgap⟩ := exists_blanks cs
  have hdigits := List.takeWhile_append_dropWhile (p := fun c => !isNameStart c)
    (l := ((trimEnd cs).reverse.takeWhile isNameContinue).reverse)
  refine ⟨((trimEnd cs).reverse.dropWhile isNameContinue).reverse,
    ((trimEnd cs).reverse.takeWhile isNameContinue).reverse.takeWhile fun c => !isNameStart c,
    gap, ?_, ?_, hgap, ?_, ?_, ?_⟩
  · rw [List.getLast?_reverse]
    exact head?_dropWhile_any _
  · intro c hc
    simpa using List.mem_takeWhile_imp hc
  · rw [hname, hdigits]
    intro c hc
    exact List.mem_takeWhile_imp (List.mem_reverse.1 hc)
  · rw [hname]
    have hhead := head?_dropWhile_any (p := fun c => !isNameStart c)
      ((trimEnd cs).reverse.takeWhile isNameContinue).reverse
    generalize List.dropWhile _ _ = name at hhead
    cases name with
    | nil => rfl
    | cons c name => simpa using hhead
  · rw [hname, ← List.append_assoc, ← List.append_assoc, List.append_assoc _ _ (List.dropWhile _ _),
      hdigits, hrun, ← htrim]

/-- The name is at the end of the text, and no name that ends there starts in front of it. -/
theorem exists_split_of_lastName {name : Text} (h : lastName cs = some name) :
    ∃ front gap, cs = front ++ (name ++ gap) ∧ IsName name ∧ (∀ c ∈ gap, isBlank c = true) ∧
      ∀ x y, front = x ++ y → y ≠ [] → ¬ IsName (y ++ name) := by
  obtain ⟨front, digits, gap, hedge, hdigits, hgap, hall, hstart, hcs⟩ := exists_run cs
  rw [h, Option.getD_some] at hall hstart hcs
  have hne : name ≠ [] := by
    rintro rfl
    rw [lastName] at h
    split at h
    · cases h
    · next hnonempty => exact hnonempty (List.isEmpty_iff.2 (Option.some.inj h))
  have hname : IsName name := by
    refine ⟨?_, fun c hc => hall c (List.mem_append_right digits hc)⟩
    cases name with
    | nil => exact absurd rfl hne
    | cons c name => exact hstart
  refine ⟨front ++ digits, gap, by rw [hcs, List.append_assoc], hname, hgap, ?_⟩
  intro x y hxy hy hlonger
  obtain ⟨c, y, rfl⟩ := List.exists_cons_of_ne_nil hy
  have hc : isNameStart c = true := hlonger.start
  rcases List.append_eq_append_iff.1 hxy with ⟨more, -, hmore⟩ | ⟨more, hfront, hmore⟩
  · have hmem : c ∈ digits := by
      rw [hmore]
      simp
    rw [hdigits c hmem] at hc
    cases hc
  · -- The front would end with a character of the name.
    cases more with
    | nil =>
        have hmem : c ∈ digits := by
          rw [List.nil_append] at hmore
          rw [← hmore]
          simp
        rw [hdigits c hmem] at hc
        cases hc
    | cons d more =>
        obtain ⟨last, hlast⟩ : ∃ last, (d :: more).getLast? = some last :=
          ⟨_, List.getLast?_eq_some_getLast (List.cons_ne_nil d more)⟩
        have hmem : last ∈ c :: y ++ name := by
          rw [hmore]
          exact List.mem_append_left _ (List.mem_append_left _ (List.mem_of_getLast? hlast))
        rw [hfront, List.getLast?_append, hlast, Option.some_or, Option.any_some,
          hlonger.all last hmem] at hedge
        cases hedge

/-- Without a last name the text ends with no name. -/
theorem not_isName_of_lastName {front name gap : Text}
    (h : lastName (front ++ (name ++ gap)) = none) (hgap : ∀ c ∈ gap, isBlank c = true) :
    ¬ IsName name := by
  intro hname
  have htrim : trimEnd (front ++ (name ++ gap)) = front ++ name := by
    rw [← List.append_assoc, trimEnd_append_blanks hgap, hname.trimEnd_append]
  obtain ⟨c, ds, rfl⟩ := List.exists_cons_of_ne_nil hname.ne_nil
  have hmem : c ∈ ((front ++ c :: ds).reverse.takeWhile isNameContinue).reverse := by
    rw [List.reverse_append, List.takeWhile_append_of_pos
      fun d hd => hname.all d (List.mem_reverse.1 hd)]
    simp
  rw [lastName, htrim] at h
  split at h
  · next hempty =>
      have hnone := List.dropWhile_eq_nil_iff.1 (List.isEmpty_iff.1 hempty) c hmem
      have hc : isNameStart c = true := hname.start
      rw [hc] at hnone
      cases hnone
  · cases h

end LastName

theorem not_mem_of_isParen {c : Char} {cs : Text} (hcs : ∀ d ∈ cs, isParen d = false)
    (hc : isParen c = true) : c ∉ cs := by
  intro hmem
  rw [hcs c hmem] at hc
  cases hc

/-- A text has one last parenthesis. -/
theorem last_paren_unique {x y a b : Text} {p q : Char} (h : x ++ p :: y = a ++ q :: b)
    (hp : isParen p = true) (hq : isParen q = true) (hy : ∀ c ∈ y, isParen c = false)
    (hb : ∀ c ∈ b, isParen c = false) : x = a ∧ p = q ∧ y = b := by
  obtain ⟨z, haz, hyz⟩ := exists_split_front (List.append_cons a q b ▸ h) (not_mem_of_isParen hb hp)
  obtain ⟨z', hxz, rfl⟩ :=
    exists_split_front (List.append_cons x p y ▸ h.symm) (not_mem_of_isParen hy hq)
  have hlength := congrArg List.length hyz
  simp only [List.length_append] at hlength
  obtain rfl : z' = [] := List.length_eq_zero_iff.1 (by omega)
  obtain ⟨rfl, hpq⟩ := List.append_inj' hxz rfl
  exact ⟨rfl, List.singleton_inj.1 hpq, rfl⟩

theorem exists_last_paren {cs : Text} (h : ∃ c ∈ cs, isParen c = true) :
    ∃ a p b, cs = a ++ p :: b ∧ isParen p = true ∧ ∀ c ∈ b, isParen c = false := by
  induction cs with
  | nil =>
      obtain ⟨c, hc, -⟩ := h
      cases hc
  | cons d cs ih =>
      by_cases hcs : ∃ c ∈ cs, isParen c = true
      · obtain ⟨a, p, b, rfl, hp, hb⟩ := ih hcs
        exact ⟨d :: a, p, b, rfl, hp, hb⟩
      · obtain ⟨c, hc, hparen⟩ := h
        rcases List.mem_cons.1 hc with rfl | hc
        · refine ⟨[], c, cs, rfl, hparen, fun e he => ?_⟩
          exact Bool.eq_false_iff.2 fun htrue => hcs ⟨e, he, htrue⟩
        · exact absurd ⟨c, hc, hparen⟩ hcs

theorem versionCallPattern_eq_some_iff {prev : Option Char} {cs name rest : Text} :
    versionCallPattern prev cs = some (name, rest) ↔
      rest = [] ∧ ∃ gap inner, cs = name ++ (gap ++ '(' :: inner) ∧ IsName name ∧
        (∀ c ∈ gap, isBlank c = true) ∧ (∀ c ∈ inner, isParen c = false) ∧
        (firstHit? versionValuePattern inner).isSome = true := by
  have hparens : ∀ inner : Text, inner.all (fun c => c != '(' && c != ')') = true ↔
      ∀ c ∈ inner, isParen c = false := by
    intro inner
    rw [List.all_eq_true]
    simp [isParen]
  simp only [versionCallPattern, bind, Option.bind_eq_some_iff]
  constructor
  · rintro ⟨⟨w, r⟩, hname, inner, hopen, h⟩
    split at h
    · next hinner =>
        cases h
        rw [Bool.and_eq_true, hparens] at hinner
        obtain ⟨rfl, hw, -⟩ := name?_eq_some hname
        have hr : r = r.takeWhile isBlank ++ '(' :: inner := eq_of_after?_dropWhile hopen
        exact ⟨rfl, r.takeWhile isBlank, inner, congrArg (w ++ ·) hr, hw,
          fun c hc => List.mem_takeWhile_imp hc, hinner.1, hinner.2⟩
    · cases h
  · rintro ⟨rfl, gap, inner, rfl, hname, hgap, hinner, hversion⟩
    refine ⟨_, name?_append hname (isNameContinue_gap hgap inner), inner, ?_, ?_⟩
    · rw [List.dropWhile_append_of_pos hgap, List.dropWhile_cons_of_neg (by decide)]
      rfl
    · rw [if_pos]
      rw [(hparens inner).2 hinner, hversion]
      rfl

section LastParen

variable {a b : Text}

/-- The name in front of the last parenthesis is found, if that opens. -/
theorem callName_of_open (hb : ∀ c ∈ b, isParen c = false)
    (hversion : (firstHit? versionValuePattern b).isSome = true) :
    (firstHit? versionCallPattern (a ++ '(' :: b)).map Hit.value = lastName a := by
  cases hlast : lastName a with
  | none =>
      rw [firstHit?_eq_none_iff.2, Option.map_none]
      intro pre suf hsplit
      rw [Option.eq_none_iff_forall_ne_some]
      rintro ⟨name, rest⟩ hp
      obtain ⟨-, gap, inner, rfl, hname, hgap, hinner, -⟩ := versionCallPattern_eq_some_iff.1 hp
      rw [← List.append_assoc name, ← List.append_assoc pre] at hsplit
      obtain ⟨rfl, -, -⟩ := last_paren_unique hsplit rfl rfl hb hinner
      exact not_isName_of_lastName hlast hgap hname
  | some name =>
      obtain ⟨front, gap, rfl, hname, hgap, hlongest⟩ := exists_split_of_lastName hlast
      have hquiet : Quiet versionCallPattern front (name ++ (gap ++ '(' :: b)) := by
        intro x y hxy hy
        rw [Option.eq_none_iff_forall_ne_some]
        rintro ⟨other, rest⟩ hp
        obtain ⟨-, gap', inner, hsplit, hother, hgap', hinner, -⟩ :=
          versionCallPattern_eq_some_iff.1 hp
        rw [← List.append_assoc name, ← List.append_assoc y, ← List.append_assoc other] at hsplit
        obtain ⟨hsame, -, -⟩ := last_paren_unique hsplit rfl rfl hb hinner
        -- Without the blanks behind them the two names end at one place.
        have hends : y ++ name = other := (hname.append_blanks_inj hother hgap hgap'
          (show y ++ (name ++ gap) = [] ++ (other ++ gap') from hsame)).1
        exact hlongest x y hxy hy (hends ▸ hother)
      have hanswer : versionCallPattern front.getLast? (name ++ (gap ++ '(' :: b)) =
          some (name, []) :=
        versionCallPattern_eq_some_iff.2 ⟨rfl, gap, b, rfl, hname, hgap, hb, hversion⟩
      rw [List.append_assoc, List.append_assoc, hquiet.firstHit?_append hanswer]
      rfl

/-- Nothing is found where the last parenthesis closes. -/
theorem callName_of_closed (hb : ∀ c ∈ b, isParen c = false) :
    firstHit? versionCallPattern (a ++ ')' :: b) = none := by
  rw [firstHit?_eq_none_iff]
  intro pre suf hsplit
  rw [Option.eq_none_iff_forall_ne_some]
  rintro ⟨name, rest⟩ hp
  obtain ⟨-, gap, inner, rfl, -, -, hinner, -⟩ := versionCallPattern_eq_some_iff.1 hp
  rw [← List.append_assoc name, ← List.append_assoc pre] at hsplit
  obtain ⟨-, hparen, -⟩ := last_paren_unique hsplit rfl rfl hb hinner
  cases hparen

/-- A version that is typed on a line stands behind the last parenthesis. -/
theorem isSome_version_behind {p : Char} (hp : isParen p = true)
    (h : (firstHit? versionValuePattern (a ++ p :: b)).isSome = true) :
    (firstHit? versionValuePattern b).isSome = true := by
  obtain ⟨hit, hhit⟩ := Option.isSome_iff_exists.1 h
  obtain ⟨front, suf, hsplit, hanswer⟩ := exists_split_of_firstHit? hhit
  obtain ⟨hprev, key, rfl, hkey, hvalue⟩ := versionValuePattern_eq_some hanswer
  have hnone : ∀ c ∈ key ++ hit.value, isParen c = false := by
    intro c hc
    rcases List.mem_append.1 hc with hc | hc
    · exact hkey.noParens c hc
    · have hc := hvalue c hc
      rw [isParen, Bool.or_eq_false_iff, beq_eq_false_iff_ne, beq_eq_false_iff_ne]
      exact ⟨ne_of_isVersionChar hc (by decide +kernel), ne_of_isVersionChar hc (by decide +kernel)⟩
  obtain ⟨x, rfl, hb⟩ := exists_split_front hsplit (not_mem_of_isParen hnone hp)
  rw [Option.isSome_iff_ne_none]
  intro hnowhere
  have hlast : inWord x.getLast? = false := by
    cases hx : x.getLast? with
    | none => rfl
    | some c =>
        rw [List.getLast?_append, List.getLast?_cons, hx] at hprev
        exact hprev
  have hat := firstHit?_eq_none_iff.1 hnowhere x _ hb
  have hsame : versionValuePattern x.getLast? (key ++ hit.value) =
      versionValuePattern (a ++ p :: x).getLast? (key ++ hit.value) := by
    simp only [versionValuePattern, versionKey?, hprev, hlast]
  rw [hsame, hanswer] at hat
  cases hat

end LastParen

/-- Where the function of a call is named beside a version: the parenthesis that is open is the last
of the line and the word in front of it is a name, or the same name stands in front of a later
parenthesis that opens, or there is no name and the last parenthesis closes. A string or a call
among the arguments that holds a parenthesis therefore hides the function, or another is named in
its place. -/
theorem version_function_iff {before after value : Text} {function : Option Text}
    (h : classify before after = .version value function) {pre post : Text}
    (hopen : LeftOpen '(' ')' (lastLine before) pre post 0) :
    function = calleeOf pre ↔
      ((∀ c ∈ post, isParen c = false) ∧ lastName pre = calleeOf pre) ∨
      (∃ a b, post = a ++ '(' :: b ∧ (∀ c ∈ b, isParen c = false) ∧
        lastName (pre ++ '(' :: a) = calleeOf pre) ∨
      ∃ a b, post = a ++ ')' :: b ∧ (∀ c ∈ b, isParen c = false) ∧ calleeOf pre = none := by
  have hjudged := judged before after
  rw [h] at hjudged
  cases hjudged with
  | @version hit hhit =>
      rw [hopen.split] at hhit ⊢
      have hversion : (firstHit? versionValuePattern (pre ++ '(' :: post)).isSome = true := by
        rw [hhit]
        rfl
      by_cases hpost : ∃ c ∈ post, isParen c = true
      · obtain ⟨a, p, b, rfl, hp, hb⟩ := exists_last_paren hpost
        have hfree : ¬ ∀ c ∈ a ++ p :: b, isParen c = false := by
          intro hall
          rw [hall p (by simp)] at hp
          cases hp
        rw [← List.cons_append, ← List.append_assoc] at hversion ⊢
        rcases (by simpa [isParen] using hp : p = '(' ∨ p = ')') with rfl | rfl
        · rw [callName_of_open hb (isSome_version_behind hp hversion)]
          constructor
          · exact fun hsame => .inr (.inl ⟨a, b, rfl, hb, hsame⟩)
          · rintro (⟨hall, -⟩ | ⟨a', b', hsplit, hb', hsame⟩ | ⟨a', b', hsplit, hb', -⟩)
            · exact absurd hall hfree
            · obtain ⟨rfl, -, -⟩ := last_paren_unique hsplit rfl rfl hb hb'
              exact hsame
            · obtain ⟨-, hparen, -⟩ := last_paren_unique hsplit rfl rfl hb hb'
              cases hparen
        · rw [callName_of_closed hb, Option.map_none]
          constructor
          · exact fun hsame => .inr (.inr ⟨a, b, rfl, hb, hsame.symm⟩)
          · rintro (⟨hall, -⟩ | ⟨a', b', hsplit, hb', -⟩ | ⟨a', b', -, -, hsame⟩)
            · exact absurd hall hfree
            · obtain ⟨-, hparen, -⟩ := last_paren_unique hsplit rfl rfl hb hb'
              cases hparen
            · exact hsame.symm
      · have hall : ∀ c ∈ post, isParen c = false := by
          intro c hc
          exact Bool.eq_false_iff.2 fun hparen => hpost ⟨c, hc, hparen⟩
        rw [callName_of_open hall (isSome_version_behind rfl hversion)]
        constructor
        · exact fun hsame => .inl ⟨hall, hsame⟩
        · rintro (⟨-, hsame⟩ | ⟨a, b, rfl, -⟩ | ⟨a, b, rfl, -⟩)
          · exact hsame
          · exact absurd (hall '(' (by simp)) (by decide)
          · exact absurd (hall ')' (by simp)) (by decide)

theorem version_function_hidden_by_nestedCall :
    let before := "SQ3R(load(), version: \"ac".toList
    let post := "load(), version: \"ac".toList
    classify before "\")".toList = .version "ac".toList none ∧
      LeftOpen '(' ')' (lastLine before) "SQ3R".toList post 0 ∧
      calleeOf "SQ3R".toList = some "SQ3R".toList ∧ none ≠ calleeOf "SQ3R".toList := by
  intro before post
  have hversion : classify before "\")".toList = .version "ac".toList none := by decide +kernel
  have hopen : LeftOpen '(' ')' (lastLine before) "SQ3R".toList post 0 :=
    ⟨by decide, by decide, by decide⟩
  have hcallee : calleeOf "SQ3R".toList = some "SQ3R".toList := by decide +kernel
  refine ⟨hversion, hopen, hcallee, ?_⟩
  intro hsame
  rcases (version_function_iff hversion hopen).1 hsame with
    ⟨hall, -⟩ | ⟨a, b, hsplit, hb, -⟩ | ⟨-, -, -, -, hnone⟩
  · exact absurd (hall '(' (by decide)) (by decide)
  · have hlast : post = "load(".toList ++ ')' :: ", version: \"ac".toList := rfl
    obtain ⟨-, hparen, -⟩ :=
      last_paren_unique (hlast.symm.trans hsplit) rfl rfl (eq_false_of_any (by decide)) hb
    cases hparen
  · rw [hcallee] at hnone
    cases hnone

end Context
end ProcedureIndex
