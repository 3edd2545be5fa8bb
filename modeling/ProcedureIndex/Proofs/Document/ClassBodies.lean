import ProcedureIndex.Proofs.Document.FnSearch
import ProcedureIndex.Proofs.Document.SymbolPlaces
import ProcedureIndex.Proofs.Text.Braces

/-!
Functions that count as lying in a class. Whether they do is judged by the nearest class
header and the nearest closing brace; that they are found as methods depends on the body
between two matching braces. Where every class header stands in code and is followed by
its brace, the two agree well enough that no function is lost.
-/

namespace ProcedureIndex

open Text

namespace ClassHeader

theorem keyword_chars : ∀ c ∈ keyword, isHeaderChar c = true :=
  List.all_eq_true.1 (by decide)

theorem extends_chars : ∀ c ∈ "extends".toList, isHeaderChar c = true :=
  List.all_eq_true.1 (by decide)

theorem parent?_split {cs parent rest : Text} (h : parent? cs = some (parent, rest)) :
    ∃ taken, cs = taken ++ rest ∧ ∀ c ∈ taken, isHeaderChar c = true := by
  simp only [parent?, bind, Option.bind_eq_some_iff] at h
  obtain ⟨⟨gap, r⟩, hgap, ⟨⟨lead, name⟩, r'⟩, hn, he⟩ := h
  cases he
  refine ⟨gap ++ (lead ++ name), ?_, ?_⟩
  · have hr : r = lead ++ (name ++ r') := (named?_eq_some hn).1.split
    rw [(some?_eq_some hgap).1, hr]
    simp only [List.append_assoc]
  · intro c hc
    rcases List.mem_append.1 hc with hc | hc
    · exact isHeaderChar_of_isBlank (all_of_some? hgap c hc)
    · exact all_of_named? extends_chars hn c hc

/-- A class header is written in blanks and characters of names. -/
theorem pattern_split {prev : Option Char} {cs rest : Text} {h : ClassHeader}
    (hp : pattern prev cs = some (h, rest)) :
    ∃ more, cs = (h.lead ++ (h.name ++ more)) ++ rest ∧
      ∀ c ∈ h.lead ++ (h.name ++ more), isHeaderChar c = true := by
  rw [pattern] at hp
  split at hp
  · cases hp
  · simp only [bind, Option.bind_eq_some_iff] at hp
    obtain ⟨⟨⟨lead, name⟩, behind⟩, hn, hp⟩ := hp
    have hcs : cs = lead ++ (name ++ behind) := (named?_eq_some hn).1.split
    have hall := all_of_named? keyword_chars hn
    cases hparent : parent? behind with
    | none =>
        simp only [hparent] at hp
        cases hp
        refine ⟨[], by rw [hcs, List.append_nil, List.append_assoc], ?_⟩
        rwa [List.append_nil]
    | some r =>
        simp only [hparent] at hp
        cases hp
        obtain ⟨taken, hbehind, htaken⟩ := parent?_split hparent
        refine ⟨taken, by rw [hcs, hbehind]; simp only [List.append_assoc], ?_⟩
        intro c hc
        rw [← List.append_assoc] at hc
        exact (List.mem_append.1 hc).elim (hall c) (htaken c)

end ClassHeader

namespace Text

/-- Nothing of a header is a quote. -/
theorem after_header {a : Text} (ha : ∀ c ∈ a, isHeaderChar c = true) :
    Quoting.code.after a = .code := by
  apply after_eq_self
  intro c hc
  have hdouble : c ≠ '"' := FnHeader.ne_of_isHeaderChar (ha c hc) (by decide)
  have hsingle : c ≠ '\'' := FnHeader.ne_of_isHeaderChar (ha c hc) (by decide)
  simp [Quoting.next, Quoting.isQuote, hdouble, hsingle]

end Text

theorem Symbol.kind_of_owner {s : Symbol} {o : String} (h : s.owner = some o) :
    s.kind = .method := by
  obtain ⟨name, form, file, start, position, labels, doc⟩ := s
  cases form with
  | method owner version isStatic => rfl
  | _ => cases h

namespace Site

/-- Every class header stands in code and is followed by its brace. -/
def ClassesOpened (cs : Text) : Prop :=
  ∀ k ∈ classes cs, k.start ∈ (codeChars cs).map Prod.fst ∧
    (k.rest.dropWhile isBlank).head? = some '{'

instance (cs : Text) : Decidable (ClassesOpened cs) :=
  inferInstanceAs (Decidable (∀ k ∈ classes cs, _ ∧ _))

theorem exists_class_of_inClass {classes closers : List Nat} {offset : Nat}
    (hclosers : closers.Pairwise (· < ·)) (h : inClass classes closers offset = true) :
    ∃ c ∈ classes, c < offset ∧ ∀ b ∈ closers, b < offset → b < c := by
  rw [inClass] at h
  cases hc : lastBefore classes offset with
  | none => simp [hc] at h
  | some c =>
      obtain ⟨hmem, hlt⟩ := List.mem_filter.1 (List.mem_of_getLast? hc)
      refine ⟨c, hmem, by simpa using hlt, ?_⟩
      intro b hb hbefore
      have hb : b ∈ closers.filter (· < offset) := List.mem_filter.2 ⟨hb, by simpa using hbefore⟩
      cases hl : lastBefore closers offset with
      | none =>
          rw [List.getLast?_eq_none_iff.1 hl] at hb
          cases hb
      | some last =>
          simp only [hc, hl, decide_eq_true_eq] at h
          obtain ⟨init, hinit⟩ := List.getLast?_eq_some_iff.1 hl
          have hsorted := hclosers.filter (· < offset)
          rw [hinit] at hb hsorted
          rcases List.mem_append.1 hb with hb | hb
          · have hless := (List.pairwise_append.1 hsorted).2.2 b hb last (by simp)
            omega
          · rw [List.mem_singleton.1 hb]
            exact h

/-- A function header that starts behind the start of a class header starts behind its brace. -/
theorem exists_behind_brace {pre header inner pre' suf : Text} {prev : Option Char}
    {r : FnHeader × Text} (hheader : ∀ c ∈ header, isHeaderChar c = true)
    (heq : pre ++ (header ++ '{' :: inner) = pre' ++ suf) (hlt : width pre < width pre')
    (hp : FnHeader.pattern prev suf = some r) :
    ∃ mid, pre' = pre ++ (header ++ ['{']) ++ mid ∧ inner = mid ++ suf := by
  have hnone : ∀ y, (∀ c ∈ y, isHeaderChar c = true) → suf ≠ y ++ '{' :: inner := by
    rintro y hy rfl
    rw [FnHeader.pattern_eq_none_of_stop (stop_cons (by decide) inner) prev hy] at hp
    cases hp
  rcases List.append_eq_append_iff.1 heq with ⟨x, rfl, hx⟩ | ⟨x, rfl, -⟩
  · rcases List.append_eq_append_iff.1 hx with ⟨y, rfl, hy⟩ | ⟨y, rfl, hy⟩
    · cases y with
      | nil => exact absurd hy.symm (hnone [] (List.forall_mem_nil _))
      | cons c y =>
          cases hy
          exact ⟨y, by simp, rfl⟩
    · exact absurd hy (hnone y fun c hc => hheader c (List.mem_append_right _ hc))
  · rw [width_append] at hlt
    omega

theorem inWord_brace (pre header : Text) :
    inWord (pre ++ (header ++ ['{'])).getLast? = false := by
  rw [← List.append_assoc, List.getLast?_concat]
  decide

theorem stop_of_closing {back : Text} (h : back.head?.all (· == '}') = true) : Stop back := by
  cases back with
  | nil => rfl
  | cons c cs =>
      rw [beq_iff_eq.1 (show (c == '}') = true from h)]
      exact stop_cons (by decide) cs

theorem width_untilClosed_pos {suf : Text} {prev : Option Char} {r : FnHeader × Text}
    (hp : FnHeader.pattern prev suf = some r) (q : Quoting) (depth : Nat) :
    0 < width (untilClosed q depth suf) := by
  cases suf with
  | nil =>
      rw [FnHeader.keyed.eq_none_of_edge prev edge_nil] at hp
      cases hp
  | cons c cs =>
      have hc : (c == '}') = false := by
        rw [beq_eq_false_iff_ne]
        rintro rfl
        have hnone := FnHeader.pattern_eq_none_of_stop (stop_cons (c := '}') (by decide) cs) prev
          (List.forall_mem_nil _)
        rw [List.nil_append, hp] at hnone
        cases hnone
      have hpos := c.utf8Size_pos
      rw [untilClosed]
      simp only [hc, Bool.and_false, Bool.false_eq_true, if_false]
      split <;> (rw [width_cons]; omega)

/-- A class header in code with its brace: what stands before the body is code, and the body is
read from there. -/
theorem ClassesOpened.exists_split {cs : Text} (hclasses : ClassesOpened cs)
    {k : Hit ClassHeader} (hk : k ∈ classes cs) :
    ∃ pre header inner, cs = pre ++ (header ++ '{' :: inner) ∧ width pre = k.start ∧
      (∀ c ∈ header, isHeaderChar c = true) ∧
      Quoting.code.after (pre ++ (header ++ ['{'])) = .code ∧
      body? (width cs) k.rest =
        some (width (pre ++ (header ++ ['{'])), untilClosed .code 1 inner) := by
  obtain ⟨hcode, hbrace⟩ := hclasses k hk
  obtain ⟨pre, suf, hcs, hstart, hp⟩ := mem_hits hk
  obtain ⟨more, hsuf, htaken⟩ := ClassHeader.pattern_split hp
  generalize k.value.lead ++ (k.value.name ++ more) = taken at hsuf htaken
  cases hd : k.rest.dropWhile isBlank with
  | nil => simp [hd] at hbrace
  | cons d inner =>
      rw [hd] at hbrace
      cases hbrace
      have hrest := List.takeWhile_append_dropWhile (p := isBlank) (l := k.rest)
      rw [hd] at hrest
      have hall : ∀ c ∈ taken ++ k.rest.takeWhile isBlank, isHeaderChar c = true := by
        intro c hc
        exact (List.mem_append.1 hc).elim (htaken c)
          fun hc => isHeaderChar_of_isBlank (List.mem_takeWhile_imp hc)
      have hsplit : cs = pre ++ ((taken ++ k.rest.takeWhile isBlank) ++ '{' :: inner) := by
        rw [hcs, hsuf, List.append_assoc, hrest]
      refine ⟨pre, taken ++ k.rest.takeWhile isBlank, inner, hsplit, hstart.symm, hall, ?_, ?_⟩
      · obtain ⟨⟨place, c⟩, hmem, hplace⟩ := List.mem_map.1 hcode
        have hplace : place = width pre := hplace.trans hstart
        rw [hplace, hcs] at hmem
        rw [Quoting.after_append, after_eq_code_of_mem hmem, Quoting.after_append,
          after_header hall]
        rfl
      · have hwidth : width cs - width inner =
            width (pre ++ ((taken ++ k.rest.takeWhile isBlank) ++ ['{'])) := by
          conv => lhs; rw [hsplit]
          simp only [width_append, width_cons, width_nil]
          omega
        simp only [body?, hd, hwidth]

/-- A function that counts as lying in a class lies in the body of one, and is found there. -/
theorem exists_method_of_inClass {cs : Text} (hclasses : ClassesOpened cs) {h : Hit FnHeader}
    (hm : h ∈ hits FnHeader.pattern cs)
    (hin : inClass ((classes cs).map Hit.start) (closers cs) h.start = true) :
    ∃ k ∈ classes cs, ∃ base body, body? (width cs) k.rest = some (base, body) ∧
      base ≤ h.start ∧ h.start < base + width body ∧
      ∃ site ∈ methods k.value.name base body,
        site.start = h.start + width h.value.lead ∧ site.name = h.value.name := by
  obtain ⟨_, hc, hlt, hfree⟩ := exists_class_of_inClass (closersFrom_pairwise .code 0 cs) hin
  obtain ⟨k, hk, rfl⟩ := List.mem_map.1 hc
  obtain ⟨pre, header, inner, hcs, hpre, hall, hcode, hbody⟩ := hclasses.exists_split hk
  obtain ⟨pre', suf, hcs', hstart, hp⟩ := mem_hits hm
  obtain ⟨mid, rfl, rfl⟩ := exists_behind_brace hall (hcs.symm.trans hcs') (by omega) hp
  generalize hfront : pre ++ (header ++ ['{']) = front at *
  -- No closing brace stands between the class header and the function.
  have hcalm : closersFrom .code (width front) mid = [] := by
    rw [List.eq_nil_iff_forall_not_mem]
    intro b hb
    have hbounds := bounds_of_mem_closersFrom hb
    have hmem : b ∈ closers cs := by
      change b ∈ closersFrom .code 0 cs
      rw [hcs', closersFrom_append, closersFrom_append, hcode, Nat.zero_add]
      exact List.mem_append_left _ (List.mem_append_right _ hb)
    have hless := hfree b hmem (by rw [hstart, width_append]; exact hbounds.2)
    have hwidth : width pre ≤ width front := by
      rw [← hfront, width_append]
      omega
    omega
  obtain ⟨depth, hreach⟩ := exists_untilClosed_append hcalm 1 suf
  obtain ⟨back, hback, hclosing⟩ := exists_untilClosed_split .code 1 (mid ++ suf)
  have hto : h.start < width front + width (untilClosed .code 1 (mid ++ suf)) := by
    have hpos := width_untilClosed_pos hp (Quoting.code.after mid) depth
    rw [hreach, hstart, width_append, width_append]
    omega
  have hfrom : width front ≤ h.start := by
    rw [hstart, width_append]
    omega
  refine ⟨k, hk, _, _, hbody, hfrom, hto, ?_⟩
  have hwhole : cs = front ++ (untilClosed .code 1 (mid ++ suf) ++ back) := by
    rw [← hback, hcs', List.append_assoc]
  rw [hwhole] at hm
  obtain ⟨h', hh', hat, hlead, hname⟩ := FnHeader.exists_hit_of_part
    (by rw [← hfront]; exact inWord_brace pre header) (stop_of_closing hclosing) hm hfrom hto
  refine ⟨_, List.mem_map_of_mem hh', ?_, hname⟩
  rw [hat, hlead]

theorem mem_types_of_methods {cs : Text} {k : Hit ClassHeader} (hk : k ∈ classes cs) {base : Nat}
    {body : Text} (hbody : body? (width cs) k.rest = some (base, body)) {site : Site}
    (hsite : site ∈ methods k.value.name base body) : site ∈ types cs := by
  refine List.mem_flatMap.2 ⟨k, hk, List.mem_cons_of_mem _ ?_⟩
  rw [hbody]
  exact hsite

theorem symbol_mem_parse {cs : Text} {site : Site} (h : site ∈ all cs) (file : FileId) :
    site.symbol file cs ∈ (parse file cs).all := by
  rw [parse, Declarations.mem_all_ofSymbols]
  exact List.mem_map_of_mem h

/-- Where every class header stands in code and is followed by its brace, every function header of
a text is recorded with its name where it stands: as a function, or, if it counts as lying in a
class, as a method of a class in whose body it lies. -/
theorem fn_header_recorded (file : FileId) {cs : Text} (hclasses : ClassesOpened cs)
    {h : Hit FnHeader} (hm : h ∈ hits FnHeader.pattern cs) :
    (∃ s ∈ (parse file cs).all, (s.kind = .function ∨ s.kind = .method) ∧
      s.start = h.start + width h.value.lead ∧ s.name = String.ofList h.value.name) ∧
    (inClass ((classes cs).map Hit.start) (closers cs) h.start = true →
      ∃ k ∈ classes cs, ∃ base body, body? (width cs) k.rest = some (base, body) ∧
        base ≤ h.start ∧ h.start < base + width body ∧
        ∃ s ∈ (parse file cs).all, s.owner = some (String.ofList k.value.name) ∧
          s.start = h.start + width h.value.lead ∧ s.name = String.ofList h.value.name) := by
  have hmethod : inClass ((classes cs).map Hit.start) (closers cs) h.start = true →
      ∃ k ∈ classes cs, ∃ base body, body? (width cs) k.rest = some (base, body) ∧
        base ≤ h.start ∧ h.start < base + width body ∧
        ∃ s ∈ (parse file cs).all, s.owner = some (String.ofList k.value.name) ∧
          s.start = h.start + width h.value.lead ∧ s.name = String.ofList h.value.name := by
    intro hin
    obtain ⟨k, hk, base, body, hbody, hfrom, hto, site, hsite, hstart, hname⟩ :=
      exists_method_of_inClass hclasses hm hin
    refine ⟨k, hk, base, body, hbody, hfrom, hto, site.symbol file cs, ?_, ?_⟩
    · apply symbol_mem_parse
      simp [all, mem_types_of_methods hk hbody hsite]
    · obtain ⟨h', -, rfl⟩ := List.mem_map.1 hsite
      exact ⟨rfl, hstart, congrArg String.ofList hname⟩
  refine ⟨?_, hmethod⟩
  by_cases hin : inClass ((classes cs).map Hit.start) (closers cs) h.start = true
  · obtain ⟨k, -, base, body, -, -, -, s, hs, howner, hplace⟩ := hmethod hin
    exact ⟨s, hs, .inr (Symbol.kind_of_owner howner), hplace⟩
  · refine ⟨Site.symbol file cs ⟨h.start, h.start + width h.value.lead, h.value.name,
      .function (versionIn h.value.params)⟩, ?_, .inl rfl, rfl, rfl⟩
    apply symbol_mem_parse
    have hfree : h ∈ (hits FnHeader.pattern cs).filter fun h =>
        !inClass ((classes cs).map Hit.start) (closers cs) h.start :=
      List.mem_filter.2 ⟨hm, by simpa using hin⟩
    have hfunction : _ ∈ functions cs := List.mem_map_of_mem hfree
    simp only [all, List.mem_append, hfunction, true_or]

def nestedClasses : Text :=
  "fn f( class A \x7b fn g() \x7b \"\x7d\" class B \x7b static fn h(".toList

theorem fn_header_recorded_nestedClasses :
    ClassesOpened nestedClasses ∧
      ∃ h ∈ hits FnHeader.pattern nestedClasses, h.value.name = ['h'] ∧
        inClass ((classes nestedClasses).map Hit.start) (closers nestedClasses) h.start = true ∧
        ∃ s ∈ (parse ⟨0⟩ nestedClasses).all, s.kind = .method ∧
          s.start = h.start + width h.value.lead ∧ s.name = "h" := by
  have hclasses : ClassesOpened nestedClasses := by decide +kernel
  obtain ⟨h, hm, hname, hin⟩ : ∃ h ∈ hits FnHeader.pattern nestedClasses, h.value.name = ['h'] ∧
      inClass ((classes nestedClasses).map Hit.start) (closers nestedClasses) h.start = true := by
    decide +kernel
  obtain ⟨k, -, base, body, -, -, -, s, hs, howner, hstart, hs'⟩ :=
    (fn_header_recorded ⟨0⟩ hclasses hm).2 hin
  refine ⟨hclasses, h, hm, hname, hin, s, hs, Symbol.kind_of_owner howner, hstart, ?_⟩
  rw [hs', hname]

end Site
end ProcedureIndex
