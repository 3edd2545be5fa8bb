import ProcedureIndex.Proofs.Document.Recognition
import ProcedureIndex.Proofs.Text.Stops

/-!
Searching a part of a text for functions. A function header passes over its parameters
up to the next closing parenthesis, whatever stands in between, so a search that starts
in the middle of a text falls into step with the search of the whole text at the next
closing parenthesis, and until then finds more and not less.
-/

namespace ProcedureIndex

open Text

namespace FnHeader

theorem keyword_chars : ∀ c ∈ keyword, isHeaderChar c = true :=
  List.all_eq_true.1 (by decide)

theorem staticKeyword_chars : ∀ c ∈ staticKeyword, isHeaderChar c = true :=
  List.all_eq_true.1 (by decide)

theorem plain?_split {cs rest : Text} {h : FnHeader} (hp : plain? cs = some (h, rest)) :
    ∃ gap behind, cs = (h.lead ++ (h.name ++ gap)) ++ '(' :: behind ∧
      (∀ c ∈ h.lead ++ (h.name ++ gap), isHeaderChar c = true) ∧
      rest = behind.dropWhile (· != ')') := by
  simp only [plain?, bind, Option.bind_eq_some_iff] at hp
  obtain ⟨⟨⟨lead, name⟩, r⟩, hn, behind, hopen, he⟩ := hp
  cases he
  have hsplit : r = r.takeWhile isBlank ++ '(' :: behind := eq_of_after?_dropWhile hopen
  refine ⟨r.takeWhile isBlank, behind, ?_, ?_, rfl⟩
  · rw [(named?_eq_some hn).1.split]
    conv => lhs; rw [hsplit]
    simp only [List.append_assoc]
  · intro c hc
    rw [← List.append_assoc, List.mem_append] at hc
    rcases hc with hc | hc
    · exact all_of_named? keyword_chars hn c hc
    · exact isHeaderChar_of_isBlank (List.mem_takeWhile_imp hc)

theorem static?_split {cs lead rest : Text} (h : static? cs = some (lead, rest)) :
    cs = lead ++ rest ∧ ∀ c ∈ lead, isHeaderChar c = true := by
  simp only [static?, bind, Option.bind_eq_some_iff] at h
  obtain ⟨r, hk, ⟨space, r'⟩, hspace, he⟩ := h
  cases he
  refine ⟨by rw [after?_eq_some_iff.1 hk, (some?_eq_some hspace).1, List.append_assoc], ?_⟩
  intro c hc
  rcases List.mem_append.1 hc with hc | hc
  · exact staticKeyword_chars c hc
  · exact isHeaderChar_of_isBlank (all_of_some? hspace c hc)

/-- A function header is written in blanks and characters of names up to its parenthesis. -/
theorem pattern_split {prev : Option Char} {cs rest : Text} {h : FnHeader}
    (hp : pattern prev cs = some (h, rest)) :
    ∃ gap behind, cs = (h.lead ++ (h.name ++ gap)) ++ '(' :: behind ∧
      (∀ c ∈ h.lead ++ (h.name ++ gap), isHeaderChar c = true) ∧
      rest = behind.dropWhile (· != ')') := by
  rw [pattern] at hp
  split at hp
  · cases hp
  · split at hp
    · next lead r hs =>
        obtain ⟨⟨h', rest'⟩, hplain, he⟩ := Option.map_eq_some_iff.1 hp
        cases he
        obtain ⟨gap, behind, hr, hall, hrest⟩ := plain?_split hplain
        obtain ⟨hcs, hlead⟩ := static?_split hs
        refine ⟨gap, behind, ?_, ?_, hrest⟩
        · rw [hcs, hr]
          simp only [List.append_assoc]
        · intro c hc
          rw [List.append_assoc, List.mem_append] at hc
          exact hc.elim (hlead c) (hall c)
    · exact plain?_split hp

theorem params_sublist_of_plain? {cs rest : Text} {h : FnHeader}
    (hp : plain? cs = some (h, rest)) : h.params.Sublist cs := by
  simp only [plain?, bind, Option.bind_eq_some_iff] at hp
  obtain ⟨⟨⟨lead, name⟩, behind⟩, hn, r, hopen, he⟩ := hp
  cases he
  have hcs : cs = lead ++ (name ++ behind) := (named?_eq_some hn).1.split
  have hr := after?_eq_some_iff.1 hopen
  have hrest : r.Sublist behind :=
    (List.sublist_append_right ['('] r).trans (hr ▸ List.dropWhile_sublist _)
  have hbehind : behind.Sublist cs := by
    rw [hcs, ← List.append_assoc]
    exact List.sublist_append_right _ _
  exact (List.takeWhile_sublist _).trans (hrest.trans hbehind)

theorem params_sublist {prev : Option Char} {cs rest : Text} {h : FnHeader}
    (hp : pattern prev cs = some (h, rest)) : h.params.Sublist cs := by
  rw [pattern] at hp
  split at hp
  · cases hp
  · split at hp
    · next hs =>
        obtain ⟨⟨h', rest'⟩, hplain, he⟩ := Option.map_eq_some_iff.1 hp
        cases he
        rw [(static?_split hs).1]
        exact (params_sublist_of_plain? hplain).trans (List.sublist_append_right _ _)
    · exact params_sublist_of_plain? hp

theorem ne_of_isHeaderChar {c d : Char} (hc : isHeaderChar c = true)
    (hd : isHeaderChar d = false) : c ≠ d := by
  rintro rfl
  rw [hc] at hd
  cases hd

/-- What a function header leaves starts with the first closing parenthesis of the text. -/
theorem rest_eq {prev : Option Char} {cs rest : Text} {h : FnHeader}
    (hp : pattern prev cs = some (h, rest)) : rest = cs.dropWhile (· != ')') := by
  obtain ⟨gap, behind, hcs, hall, hrest⟩ := pattern_split hp
  have hhead : ∀ c ∈ h.lead ++ (h.name ++ gap), (c != ')') = true := by
    intro c hc
    exact bne_iff_ne.2 (ne_of_isHeaderChar (hall c hc) (by decide))
  rw [hcs, List.dropWhile_append_of_pos hhead, List.dropWhile_cons_of_pos (by decide), hrest]

/-- No header is recognised that something else than its parenthesis cuts short. -/
theorem pattern_eq_none_of_stop {b : Text} (hb : Stop b) (prev : Option Char) {a : Text}
    (ha : ∀ c ∈ a, isHeaderChar c = true) : pattern prev (a ++ b) = none := by
  rw [Option.eq_none_iff_forall_ne_some]
  rintro ⟨h, rest⟩ hp
  obtain ⟨gap, behind, hcs, hall, -⟩ := pattern_split hp
  -- The first character that is not of headers would be both the parenthesis and the stop.
  have hparen : ('(' :: behind).dropWhile isHeaderChar = '(' :: behind :=
    List.dropWhile_cons_of_neg (by decide)
  have hstop : b.dropWhile isHeaderChar = b := dropWhile_append_of_stop hb.isHeaderChar []
  have hsame := congrArg (List.dropWhile isHeaderChar) hcs
  rw [List.dropWhile_append_of_pos ha, List.dropWhile_append_of_pos hall, hparen, hstop] at hsame
  simp [hsame, Stop] at hb

theorem plain?_append_of_stop {b : Text} (hb : Stop b) (a : Text) :
    (plain? (a ++ b)).map (fun r => (r.1.lead, r.1.name)) =
      (plain? a).map fun r => (r.1.lead, r.1.name) := by
  have hparen : ∀ c ∈ b.head?, c ∉ ['('] := hb.not_mem (List.all_eq_true.1 (by decide))
  simp only [plain?, bind, Option.bind, named?_append_of_stop keyword_chars hb]
  cases named? keyword a with
  | none => rfl
  | some r =>
      simp only [Option.map_some, dropWhile_append_of_stop hb.isBlank,
        after?_append_of_stop hparen]
      cases after? ['('] (r.2.dropWhile isBlank) <;> rfl

theorem static?_append_of_stop {b : Text} (hb : Stop b) (a : Text) :
    static? (a ++ b) = (static? a).map fun r => (r.1, r.2 ++ b) := by
  have hkeyword := hb.not_mem fun c hc => Bool.or_eq_true_iff.2 (.inl (staticKeyword_chars c hc))
  simp only [static?, bind, Option.bind, after?_append_of_stop hkeyword]
  cases after? staticKeyword a with
  | none => rfl
  | some r =>
      simp only [Option.map_some, blanks?, some?_append_of_stop hb.isBlank]
      cases some? isBlank r <;> rfl

/-- The header found at a place does not depend on what stands behind a character that stops it;
only its parameters do. -/
theorem pattern_append_of_stop {b : Text} (hb : Stop b) (prev : Option Char) (a : Text) :
    (pattern prev (a ++ b)).map (fun r => (r.1.lead, r.1.name)) =
      (pattern prev a).map fun r => (r.1.lead, r.1.name) := by
  simp only [pattern]
  split
  · rfl
  · rw [static?_append_of_stop hb]
    cases static? a with
    | none => exact plain?_append_of_stop hb a
    | some r =>
        have hplain := congrArg (Option.map fun x => (r.1 ++ x.1, x.2))
          (plain?_append_of_stop hb r.2)
        rw [Option.map_map, Option.map_map] at hplain
        simp only [Option.map_some, Option.map_map]
        exact hplain

/-- How many of the next characters a header before them may have passed over: none, or all up to
the next closing parenthesis. -/
def Covers (n : Nat) (cs : Text) : Prop :=
  n = 0 ∨ n = (cs.takeWhile (· != ')')).length

theorem Covers.of_succ {n : Nat} {c : Char} {cs : Text} (h : Covers (n + 1) (c :: cs)) :
    Covers n cs := by
  rcases h with h | h
  · cases h
  · rw [List.takeWhile_cons] at h
    split at h
    · exact .inr (Nat.succ.inj h)
    · cases h

theorem covers_of_hit {prev : Option Char} {c : Char} {cs rest : Text} {h : FnHeader}
    (hp : pattern prev (c :: cs) = some (h, rest)) :
    cs.length - rest.length = (cs.takeWhile (· != ')')).length := by
  have hc : (c != ')') = true := by
    rw [bne_iff_ne]
    rintro rfl
    have hnone := pattern_eq_none_of_stop (stop_cons (c := ')') (by decide) cs) prev
      (List.forall_mem_nil _)
    rw [List.nil_append, hp] at hnone
    cases hnone
  have hrest := rest_eq hp
  rw [List.dropWhile_cons, if_pos hc] at hrest
  have hlength := congrArg List.length (List.takeWhile_append_dropWhile (p := (· != ')')) (l := cs))
  rw [List.length_append, ← hrest] at hlength
  omega

/-- The search of a text goes on from any place, some characters covered or none. -/
theorem exists_hitsFrom_append (front rest : Text) (prev : Option Char) (offset : Nat) {n : Nat}
    (hn : Covers n (front ++ rest)) :
    ∃ first n', Covers n' rest ∧
      hitsFrom pattern prev offset n (front ++ rest) =
        first ++ hitsFrom pattern (front.getLast?.or prev) (offset + width front) n' rest ∧
      ∀ h ∈ first, h.start < offset + width front := by
  induction front generalizing prev offset n with
  | nil => exact ⟨[], n, hn, rfl, by simp⟩
  | cons c front ih =>
      have hlast : (c :: front).getLast?.or prev = front.getLast?.or (some c) := by
        rw [List.getLast?_cons]
        cases front.getLast? <;> rfl
      have hwidth : offset + width (c :: front) = offset + c.utf8Size + width front := by
        rw [width_cons, Nat.add_assoc]
      rw [hlast, hwidth, List.cons_append]
      cases n with
      | succ n => exact ih (some c) (offset + c.utf8Size) hn.of_succ
      | zero =>
          cases hp : pattern prev (c :: (front ++ rest)) with
          | none =>
              rw [hitsFrom_cons_of_none hp]
              exact ih (some c) (offset + c.utf8Size) (.inl rfl)
          | some r =>
              rw [hitsFrom_cons_of_some hp]
              obtain ⟨first, n', hn', heq, hfirst⟩ :=
                ih (some c) (offset + c.utf8Size) (.inr (covers_of_hit hp))
              refine ⟨_ :: first, n', hn', by rw [heq]; rfl, ?_⟩
              intro h hh
              rcases List.mem_cons.1 hh with rfl | hh
              · change offset < _
                have hpos := c.utf8Size_pos
                omega
              · exact hfirst h hh

/-- A search that starts afresh misses nothing of a search that still has characters covered: both
are in step again at the next closing parenthesis. -/
theorem mem_hitsFrom_of_covers {prev : Option Char} {offset n : Nat} {cs : Text}
    {h : Hit FnHeader} (hn : Covers n cs) (hm : h ∈ hitsFrom pattern prev offset n cs) :
    h ∈ hitsFrom pattern prev offset 0 cs := by
  rcases hn with rfl | rfl
  · exact hm
  · have hcs := List.takeWhile_append_dropWhile (p := (· != ')')) (l := cs)
    obtain ⟨first, n', hn', heq, -⟩ := exists_hitsFrom_append (cs.takeWhile (· != ')'))
      (cs.dropWhile (· != ')')) prev offset (n := 0) (.inl rfl)
    have hzero : n' = 0 := by
      have hnone : (cs.dropWhile (· != ')')).takeWhile (· != ')') = [] := by
        have hhead := head?_dropWhile_any (p := (· != ')')) cs
        cases hd : cs.dropWhile (· != ')') with
        | nil => rfl
        | cons c ds =>
            rw [hd] at hhead
            exact List.takeWhile_cons_of_neg (by simpa using hhead)
      rcases hn' with hn' | hn'
      · exact hn'
      · rw [hn', hnone, List.length_nil]
    rw [hcs, hzero] at heq
    rw [heq, List.mem_append]
    right
    rwa [← hitsFrom_covered, hcs]

/-- Two searches, one of a text and one of its front part, that have the same characters of the
front part behind them: they are at one place, or their headers passed over the same parenthesis. -/
def InStep (back : Text) (n n' : Nat) (body : Text) : Prop :=
  (n = 0 ∧ n' = 0) ∨
    (n = ((body ++ back).takeWhile (· != ')')).length ∧ n' = (body.takeWhile (· != ')')).length)

theorem InStep.of_cons {back body : Text} {n n' : Nat} {c : Char}
    (h : InStep back n n' (c :: body)) :
    (n = 0 ∧ n' = 0) ∨ ∃ k k', n = k + 1 ∧ n' = k' + 1 ∧ InStep back k k' body := by
  rcases h with h | ⟨hn, hn'⟩
  · exact .inl h
  · rw [List.cons_append, List.takeWhile_cons] at hn
    rw [List.takeWhile_cons] at hn'
    split at hn
    · next hc =>
        rw [if_pos hc] at hn'
        exact .inr ⟨_, _, hn, hn', .inr ⟨rfl, rfl⟩⟩
    · next hc =>
        rw [if_neg hc] at hn'
        exact .inl ⟨hn, hn'⟩

/-- What the search of a text finds in its front part is found when the text is cut there, if the
cut is at a character that stops headers. -/
theorem exists_hit_of_cut {back : Text} (hback : Stop back) {body : Text} {prev : Option Char}
    {offset n n' : Nat} {h : Hit FnHeader} (hn : InStep back n n' body)
    (hm : h ∈ hitsFrom pattern prev offset n (body ++ back))
    (hstart : h.start < offset + width body) (offset' : Nat) :
    ∃ h' ∈ hitsFrom pattern prev offset' n' body, h.start + offset' = h'.start + offset ∧
      h'.value.lead = h.value.lead ∧ h'.value.name = h.value.name := by
  induction body generalizing prev offset n offset' n' with
  | nil =>
      obtain ⟨pre, suf, -, hat, -⟩ := mem_hitsFrom hm
      rw [width_nil] at hstart
      omega
  | cons c body ih =>
      rw [width_cons, ← Nat.add_assoc] at hstart
      have further : ∀ {k k'}, InStep back k k' body →
          h ∈ hitsFrom pattern (some c) (offset + c.utf8Size) k (body ++ back) →
          ∃ h' ∈ hitsFrom pattern (some c) (offset' + c.utf8Size) k' body,
            h.start + offset' = h'.start + offset ∧
            h'.value.lead = h.value.lead ∧ h'.value.name = h.value.name := by
        intro k k' hk hmem
        obtain ⟨h', hh', hat, hsame⟩ := ih hk hmem hstart (offset' + c.utf8Size)
        exact ⟨h', hh', by omega, hsame⟩
      rw [List.cons_append] at hm
      rcases hn.of_cons with ⟨rfl, rfl⟩ | ⟨k, k', rfl, rfl, hk⟩
      · have hcut := pattern_append_of_stop hback prev (c :: body)
        rw [List.cons_append] at hcut
        cases hp : pattern prev (c :: (body ++ back)) with
        | none =>
            have hp' : pattern prev (c :: body) = none := by
              rw [hp] at hcut
              exact Option.map_eq_none_iff.1 hcut.symm
            rw [hitsFrom_cons_of_none hp] at hm
            rw [hitsFrom_cons_of_none hp']
            exact further (.inl ⟨rfl, rfl⟩) hm
        | some r =>
            obtain ⟨r', hp', hsame⟩ : ∃ r', pattern prev (c :: body) = some r' ∧
                (r'.1.lead, r'.1.name) = (r.1.lead, r.1.name) := by
              rw [hp] at hcut
              exact Option.map_eq_some_iff.1 hcut.symm
            rw [hitsFrom_cons_of_some hp] at hm
            rw [hitsFrom_cons_of_some hp']
            rcases List.mem_cons.1 hm with rfl | hm
            · exact ⟨_, List.mem_cons_self, Nat.add_comm _ _, (Prod.ext_iff.1 hsame).1,
                (Prod.ext_iff.1 hsame).2⟩
            · obtain ⟨h', hh', hfound⟩ :=
                further (.inr ⟨covers_of_hit hp, covers_of_hit hp'⟩) hm
              exact ⟨h', List.mem_cons_of_mem _ hh', hfound⟩
      · exact further hk hm

/-- A search of the end of a text that starts at the edge of a word finds every header that the
search of the whole text finds there. -/
theorem mem_hitsFrom_of_behind {front rest : Text} (hfront : inWord front.getLast? = false)
    {h : Hit FnHeader} (hm : h ∈ hits pattern (front ++ rest)) (hfrom : width front ≤ h.start) :
    h ∈ hitsFrom pattern none (width front) 0 rest := by
  obtain ⟨first, n, hn, heq, hfirst⟩ :=
    exists_hitsFrom_append front rest none 0 (n := 0) (.inl rfl)
  rw [hits, heq, Nat.zero_add, Option.or_none] at hm
  have hin : h ∈ hitsFrom pattern front.getLast? (width front) n rest := by
    rcases List.mem_append.1 hm with hm | hm
    · have hlt := hfirst h hm
      omega
    · exact hm
  rw [← keyed.hitsFrom_of_not_inWord hfront]
  exact mem_hitsFrom_of_covers hn hin

/-- A search of a part of a text that starts at the edge of a word and ends at a stop finds every
header that the search of the whole text finds there. -/
theorem exists_hit_of_part {front body back : Text} (hfront : inWord front.getLast? = false)
    (hback : Stop back) {h : Hit FnHeader} (hm : h ∈ hits pattern (front ++ (body ++ back)))
    (hfrom : width front ≤ h.start) (hto : h.start < width front + width body) :
    ∃ h' ∈ hits pattern body, h.start = width front + h'.start ∧
      h'.value.lead = h.value.lead ∧ h'.value.name = h.value.name := by
  obtain ⟨h', hh', hat, hsame⟩ := exists_hit_of_cut hback (.inl ⟨rfl, rfl⟩)
    (mem_hitsFrom_of_behind hfront hm hfrom) hto 0
  exact ⟨h', hh', by omega, hsame⟩

end FnHeader
end ProcedureIndex
