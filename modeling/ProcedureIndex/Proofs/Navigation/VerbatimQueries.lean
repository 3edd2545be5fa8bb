import ProcedureIndex.Completion.Rank
import ProcedureIndex.Proofs.Document.ClassBodies
import ProcedureIndex.Proofs.Navigation.OutlineOrder
import ProcedureIndex.Proofs.Text.SmallLetters

/-!
Names and labels asked for in their own letters. Both sides of a comparison are lowered, each by
itself, and the large sigma is lowered by what stands around it; so a part of a name can have
another small form than the same text as a query. Where it does, the name is found only if
the query stands somewhere else in it.
-/

namespace ProcedureIndex

open Text

namespace Text

theorem includes_iff {cs k : Text} : includes cs k = true ↔ ∃ a b, cs = a ++ (k ++ b) := by
  constructor
  · intro h
    induction cs with
    | nil =>
        obtain ⟨rest, hrest⟩ : ∃ rest, after? k [] = some rest := by
          simpa [includes, cut?, Option.isSome_iff_exists] using h
        have hcs : [] = k ++ rest := after?_eq_some_iff.1 hrest
        exact ⟨[], rest, hcs⟩
    | cons c cs ih =>
        cases hk : after? k (c :: cs) with
        | some rest =>
            have hcs : c :: cs = k ++ rest := after?_eq_some_iff.1 hk
            exact ⟨[], rest, hcs⟩
        | none =>
            have hlater : includes cs k = true := by
              rw [includes] at h ⊢
              simpa [cut?, hk] using h
            obtain ⟨a, b, hcs⟩ := ih hlater
            exact ⟨c :: a, b, by rw [hcs]; rfl⟩
  · rintro ⟨a, b, rfl⟩
    exact includes_append a k b

/-- A text that stands in another one has its small form where it stands, or only elsewhere. -/
theorem includes_lower_iff {a q b : Text} :
    includes (lower (a ++ (q ++ b))) (lower q) = true ↔ ¬ SigmaDiffers a q b ∨
      ∃ u v, u.length ≠ (lower a).length ∧ lower (a ++ (q ++ b)) = u ++ (lower q ++ v) := by
  have hlength : (lowerBetween [] a (q ++ b)).length = (lower a).length := by
    rw [lower_eq]
    exact length_lowerBetween ..
  rw [includes_iff]
  constructor
  · rintro ⟨u, v, h⟩
    by_cases hu : u.length = (lower a).length
    · left
      rw [sigmaDiffers_iff, not_not]
      rw [lower_append] at h
      have hrest := (List.append_inj h (hlength.trans hu.symm)).2
      refine (List.append_inj hrest ?_).1
      rw [lower_eq]
      exact length_lowerBetween ..
    · exact .inr ⟨u, v, hu, h⟩
  · rintro (h | ⟨u, v, -, h⟩)
    · rw [sigmaDiffers_iff, not_not] at h
      rw [lower_append, h]
      exact ⟨_, _, rfl⟩
    · exact ⟨u, v, h⟩

end Text

theorem mem_searchSymbols_iff {w : Snapshot} {s : Symbol} {query : String} (hs : s ∈ w.symbols) :
    OutlineItem.ofSymbol s ∈ searchSymbols w query ↔
      includes (lowered s.name) (lowered query) = true := by
  rw [searchSymbols, List.mem_map]
  constructor
  · rintro ⟨s', hs', hitem⟩
    have hname : s'.name = s.name := congrArg OutlineItem.name hitem
    rw [← hname]
    exact (List.mem_filter.1 hs').2
  · exact fun h => ⟨s, List.mem_filter.2 ⟨hs, h⟩, rfl⟩

namespace Rank

theorem matchBonus_eq_iff {label typed : Text} :
    matchBonus label typed = 100 ↔ ∃ rest, label = typed ++ rest := by
  rw [matchBonus]
  cases h : after? typed label with
  | some rest => exact iff_of_true rfl ⟨rest, after?_eq_some_iff.1 h⟩
  | none =>
      refine iff_of_false ?_ ?_
      · simp only [Option.isSome_none, Bool.false_eq_true, if_false]
        split <;> decide
      · rintro ⟨rest, hlabel⟩
        rw [after?_eq_some_iff.2 hlabel] at h
        cases h

/-- A label that begins with the word being typed gets the bonus for that exactly when no sigma of
the word has another form in the label. -/
theorem score_eq_iff {basis : RankBasis} {offer : Offer} {b : Text}
    (h : offer.label.toList = basis.typed ++ b) :
    score basis offer = offer.boost + 100 + usageBonus basis offer.label +
        mentionBonus basis offer.detail ↔ ¬ SigmaDiffers [] basis.typed b := by
  have hscore : score basis offer = offer.boost + 100 + usageBonus basis offer.label +
      mentionBonus basis offer.detail ↔
        matchBonus (lowered offer.label) (lower basis.typed) = 100 := by
    rw [score]
    omega
  have hlabel : lowered offer.label = lowerBetween [] basis.typed b ++
      lowerBetween (basis.typed.reverse ++ []) b [] := by
    rw [lowered, h]
    exact lower_append [] basis.typed b
  rw [hscore, matchBonus_eq_iff, sigmaDiffers_iff, not_not, hlabel]
  constructor
  · rintro ⟨rest, hrest⟩
    refine (List.append_inj hrest ?_).1
    rw [lower_eq]
    exact length_lowerBetween ..
  · intro hsame
    exact ⟨_, congrArg (· ++ _) hsame⟩

end Rank

/-- A query that is not settled misses a name that it stands in. -/
theorem exists_missed {q : Text} (h : Unsettled q) (hq : ∀ c ∈ q, isNameContinue c = true) :
    ∃ name a b, IsName name ∧ name = a ++ (q ++ b) ∧ includes (lower name) (lower q) = false := by
  have hmissed : ∀ {name : Text} {d : Char}, (lower name).count d < (lower q).count d →
      includes (lower name) (lower q) = false := by
    intro name d hcount
    rw [Bool.eq_false_iff]
    intro hin
    obtain ⟨u, v, huv⟩ := includes_iff.1 hin
    rw [huv, List.count_append, List.count_append] at hcount
    omega
  have hstarts : isNameStart '_' = true ∧ isNameStart 'A' = true := by decide
  cases h with
  | last split front ignorable =>
      refine ⟨['_'] ++ (q ++ ['A']), ['_'], ['A'], ⟨?_, ?_⟩, rfl,
        hmissed (count_final_lower_lt split front ignorable)⟩
      · exact hstarts.1
      · simp only [List.forall_mem_append, List.forall_mem_singleton]
        exact ⟨by decide, hq, by decide⟩
  | first split ignorable behind =>
      refine ⟨['A'] ++ (q ++ []), ['A'], [], ⟨?_, ?_⟩, rfl,
        hmissed (count_inner_lower_lt split ignorable behind)⟩
      · exact hstarts.2
      · simp only [List.forall_mem_append, List.forall_mem_singleton]
        exact ⟨by decide, hq, fun c hc => absurd hc List.not_mem_nil⟩

/-- Any name can be declared. -/
theorem exists_taken_of_isName {name : Text} (h : IsName name) :
    ∃ w : Snapshot, w.Taken ∧ ∃ s ∈ w.symbols, s.name = String.ofList name := by
  let cs := PipelineHeader.keyword ++ ' ' :: (name ++ [])
  have hpattern : PipelineHeader.pattern none cs =
      some (⟨PipelineHeader.keyword ++ [' '], name⟩, []) := PipelineHeader.pattern_append h rfl
  have hhit : (⟨0, ⟨PipelineHeader.keyword ++ [' '], name⟩, []⟩ : Hit PipelineHeader) ∈
      hits PipelineHeader.pattern cs := by
    have hcs : cs = 'p' :: ("ipeline".toList ++ ' ' :: (name ++ [])) := rfl
    rw [hcs] at hpattern ⊢
    rw [hits, hitsFrom, hpattern]
    exact List.mem_cons_self
  let site : Site := ⟨0, 0 + width (PipelineHeader.keyword ++ [' ']), name, .pipeline⟩
  have hsite : site ∈ Site.all cs := by
    have hpipeline := List.mem_map_of_mem
      (f := fun h => (⟨h.start, h.start + width h.value.lead, h.value.name, .pipeline⟩ : Site)) hhit
    simp only [Site.all, List.mem_append]
    exact .inl (.inl (.inl (.inl (.inr hpipeline))))
  let w := Workspace.after [.update ⟨"/a.method"⟩ ⟨1⟩ cs]
  have htables : w.snapshot.tables = [Workspace.tabulate ⟨0⟩ ⟨"/a.method"⟩ ⟨1⟩ cs] := rfl
  refine ⟨w.snapshot, .ofWorkspace _, site.symbol ⟨0⟩ cs, ?_, rfl⟩
  rw [Snapshot.symbols, htables, List.flatMap_singleton]
  exact Site.symbol_mem_parse hsite ⟨0⟩

/-- A name that holds a query letter for letter is found unless a sigma has one form in the query
and another in the name, and then only if the query in small letters stands elsewhere in the name.
The query is never missed if its sigmas are settled by the query, and as a word being typed it gets
the bonus for a beginning under the same condition. -/
theorem verbatim_found_iff (q : Text) :
    (∀ (w : Snapshot) (s : Symbol) (a b : Text), s ∈ w.symbols → s.name.toList = a ++ (q ++ b) →
      (OutlineItem.ofSymbol s ∈ searchSymbols w (String.ofList q) ↔ ¬ SigmaDiffers a q b ∨
        ∃ u v, u.length ≠ (lower a).length ∧ lowered s.name = u ++ (lower q ++ v))) ∧
    ((∀ c ∈ q, isNameContinue c = true) →
      ((∀ w : Snapshot, w.Taken → ∀ s ∈ w.symbols, ∀ a b, s.name.toList = a ++ (q ++ b) →
        OutlineItem.ofSymbol s ∈ searchSymbols w (String.ofList q)) ↔ ¬ Unsettled q)) ∧
    ∀ (basis : RankBasis) (offer : Offer) (b : Text), basis.typed = q →
      offer.label.toList = q ++ b →
      (Rank.score basis offer = offer.boost + 100 + Rank.usageBonus basis offer.label +
        Rank.mentionBonus basis offer.detail ↔ ¬ SigmaDiffers [] q b) := by
  have hplace : ∀ (w : Snapshot) (s : Symbol) (a b : Text), s ∈ w.symbols →
      s.name.toList = a ++ (q ++ b) →
        (OutlineItem.ofSymbol s ∈ searchSymbols w (String.ofList q) ↔ ¬ SigmaDiffers a q b ∨
          ∃ u v, u.length ≠ (lower a).length ∧ lowered s.name = u ++ (lower q ++ v)) := by
    intro w s a b hs hname
    rw [mem_searchSymbols_iff hs, lowered, lowered, hname, String.toList_ofList,
      includes_lower_iff]
  refine ⟨hplace, ?_, ?_⟩
  · intro hq
    constructor
    · intro hfound hunsettled
      obtain ⟨name, a, b, hname, hsplit, hmissed⟩ := exists_missed hunsettled hq
      obtain ⟨w, hw, s, hs, hsname⟩ := exists_taken_of_isName hname
      have htext : s.name.toList = name := by rw [hsname, String.toList_ofList]
      have hin := hfound w hw s hs a b (htext.trans hsplit)
      rw [mem_searchSymbols_iff hs, lowered, lowered, htext, String.toList_ofList, hmissed] at hin
      cases hin
    · intro hsettled w hw s hs a b hname
      exact (hplace w s a b hs hname).2 (.inl fun hdiffers => hsettled hdiffers.unsettled)
  · rintro basis offer b rfl hlabel
    exact Rank.score_eq_iff hlabel

def sigmaInside : List Workspace.Action :=
  [.update ⟨"/a.method"⟩ ⟨1⟩ "fn ΑΣΑ() \x7b\x7d".toList]

theorem verbatim_found_iff_sigmaInside :
    let w := (Workspace.after sigmaInside).snapshot
    let s : Symbol := ⟨"ΑΣΑ", .function none, ⟨0⟩, 3, ⟨0, 3⟩, [], none⟩
    let basis : RankBasis := ⟨"ΑΣ".toList, {}, none, 0⟩
    let offer : Offer :=
      { label := "ΑΣΑ", kind := .symbol .function, insert := "ΑΣΑ", origin := .workspace }
    s ∈ w.symbols ∧ OutlineItem.ofSymbol s ∈ searchSymbols w "ΣΑ" ∧
      OutlineItem.ofSymbol s ∈ searchSymbols w "Α" ∧ Rank.score basis offer ≠ 100 := by
  intro w s basis offer
  have hs : s ∈ w.symbols := by decide +kernel
  have hsettled : ¬ Unsettled "Α".toList := by
    intro h
    have hsigma : 'Σ' ∈ "Α".toList := by
      cases h with
      | last split | first split => exact split ▸ List.mem_append_right _ List.mem_cons_self
    exact absurd hsigma (by decide)
  have hsame : ¬ SigmaDiffers ['Α'] "ΣΑ".toList [] := by
    rw [sigmaDiffers_iff, not_not]
    decide +kernel
  have hother : SigmaDiffers [] "ΑΣ".toList "Α".toList := by
    rw [sigmaDiffers_iff]
    decide +kernel
  have hname : "Α".toList.all isNameContinue = true := by decide +kernel
  have hplace := (verbatim_found_iff "ΣΑ".toList).1 w s ['Α'] [] hs (by decide +kernel)
  have hquery := (verbatim_found_iff "Α".toList).2.1 (List.all_eq_true.1 hname)
  have hbonus := (verbatim_found_iff "ΑΣ".toList).2.2 basis offer "Α".toList rfl
    (by decide +kernel)
  refine ⟨hs, hplace.2 (.inl hsame), ?_, fun h => hbonus.1 ?_ hother⟩
  · exact hquery.2 hsettled w (.ofWorkspace _) s hs [] "ΣΑ".toList (by decide +kernel)
  · exact h

/-- The large letters in front of the last one end with a final sigma, which the name does not
have. -/
theorem verbatim_missed_sigmaInside :
    (searchSymbols (Workspace.after sigmaInside).snapshot "").map (·.name) = ["ΑΣΑ"] ∧
      "ΑΣΑ".toList = "ΑΣ".toList ++ "Α".toList ∧
      searchSymbols (Workspace.after sigmaInside).snapshot "ΑΣ" = [] ∧
      Rank.matchBonus (lowered "ΑΣΑ") (lowered "ΑΣ") = 0 := by
  decide +kernel

end ProcedureIndex
