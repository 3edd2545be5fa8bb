import Mathlib.Data.List.Basic
import Mathlib.Data.List.Induction
import Mathlib.Data.List.Nodup
import ProcedureIndex.Completion.ListCache

/-!
A cache of completion lists as a map with a clock. As long as time does not run
backwards, a list is found from its storing on until its lifetime is over, or another
list is stored for its key, or its file or the whole cache is dropped. When a list that is
too old leaves the cache makes no difference to any answer.
-/

namespace ProcedureIndex
namespace ListCache

inductive Request where
  | insert (key : ListKey) (offers : List Offer) (moment : Moment)
  | get (key : ListKey) (moment : Moment)
  | invalidate (file : FileId)
  | clear

namespace Request

def moment? : Request → Option Moment
  | .insert _ _ moment | .get _ moment => some moment
  | .invalidate _ | .clear => none

/-- Does the request replace or drop what was stored for a key? -/
def Ends (key : ListKey) : Request → Prop
  | .insert other _ _ => other = key
  | .get _ _ => False
  | .invalidate file => file = key.file
  | .clear => True

end Request

def step (c : ListCache) : Request → ListCache
  | .insert key offers moment => c.insert key offers moment
  | .get key moment => (c.get key moment).2
  | .invalidate file => c.invalidate file
  | .clear => c.clear

def after (lifetime : Nat) (rs : List Request) : ListCache :=
  rs.foldl step { lifetime := lifetime }

def InOrder (rs : List Request) : Prop :=
  (rs.filterMap Request.moment?).Pairwise (· ≤ ·)

/-- The list that was stored last for a key, at a moment, and was not dropped since. -/
def Latest (rs : List Request) (key : ListKey) (stored : Moment) (offers : List Offer) : Prop :=
  ∃ earlier later, rs = earlier ++ .insert key offers stored :: later ∧
    ∀ r ∈ later, ¬ r.Ends key

theorem latest_concat {rs : List Request} {r : Request} {key : ListKey} {stored : Moment}
    {offers : List Offer} :
    Latest (rs ++ [r]) key stored offers ↔
      r = .insert key offers stored ∨ Latest rs key stored offers ∧ ¬ r.Ends key := by
  constructor
  · rintro ⟨earlier, later, heq, hlater⟩
    rcases List.eq_nil_or_concat' later with rfl | ⟨init, last, rfl⟩
    · exact .inl (List.cons.inj (List.append_inj' heq rfl).2).1
    · rw [← List.cons_append, ← List.append_assoc] at heq
      obtain ⟨rfl, hlast⟩ := List.append_inj' heq rfl
      cases hlast
      exact .inr ⟨⟨earlier, init, rfl, fun r hr => hlater r (List.mem_append_left _ hr)⟩,
        hlater r (by simp)⟩
  · rintro (rfl | ⟨⟨earlier, later, rfl, hlater⟩, hr⟩)
    · exact ⟨rs, [], rfl, List.forall_mem_nil _⟩
    · refine ⟨earlier, later ++ [r], by simp, ?_⟩
      intro x hx
      rcases List.mem_append.1 hx with hx | hx
      · exact hlater x hx
      · rwa [List.mem_singleton.1 hx]

theorem after_concat (lifetime : Nat) (rs : List Request) (r : Request) :
    after lifetime (rs ++ [r]) = (after lifetime rs).step r := by
  rw [after, List.foldl_append]
  rfl

@[simp] theorem lifetime_step (c : ListCache) (r : Request) : (c.step r).lifetime = c.lifetime := by
  cases r with
  | insert key offers moment | invalidate file | clear => rfl
  | get key moment =>
      rw [step, get]
      split
      · split <;> rfl
      · rfl

@[simp] theorem lifetime_after (lifetime : Nat) (rs : List Request) :
    (after lifetime rs).lifetime = lifetime := by
  induction rs using List.reverseRecOn with
  | nil => rfl
  | append_singleton rs r ih => rw [after_concat, lifetime_step, ih]

theorem isFresh_of_le {c : ListCache} {stored now later : Moment} (hle : now ≤ later)
    (h : c.isFresh stored later = true) : c.isFresh stored now = true := by
  rw [isFresh, decide_eq_true_eq] at h ⊢
  exact Nat.lt_of_le_of_lt (Int.toNat_le_toNat (Int.sub_le_sub_right hle stored)) h

/-- What a cache holds once the requests are done: one list for a key at most, and of the lists
that are still good exactly those stored last. -/
structure Shows (c : ListCache) (rs : List Request) (now : Moment) : Prop where
  distinct : (c.entries.map Prod.fst).Nodup
  mem_iff : ∀ {key stored offers}, c.isFresh stored now = true →
    ((key, stored, offers) ∈ c.entries ↔ Latest rs key stored offers)

namespace Shows

variable {c : ListCache} {rs : List Request} {now : Moment}

theorem mono (h : Shows c rs now) {later : Moment} (hle : now ≤ later) : Shows c rs later where
  distinct := h.distinct
  mem_iff hfresh := h.mem_iff (isFresh_of_le hle hfresh)

theorem insert (h : Shows c rs now) (key : ListKey) (offers : List Offer) :
    Shows (c.insert key offers now) (rs ++ [.insert key offers now]) now where
  distinct := by
    rw [ListCache.insert, List.map_cons, List.nodup_cons]
    refine ⟨?_, h.distinct.sublist (List.filter_sublist.map _)⟩
    intro hmem
    obtain ⟨e, he, hkey⟩ := List.mem_map.1 hmem
    simp [hkey] at he
  mem_iff {k stored os} hfresh := by
    have hfresh : c.isFresh stored now = true := hfresh
    rw [latest_concat, ListCache.insert, List.mem_cons, List.mem_filter, h.mem_iff hfresh, hfresh]
    simp only [Request.Ends, Request.insert.injEq, Prod.mk.injEq, Bool.true_and, decide_not,
      Bool.not_eq_true', decide_eq_false_iff_not]
    grind

theorem get (h : Shows c rs now) (key : ListKey) :
    Shows (c.get key now).2 (rs ++ [.get key now]) now := by
  have hsame : ∀ {k stored offers}, Latest (rs ++ [.get key now]) k stored offers ↔
      Latest rs k stored offers := by
    intro k stored offers
    simp [latest_concat, Request.Ends]
  rw [ListCache.get]
  split
  · next stored offers hlookup =>
      split
      · exact ⟨h.distinct, fun hfresh => (h.mem_iff hfresh).trans hsame.symm⟩
      · next hold =>
          -- The dropped list is the only one for its key, and too old to count.
          refine ⟨h.distinct.sublist (List.filter_sublist.map _), ?_⟩
          intro k s os hfresh
          have hfresh : c.isFresh s now = true := hfresh
          rw [hsame, ← h.mem_iff hfresh, remove, List.mem_filter, and_iff_left_of_imp]
          intro hmem
          rw [decide_eq_true_eq]
          intro hk
          have hk : k = key := hk
          obtain ⟨front, back, hsplit, -⟩ := List.lookup_eq_some_iff.1 hlookup
          have hpair : (key, stored, offers) ∈ c.entries := by
            rw [hsplit]
            simp
          have hone := List.inj_on_of_nodup_map h.distinct hmem hpair hk
          cases hone
          exact hold hfresh
  · exact ⟨h.distinct, fun hfresh => (h.mem_iff hfresh).trans hsame.symm⟩

theorem invalidate (h : Shows c rs now) (file : FileId) :
    Shows (c.invalidate file) (rs ++ [.invalidate file]) now where
  distinct := h.distinct.sublist (List.filter_sublist.map _)
  mem_iff {key stored offers} hfresh := by
    have hfresh : c.isFresh stored now = true := hfresh
    rw [latest_concat, ListCache.invalidate, List.mem_filter, h.mem_iff hfresh]
    simp only [Request.Ends, reduceCtorEq, false_or, decide_eq_true_eq, ne_comm, ne_eq]

theorem clear (c : ListCache) (rs : List Request) (now : Moment) :
    Shows c.clear (rs ++ [.clear]) now where
  distinct := List.nodup_nil
  mem_iff _ := by simp [latest_concat, Request.Ends, ListCache.clear]

theorem step (h : Shows c rs now) {r : Request} (hr : r.moment? = none ∨ r.moment? = some now) :
    Shows (c.step r) (rs ++ [r]) now := by
  cases r with
  | insert key offers moment =>
      cases Option.some.inj (hr.resolve_left (by simp [Request.moment?]))
      exact h.insert key offers
  | get key moment =>
      cases Option.some.inj (hr.resolve_left (by simp [Request.moment?]))
      exact h.get key
  | invalidate file => exact h.invalidate file
  | clear => exact clear c rs now

/-- Only lists that are good can be found, and of one key there is only one. -/
theorem get_eq_some_iff (h : Shows c rs now) {key : ListKey} {offers : List Offer} :
    (c.get key now).1 = some offers ↔
      ∃ stored, Latest rs key stored offers ∧ c.isFresh stored now = true := by
  have hlookup : ∀ entry, c.entries.lookup key = some entry ↔ (key, entry) ∈ c.entries := by
    intro entry
    rw [List.lookup_eq_some_iff]
    constructor
    · rintro ⟨front, back, hsplit, -⟩
      rw [hsplit]
      simp
    · intro hmem
      obtain ⟨front, back, hsplit⟩ := List.append_of_mem hmem
      refine ⟨front, back, hsplit, ?_⟩
      intro e he
      have hdistinct := h.distinct
      rw [hsplit, List.map_append, List.nodup_append] at hdistinct
      simpa using (hdistinct.2.2 e.1 (List.mem_map_of_mem he) key (by simp)).symm
  rw [ListCache.get]
  constructor
  · intro hget
    split at hget
    · next stored os hfound =>
        split at hget
        · next hfresh =>
            cases hget
            exact ⟨stored, (h.mem_iff hfresh).1 ((hlookup _).1 hfound), hfresh⟩
        · cases hget
    · cases hget
  · rintro ⟨stored, hlatest, hfresh⟩
    rw [(hlookup _).2 ((h.mem_iff hfresh).2 hlatest)]
    exact congrArg Prod.fst (if_pos hfresh)

end Shows

theorem shows_after (lifetime : Nat) {rs : List Request} {now : Moment} (horder : InOrder rs)
    (hnow : ∀ moment ∈ rs.filterMap Request.moment?, moment ≤ now) :
    Shows (after lifetime rs) rs now := by
  induction rs using List.reverseRecOn generalizing now with
  | nil => exact ⟨List.nodup_nil, fun _ => by simp [after, Latest]⟩
  | append_singleton rs r ih =>
      rw [InOrder, List.filterMap_append, List.pairwise_append] at horder
      rw [List.filterMap_append] at hnow
      rw [after_concat]
      cases hr : r.moment? with
      | none =>
          have hbefore := ih horder.1 fun m hm => hnow m (List.mem_append_left _ hm)
          exact hbefore.step (.inl hr)
      | some moment =>
          have hlast : moment ∈ [r].filterMap Request.moment? := by simp [hr]
          have hbefore := ih horder.1 fun m hm => horder.2.2 m hm moment hlast
          exact (hbefore.step (.inr hr)).mono (hnow moment (List.mem_append_right _ hlast))

/-- A list is found if, and only if, it was stored last for its key and not dropped since, less
than a lifetime ago. -/
theorem get_eq_some_iff_latest (lifetime : Nat) {rs : List Request} {key : ListKey} {now : Moment}
    (horder : InOrder (rs ++ [.get key now])) (offers : List Offer) :
    ((after lifetime rs).get key now).1 = some offers ↔
      ∃ stored, Latest rs key stored offers ∧ now - stored < lifetime := by
  rw [InOrder, List.filterMap_append, List.pairwise_append] at horder
  have hnow : ∀ moment ∈ rs.filterMap Request.moment?, moment ≤ now :=
    fun moment hm => horder.2.2 moment hm now (by simp [Request.moment?])
  have hshows := shows_after lifetime horder.1 hnow
  rw [hshows.get_eq_some_iff]
  refine exists_congr fun stored => and_congr_right fun hlatest => ?_
  have hstored : stored ≤ now := by
    obtain ⟨earlier, later, rfl, -⟩ := hlatest
    exact hnow stored (by simp [Request.moment?])
  rw [isFresh, lifetime_after, decide_eq_true_eq, Int.toNat_lt (Int.sub_nonneg_of_le hstored)]

theorem get_eq_some_iff_latest_stored_again :
    let key : ListKey := ⟨⟨0⟩, ⟨3, 2⟩, "SQ".toList, []⟩
    let other : ListKey := ⟨⟨1⟩, ⟨3, 2⟩, "SQ".toList, []⟩
    let offers : List Offer := [⟨"SQ3R", .keyword, "SQ3R", none, none, .catalog, 0, 0, ""⟩]
    let rs : List Request := [.insert key [] 0, .get key 10, .insert key offers 20,
      .insert other [] 40, .get other 45, .invalidate ⟨1⟩]
    InOrder (rs ++ [.get key 49]) ∧ ((after 30 rs).get key 49).1 = some offers ∧
      ((after 30 rs).get key 50).1 = none := by
  intro key other offers rs
  have horder : InOrder (rs ++ [.get key 49]) := by
    change [0, 10, 20, 40, 45, 49].Pairwise (fun a b : Int => a ≤ b)
    decide
  refine ⟨horder, (get_eq_some_iff_latest 30 horder offers).2 ⟨20, ?_, by decide⟩, ?_⟩
  · exact ⟨[.insert key [] 0, .get key 10], [.insert other [] 40, .get other 45, .invalidate ⟨1⟩],
      rfl, by simp [Request.Ends, key, other]⟩
  · decide +kernel

end ListCache
end ProcedureIndex
