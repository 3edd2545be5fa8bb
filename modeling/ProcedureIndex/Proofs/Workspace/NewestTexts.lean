import Mathlib.Data.List.Pairwise
import ProcedureIndex.Proofs.Navigation.Targets

/-!
Texts that are taken in out of order. A workspace keeps for each path the table of the
text with the largest stamp, whichever text came first; on the way there the stamp of a
table never falls, and no answer is older than the text that was handed in.
-/

namespace ProcedureIndex
namespace Workspace

def StampedApart (f g : Path × Stamp × Text) : Prop :=
  f.1.same g.1 = true → f.2.1 ≠ g.2.1

instance (f g : Path × Stamp × Text) : Decidable (StampedApart f g) :=
  inferInstanceAs (Decidable (_ → _))

instance : Std.Symm StampedApart where
  symm f g h hgf := (h (by rwa [Path.same_comm])).symm

structure Newest (files : List (Path × Stamp × Text)) (path : Path) (f : Path × Stamp × Text) :
    Prop where
  mem : f ∈ files
  same : f.1.same path = true
  largest : ∀ g ∈ files, g.1.same path = true → g.2.1.ticks ≤ f.2.1.ticks

namespace Newest

variable {files : List (Path × Stamp × Text)} {path : Path} {f g : Path × Stamp × Text}

theorem perm {order : List (Path × Stamp × Text)} (h : Newest order path f)
    (hperm : order.Perm files) : Newest files path f where
  mem := hperm.mem_iff.1 h.mem
  same := h.same
  largest g hg := h.largest g (hperm.mem_iff.2 hg)

theorem unique (hapart : files.Pairwise StampedApart) (hf : Newest files path f)
    (hg : Newest files path g) : g = f := by
  by_contra hne
  have hsame : g.1.same f.1 = true := by
    rw [Path.same_congr hf.same]
    exact hg.same
  have hle := hf.largest g hg.mem hg.same
  have hge := hg.largest f hf.mem hf.same
  apply hapart.forall hg.mem hf.mem hne hsame
  exact congrArg Stamp.mk (Nat.le_antisymm hle hge)

/-- A text of another path, or one that is not newer, leaves the newest text what it was. -/
theorem concat (h : Newest files path f)
    (hg : g.1.same path = true → g.2.1.ticks ≤ f.2.1.ticks) : Newest (files ++ [g]) path f where
  mem := List.mem_append_left _ h.mem
  same := h.same
  largest x hx hsame := by
    cases List.mem_append.1 hx with
    | inl hx => exact h.largest x hx hsame
    | inr hx =>
        rw [List.mem_singleton.1 hx] at hsame ⊢
        exact hg hsame

end Newest

/-- What a workspace has for a path: nothing if no text of the path was taken in, else the table of
a newest one. -/
theorem cached_ofFiles (files : List (Path × Stamp × Text)) (path : Path) :
    ((∀ f ∈ files, f.1.same path = false) ∧ (ofFiles files).cached path = none) ∨
      ∃ f file, Newest files path f ∧
        (ofFiles files).cached path = some (tabulate file f.1 f.2.1 f.2.2) := by
  induction files using List.reverseRecOn with
  | nil => exact .inl ⟨fun _ hf => absurd hf List.not_mem_nil, rfl⟩
  | append_singleton files g ih =>
      have hw := wellFormed_ofFiles files
      rw [ofFiles_append_singleton, cached_update hw]
      by_cases hg : g.1.same path = true
      · rw [if_pos hg]
        refine .inr ?_
        rw [← cached_congr _ hg] at ih
        rcases update_cases hw g.1 g.2.1 g.2.2 with ⟨t, ht, hle, he⟩ | ⟨holder, file, he⟩
        · rcases ih with ⟨-, hnone⟩ | ⟨f, file, hf, hcached⟩
          · cases hnone.symm.trans ht
          · cases hcached.symm.trans ht
            exact ⟨f, file, hf.concat fun _ => hle, by rw [he]⟩
        · refine ⟨g, file, ⟨by simp, hg, ?_⟩, by rw [he]⟩
          intro x hx hsame
          rcases List.mem_append.1 hx with hx | hx
          · rcases ih with ⟨hnone, -⟩ | ⟨f, file', hf, hcached⟩
            · rw [hnone x hx] at hsame
              cases hsame
            · exact Nat.le_trans (hf.largest x hx hsame) (Nat.le_of_lt (holder _ hcached))
          · rw [List.mem_singleton.1 hx]
      · rw [if_neg hg]
        rcases ih with ⟨hnone, hcached⟩ | ⟨f, file, hf, hcached⟩
        · refine .inl ⟨?_, hcached⟩
          intro x hx
          rcases List.mem_append.1 hx with hx | hx
          · exact hnone x hx
          · rw [List.mem_singleton.1 hx]
            exact Bool.eq_false_iff.2 hg
        · exact .inr ⟨f, file, hf.concat fun hsame => absurd hsame hg, hcached⟩

end Workspace
end ProcedureIndex
