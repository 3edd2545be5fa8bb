import ProcedureIndex.Proofs.Workspace.Tables

/-!
What questions to a source can do to a workspace: give a path a number, or take in
a text under the stamp that the source has for it. Everything that holds of these
two steps holds of a whole scan, cancelled or not.
-/

namespace ProcedureIndex

inductive Workspace.Follows (src : Source) (w : Workspace) : Workspace → Prop where
  | refl : Follows src w w
  | number {w' : Workspace} (path : Path) : Follows src w w' → Follows src w (w'.number path).2
  | update {w' : Workspace} {path : Path} {stamp : Stamp} {text : Text} :
      Follows src w w' → src.stamp path = .ok stamp → src.read path = .ok text →
      Follows src w (w'.update path stamp text).2

namespace Workspace

theorem Follows.trans {src : Source} {w w' w'' : Workspace} (h : Follows src w w')
    (h' : Follows src w' w'') : Follows src w w'' := by
  induction h' with
  | refl => exact h
  | number path _ ih => exact .number path ih
  | update _ hs hr ih => exact .update ih hs hr

theorem Follows.preserves {P : Workspace → Prop} {src : Source} {w w' : Workspace}
    (h : Follows src w w') (hw : P w) (hnumber : ∀ {v : Workspace} path, P v → P (v.number path).2)
    (hupdate : ∀ {v : Workspace} path stamp text, P v → P (v.update path stamp text).2) : P w' := by
  induction h with
  | refl => exact hw
  | number path _ ih => exact hnumber path ih
  | update _ _ _ ih => exact hupdate _ _ _ ih

theorem Follows.wellFormed {src : Source} {w w' : Workspace} (h : Follows src w w')
    (hw : w.WellFormed) : w'.WellFormed :=
  h.preserves hw (fun path hv => hv.number path) fun path stamp text hv => hv.update path stamp text

end Workspace

namespace Scan

open Workspace

/-- How a question for a file can go: the file has no stamp, or its table is as new as its stamp,
or else the file is read, if it can be. -/
inductive Asked (src : Source) (path : Path) (s : Scan)
    (r : Except AccessError FileTable × Scan) : Prop where
  | unstamped {e : AccessError} (stamped : src.stamp path = .error e)
      (answer : r = (.error e, ⟨(s.workspace.number path).2, src.watchStamp path s.watch⟩))
  | fresh {stamp : Stamp} {t : FileTable} (stamped : src.stamp path = .ok stamp)
      (known : (s.workspace.number path).2.fresh? (s.workspace.number path).1 stamp = some t)
      (answer : r = (.ok t, ⟨(s.workspace.number path).2, src.watchStamp path s.watch⟩))
  | unreadable {stamp : Stamp} {e : AccessError} (stamped : src.stamp path = .ok stamp)
      (stale : (s.workspace.number path).2.fresh? (s.workspace.number path).1 stamp = none)
      (unread : src.read path = .error e)
      (answer : r = (.error e,
        ⟨(s.workspace.number path).2, src.watchRead path (src.watchStamp path s.watch)⟩))
  | read {stamp : Stamp} {text : Text} (stamped : src.stamp path = .ok stamp)
      (stale : (s.workspace.number path).2.fresh? (s.workspace.number path).1 stamp = none)
      (held : src.read path = .ok text)
      (answer : r = (.ok (s.workspace.update path stamp text).1,
        ⟨(s.workspace.update path stamp text).2,
          src.watchRead path (src.watchStamp path s.watch)⟩))

theorem asked_table (src : Source) (path : Path) (s : Scan) :
    Asked src path s (table src path s) := by
  cases hs : src.stamp path with
  | error e => exact .unstamped hs (by simp only [table, hs])
  | ok stamp =>
      cases hf : (s.workspace.number path).2.fresh? (s.workspace.number path).1 stamp with
      | some t => exact .fresh hs hf (by simp only [table, hs, hf])
      | none =>
          cases hr : src.read path with
          | error e => exact .unreadable hs hf hr (by simp only [table, hs, hf, hr])
          | ok text => exact .read hs hf hr (by simp only [table, hs, hf, hr, Workspace.update])

theorem table_follows (src : Source) (path : Path) (s : Scan) :
    Follows src s.workspace (table src path s).2.workspace := by
  have hnumber : Follows src s.workspace (s.workspace.number path).2 := .number path .refl
  cases asked_table src path s with
  | unstamped _ he | fresh _ _ he | unreadable _ _ _ he => rw [he]; exact hnumber
  | read hs _ hr he => rw [he]; exact .update .refl hs hr

theorem tablesOf_of_cancelled {src : Source} {s : Scan} (hc : s.watch.cancelled = true)
    (paths : List Path) : tablesOf src paths s = ([], s) := by
  cases paths with
  | nil => rfl
  | cons path rest => rw [tablesOf, if_pos hc]

theorem tablesOf_cons {src : Source} {p : Path} {rest : List Path} {s : Scan}
    (hc : s.watch.cancelled = false) :
    tablesOf src (p :: rest) s =
      ((table src p s).1.toOption.toList ++ (tablesOf src rest (table src p s).2).1,
        (tablesOf src rest (table src p s).2).2) := by
  rw [tablesOf, if_neg (by simp [hc])]
  cases h : table src p s with
  | mk result s' => cases result <;> rfl

theorem tablesOf_follows (src : Source) (paths : List Path) (s : Scan) :
    Follows src s.workspace (tablesOf src paths s).2.workspace := by
  induction paths generalizing s with
  | nil => exact .refl
  | cons path rest ih =>
      cases hc : s.watch.cancelled with
      | true => rw [tablesOf_of_cancelled hc]; exact .refl
      | false =>
          rw [tablesOf_cons hc]
          exact (table_follows src path s).trans (ih (table src path s).2)

theorem tables_follows (src : Source) (s : Scan) :
    Follows src s.workspace (tables src s).2.workspace := by
  rw [tables]
  split
  · exact tablesOf_follows src _ s
  · exact .refl

theorem refresh_follows (src : Source) (s : Scan) :
    Follows src s.workspace (refresh src s).2.workspace :=
  tables_follows src s

end Scan

/-- The source has this stamp and this text for a path, however it is spelled. -/
def Source.Serves (src : Source) (path : Path) (stamp : Stamp) (text : Text) : Prop :=
  ∀ q : Path, q.same path = true → src.stamp q = .ok stamp ∧ src.read q = .ok text

namespace Workspace

variable {src : Source} {path : Path} {stamp : Stamp} {text : Text}

/-- A table is replaced only if the stamp that is served is newer, and then by the table of the text
that is served. -/
theorem cached_update_of_serves {w : Workspace} (hw : w.WellFormed)
    (hserves : src.Serves path stamp text) {q : Path} {s : Stamp} {t : Text}
    (hs : src.stamp q = .ok s) (ht : src.read q = .ok t) :
    (w.update q s t).2.cached path = w.cached path ∨
      (∃ x, (w.update q s t).2.cached path = some x ∧ x.declared = parse x.file text) ∧
        ∀ old, w.cached path = some old → old.stamp.ticks < stamp.ticks := by
  rw [cached_update hw]
  split
  · next hq =>
      obtain ⟨hs', ht'⟩ := hserves q hq
      cases hs.symm.trans hs'
      cases ht.symm.trans ht'
      rw [← cached_congr w hq]
      rcases update_cases hw q stamp text with ⟨x, hx, -, he⟩ | ⟨hold, file, he⟩
      · exact .inl (by rw [he, hx])
      · exact .inr ⟨⟨_, rfl, by rw [he]; rfl⟩, hold⟩
  · exact .inl rfl

theorem Follows.cached_of_serves {w w' : Workspace} (h : Follows src w w') (hw : w.WellFormed)
    (hserves : src.Serves path stamp text) :
    w'.cached path = w.cached path ∨
      (∃ x, w'.cached path = some x ∧ x.declared = parse x.file text) ∧
        ∀ old, w.cached path = some old → old.stamp.ticks < stamp.ticks := by
  induction h with
  | refl => exact .inl rfl
  | number p hprev ih => rwa [cached_number (hprev.wellFormed hw)]
  | update hprev hs ht ih =>
      rcases cached_update_of_serves (hprev.wellFormed hw) hserves hs ht with heq | ⟨hnew, hold⟩
      · rwa [heq]
      · refine .inr ⟨hnew, ?_⟩
        rcases ih with heq | ⟨-, hold'⟩
        · rwa [heq] at hold
        · exact hold'

theorem Follows.isSome_cached {w w' : Workspace} (h : Follows src w w') (hw : w.WellFormed)
    (hserves : src.Serves path stamp text) (hsome : (w.cached path).isSome) :
    (w'.cached path).isSome := by
  rcases h.cached_of_serves hw hserves with heq | ⟨⟨x, hx, -⟩, -⟩
  · rwa [heq]
  · rw [hx]
    rfl

end Workspace

namespace Scan

variable {src : Source} {path : Path} {stamp : Stamp} {text : Text}

theorem isSome_cached_table {s : Scan} (hw : s.workspace.WellFormed)
    (hserves : src.Serves path stamp text) {q : Path} (hq : q.same path = true) :
    ((table src q s).2.workspace.cached path).isSome := by
  obtain ⟨hs, hr⟩ := hserves q hq
  have hupdate : (table src q s).2.workspace = (s.workspace.update q stamp text).2 := by
    simp only [table, hs, hr, Workspace.update]
    split <;> rfl
  rw [hupdate, Workspace.cached_update hw, if_pos hq]
  rfl

/-- A scan that was not cancelled has come to every path. -/
theorem isSome_cached_tablesOf {paths : List Path} {s : Scan} (hw : s.workspace.WellFormed)
    (hserves : src.Serves path stamp text) (hmem : ∃ q ∈ paths, q.same path = true)
    (hrun : (tablesOf src paths s).2.watch.cancelled = false) :
    ((tablesOf src paths s).2.workspace.cached path).isSome := by
  induction paths generalizing s with
  | nil =>
      obtain ⟨q, hq, -⟩ := hmem
      cases hq
  | cons p rest ih =>
      cases hc : s.watch.cancelled with
      | true =>
          rw [tablesOf_of_cancelled hc, hc] at hrun
          cases hrun
      | false =>
          rw [tablesOf_cons hc] at hrun ⊢
          have hw' := (table_follows src p s).wellFormed hw
          obtain ⟨q, hq, hsame⟩ := hmem
          cases List.mem_cons.1 hq with
          | inl heq =>
              cases heq
              exact (tablesOf_follows src rest _).isSome_cached hw' hserves
                (isSome_cached_table hw hserves hsame)
          | inr hq => exact ih hw' ⟨q, hq, hsame⟩ hrun

end Scan
end ProcedureIndex
