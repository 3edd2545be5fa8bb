import ProcedureIndex.Workspace.Basic
import ProcedureIndex.Workspace.Memory

/-!
What the operations of path maps and of a workspace do to look-ups. Paths count
by their parts, so every law holds however a path is spelled; a number once given
stays, and installing a table touches no file but its own.
-/

namespace ProcedureIndex

namespace Path

theorem same_comm (p q : Path) : p.same q = q.same p := by
  rw [Bool.eq_iff_iff, same_iff, same_iff]
  exact eq_comm

theorem same_congr {p q : Path} (h : p.same q = true) (r : Path) : r.same p = r.same q := by
  simp only [same, same_iff.1 h]

end Path

namespace PathMap

variable {β : Type}

theorem get?_congr (m : PathMap β) {p q : Path} (h : p.same q = true) : m.get? p = m.get? q := by
  simp only [get?, Path.same_congr h]

theorem contains_eq_isSome (m : PathMap β) (p : Path) : m.contains p = (m.get? p).isSome := by
  rw [contains, get?, Option.isSome_map, List.isSome_find?]

/-- Erasing a path hides it under every spelling and nothing else. -/
theorem get?_erase (m : PathMap β) (p q : Path) :
    (m.erase p).get? q = if p.same q then none else m.get? q := by
  obtain ⟨entries⟩ := m
  simp only [get?, erase]
  by_cases h : p.same q = true
  · rw [if_pos h, Option.map_eq_none_iff, List.find?_eq_none]
    intro e he hq
    have hp := (List.mem_filter.1 he).2
    rw [Path.same_congr h, hq] at hp
    exact absurd hp (by decide)
  · rw [if_neg h, List.find?_filter]
    congr 1
    congr 1
    funext e
    by_cases hq : e.1.same q = true
    · have hp : e.1.same p = false := by
        rw [Bool.eq_false_iff]
        intro hp
        exact h (by rw [Path.same_comm, ← Path.same_congr hp, Path.same_comm]; exact hq)
      simp [hq, hp]
    · simp [hq]

theorem get?_modify (m : PathMap β) (p q : Path) (f : β → β) :
    (m.modify p f).get? q = if p.same q then (m.get? q).map f else m.get? q := by
  obtain ⟨entries⟩ := m
  simp only [get?, modify]
  induction entries with
  | nil => simp
  | cons e rest ih =>
      rw [List.map_cons, List.find?_cons, List.find?_cons]
      by_cases hp : e.1.same p = true
      · have hpq : p.same q = e.1.same q := by
          rw [Path.same_comm p q, Path.same_comm e.1 q, Path.same_congr hp]
        cases hq : e.1.same q <;> simp_all
      · cases hq : e.1.same q with
        | false => simpa [hp, hq] using ih
        | true =>
            have hpq : p.same q = false := by
              rw [Bool.eq_false_iff]
              intro hpq
              exact hp (by rw [Path.same_congr hpq]; exact hq)
            simp [hp, hq, hpq]

end PathMap

namespace Workspace

theorem number?_congr (w : Workspace) {p q : Path} (h : p.same q = true) :
    w.number? p = w.number? q := by
  simp only [number?, Path.same_congr h]

/-- Two paths of one number are the same path. -/
theorem same_of_number? {w : Workspace} {p q : Path} {file : FileId}
    (hp : w.number? p = some file) (hq : w.number? q = some file) : p.same q = true := by
  obtain ⟨i, hi, rfl⟩ := Option.map_eq_some_iff.1 hp
  obtain ⟨j, hj, hji⟩ := Option.map_eq_some_iff.1 hq
  cases hji
  obtain ⟨_, hpi, _⟩ := List.findIdx?_eq_some_iff_getElem.1 hi
  obtain ⟨_, hqi, _⟩ := List.findIdx?_eq_some_iff_getElem.1 hj
  rw [Path.same_comm, Path.same_congr (by rwa [Path.same_comm] at hpi), Path.same_comm]
  exact hqi

@[simp] theorem tables_number (w : Workspace) (path : Path) :
    (w.number path).2.tables = w.tables := by
  rw [number]
  split <;> rfl

theorem number?_number_self (w : Workspace) (path : Path) :
    (w.number path).2.number? path = some (w.number path).1 := by
  rw [number]
  cases h : w.number? path with
  | some file => exact h
  | none =>
      have hnone := Option.map_eq_none_iff.1 h
      simp [number?, List.findIdx?_append, hnone]

/-- Numbers are never changed. -/
theorem number?_number_of_eq_some {w : Workspace} {q : Path} {file : FileId}
    (h : w.number? q = some file) (path : Path) : (w.number path).2.number? q = some file := by
  rw [number]
  split
  · exact h
  · obtain ⟨i, hi, rfl⟩ := Option.map_eq_some_iff.1 h
    simp [number?, List.findIdx?_append, hi]

theorem file_of_table? {w : Workspace} {file : FileId} {t : FileTable}
    (h : w.table? file = some t) : t.file = file := by
  simpa using List.find?_some h

theorem mem_of_table? {w : Workspace} {file : FileId} {t : FileTable}
    (h : w.table? file = some t) : t ∈ w.tables :=
  List.mem_of_find?_eq_some h

theorem fresh?_eq_some_iff {w : Workspace} {file : FileId} {stamp : Stamp} {t : FileTable} :
    w.fresh? file stamp = some t ↔
      w.table? file = some t ∧ stamp.ticks ≤ t.stamp.ticks := by
  simp [fresh?, Option.filter_eq_some_iff, Stamp.isNewerThan]

theorem fresh?_eq_none_iff {w : Workspace} {file : FileId} {stamp : Stamp} :
    w.fresh? file stamp = none ↔
      ∀ t, w.table? file = some t → t.stamp.ticks < stamp.ticks := by
  simp [fresh?, Option.filter_eq_none_iff, Stamp.isNewerThan]

theorem mem_place {t x : FileTable} {ts : List FileTable} (h : x ∈ place t ts) :
    x = t ∨ x ∈ ts := by
  induction ts with
  | nil => simpa [place] using h
  | cons y ys ih =>
      rw [place] at h
      split at h
      · simpa using h
      · split at h
        · rcases List.mem_cons.1 h with h | h
          · exact .inl h
          · exact .inr (List.mem_cons_of_mem y h)
        · rcases List.mem_cons.1 h with rfl | h
          · exact .inr List.mem_cons_self
          · exact (ih h).imp_right (List.mem_cons_of_mem y)

/-- Either a newer table stays and is the answer, or the new table takes its place. -/
theorem install_cases (w : Workspace) (t : FileTable) :
    (∃ x, w.table? t.file = some x ∧ t.stamp.ticks < x.stamp.ticks ∧ w.install t = (x, w)) ∨
    ((∀ x, w.table? t.file = some x → x.stamp.ticks ≤ t.stamp.ticks) ∧
      w.install t = (t, { w with tables := place t w.tables })) := by
  rw [install]
  cases h : (w.table? t.file).filter fun x => x.stamp.isNewerThan t.stamp with
  | some x =>
      obtain ⟨hx, hnewer⟩ := Option.filter_eq_some_iff.1 h
      exact .inl ⟨x, hx, by simpa [Stamp.isNewerThan] using hnewer, rfl⟩
  | none =>
      refine .inr ⟨?_, rfl⟩
      intro x hx
      simpa [Stamp.isNewerThan] using Option.filter_eq_none_iff.1 h x hx

def cached (w : Workspace) (path : Path) : Option FileTable :=
  (w.number? path).bind w.table?

structure WellFormed (w : Workspace) : Prop where
  ordered : w.tables.Pairwise fun a b => a.file.index < b.file.index
  numbered : ∀ t ∈ w.tables, w.number? t.path = some t.file

theorem cached_eq_some_iff {w : Workspace} {path : Path} {t : FileTable} :
    w.cached path = some t ↔ w.number? path = some t.file ∧ w.table? t.file = some t := by
  rw [cached, Option.bind_eq_some_iff]
  constructor
  · rintro ⟨file, hn, ht⟩
    cases file_of_table? ht
    exact ⟨hn, ht⟩
  · exact fun ⟨hn, ht⟩ => ⟨t.file, hn, ht⟩

theorem cached_congr (w : Workspace) {p q : Path} (h : p.same q = true) :
    w.cached p = w.cached q := by
  rw [cached, cached, number?_congr w h]

theorem number?_number_of_not_same {w : Workspace} {p q : Path} (h : p.same q = false) :
    (w.number p).2.number? q = w.number? q := by
  rw [number]
  split
  · rfl
  · simp [number?, List.findIdx?_append, List.findIdx?_cons, h]

theorem find?_place {ts : List FileTable} (t : FileTable) (file : FileId)
    (h : ts.Pairwise fun a b => a.file.index < b.file.index) :
    (place t ts).find? (·.file = file) =
      if t.file = file then some t else ts.find? (·.file = file) := by
  induction ts with
  | nil => by_cases hf : t.file = file <;> simp [place, hf]
  | cons x xs ih =>
      rw [place]
      split
      · by_cases hf : t.file = file <;> simp [hf]
      · next hlt =>
          split
          · next heq =>
              by_cases hf : t.file = file
              · simp [hf]
              · simp [hf, heq]
          · next hne =>
              rw [List.find?_cons, List.find?_cons, ih (List.pairwise_cons.1 h).2]
              by_cases hx : x.file = file
              · have hf : t.file ≠ file := fun hf => hne (hx.trans hf.symm)
                simp [hx, hf]
              · simp [hx]

theorem ordered_place {ts : List FileTable} (t : FileTable)
    (h : ts.Pairwise fun a b => a.file.index < b.file.index) :
    (place t ts).Pairwise fun a b => a.file.index < b.file.index := by
  induction ts with
  | nil => exact List.pairwise_singleton ..
  | cons x xs ih =>
      obtain ⟨hx, hxs⟩ := List.pairwise_cons.1 h
      rw [place]
      split
      · next hlt =>
          refine List.pairwise_cons.2 ⟨?_, h⟩
          intro y hy
          rcases List.mem_cons.1 hy with rfl | hy
          · exact hlt
          · exact Nat.lt_trans hlt (hx y hy)
      · next hlt =>
          split
          · next heq => exact List.pairwise_cons.2 ⟨fun y hy => heq ▸ hx y hy, hxs⟩
          · next hne =>
              have hfile : x.file.index ≠ t.file.index := fun he =>
                hne (by cases hxf : x.file; cases htf : t.file; simp_all)
              refine List.pairwise_cons.2 ⟨?_, ih hxs⟩
              intro y hy
              rcases mem_place hy with rfl | hy
              · omega
              · exact hx y hy

theorem wellFormed_empty : WellFormed {} :=
  ⟨.nil, fun _ ht => absurd ht List.not_mem_nil⟩

theorem WellFormed.number {w : Workspace} (h : w.WellFormed) (path : Path) :
    (w.number path).2.WellFormed := by
  refine ⟨by rw [tables_number]; exact h.ordered, ?_⟩
  intro t ht
  rw [tables_number] at ht
  exact number?_number_of_eq_some (h.numbered t ht) path

theorem WellFormed.install {w : Workspace} (h : w.WellFormed) {t : FileTable}
    (ht : w.number? t.path = some t.file) : (w.install t).2.WellFormed := by
  rcases w.install_cases t with ⟨x, -, -, he⟩ | ⟨-, he⟩
  · rw [he]
    exact h
  · rw [he]
    refine ⟨ordered_place t h.ordered, ?_⟩
    intro x hx
    rcases mem_place hx with rfl | hx
    · exact ht
    · exact h.numbered x hx

theorem WellFormed.update {w : Workspace} (h : w.WellFormed) (path : Path) (stamp : Stamp)
    (text : Text) : (w.update path stamp text).2.WellFormed := by
  simp only [Workspace.update]
  split
  · exact h.number path
  · exact (h.number path).install (w.number?_number_self path)

theorem WellFormed.forget {w : Workspace} (h : w.WellFormed) (path : Path) :
    (w.forget path).WellFormed := by
  rw [Workspace.forget]
  split
  · exact ⟨h.ordered.filter _, fun t ht => h.numbered t (List.mem_filter.1 ht).1⟩
  · exact h

theorem WellFormed.forgetAll {w : Workspace} : w.forgetAll.WellFormed :=
  ⟨.nil, fun _ ht => absurd ht List.not_mem_nil⟩

theorem cached_number {w : Workspace} (h : w.WellFormed) (p q : Path) :
    (w.number p).2.cached q = w.cached q := by
  by_cases hpq : p.same q = true
  · rw [← cached_congr _ hpq, ← cached_congr _ hpq]
    cases hp : w.number? p with
    | some file => rw [number, hp]
    | none =>
        rw [show w.cached p = none by rw [cached, hp]; rfl, cached, number?_number_self]
        -- The new number lies behind those of all tables.
        change (w.number p).2.table? (w.number p).1 = none
        rw [table?, tables_number, number, hp, List.find?_eq_none]
        intro t ht hfile
        obtain ⟨i, hi, hfi⟩ := Option.map_eq_some_iff.1 (h.numbered t ht)
        obtain ⟨hlt, -⟩ := List.findIdx?_eq_some_iff_getElem.1 hi
        have hlen : FileId.mk i = ⟨w.known.length⟩ := hfi.trans (by simpa using hfile)
        cases hlen
        exact Nat.lt_irrefl _ hlt
  · have htable : (w.number p).2.table? = w.table? := by
      funext file
      rw [table?, table?, tables_number]
    rw [cached, cached, number?_number_of_not_same (Bool.eq_false_iff.2 hpq), htable]

theorem cached_install {w : Workspace} (h : w.WellFormed) {t : FileTable}
    (ht : w.number? t.path = some t.file) (q : Path) :
    (w.install t).2.cached q = if t.path.same q then some (w.install t).1 else w.cached q := by
  rcases w.install_cases t with ⟨x, hx, -, he⟩ | ⟨-, he⟩
  · rw [he]
    split
    · next hq =>
        rw [← cached_congr _ hq, cached, ht]
        exact hx
    · rfl
  · rw [he]
    change (w.number? q).bind (fun file => (place t w.tables).find? (·.file = file)) = _
    split
    · next hq => simp [← number?_congr w hq, ht, find?_place t _ h.ordered]
    · next hq =>
        rw [cached]
        cases hn : w.number? q with
        | none => rfl
        | some file =>
            have hne : t.file ≠ file := fun hf => hq (same_of_number? ht (hf ▸ hn))
            simp [find?_place t _ h.ordered, hne, table?]

/-- Taking in a text keeps a table that is as new, and otherwise tabulates the text. -/
theorem update_cases {w : Workspace} (h : w.WellFormed) (path : Path) (stamp : Stamp)
    (text : Text) :
    (∃ t, w.cached path = some t ∧ stamp.ticks ≤ t.stamp.ticks ∧
      (w.update path stamp text).1 = t) ∨
    ((∀ t, w.cached path = some t → t.stamp.ticks < stamp.ticks) ∧
      ∃ file, (w.update path stamp text).1 = tabulate file path stamp text) := by
  have hcached := cached_number h path path
  rw [cached, number?_number_self] at hcached
  change (w.number path).2.table? (w.number path).1 = _ at hcached
  simp only [Workspace.update]
  cases hf : (w.number path).2.fresh? (w.number path).1 stamp with
  | some t =>
      obtain ⟨ht, hs⟩ := fresh?_eq_some_iff.1 hf
      exact .inl ⟨t, by rw [← hcached, ht], hs, rfl⟩
  | none =>
      have hold := fresh?_eq_none_iff.1 hf
      rw [hcached] at hold
      refine .inr ⟨hold, (w.number path).1, ?_⟩
      rcases (w.number path).2.install_cases (tabulate (w.number path).1 path stamp text) with
        ⟨x, hx, hnewer, -⟩ | ⟨-, he⟩
      · have hlt := hold x (by rw [← hcached]; exact hx)
        exact absurd hlt (Nat.not_lt.2 (Nat.le_of_lt hnewer))
      · exact congrArg Prod.fst he

theorem cached_update {w : Workspace} (h : w.WellFormed) (p q : Path) (stamp : Stamp)
    (text : Text) :
    (w.update p stamp text).2.cached q =
      if p.same q then some (w.update p stamp text).1 else w.cached q := by
  simp only [Workspace.update]
  cases hf : (w.number p).2.fresh? (w.number p).1 stamp with
  | some t =>
      change (w.number p).2.cached q = if p.same q then some t else _
      split
      · next hpq =>
          obtain ⟨ht, -⟩ := fresh?_eq_some_iff.1 hf
          rw [← cached_congr _ hpq, cached, number?_number_self]
          exact ht
      · exact cached_number h p q
  | none =>
      have hn : (w.number p).2.number? (tabulate (w.number p).1 p stamp text).path =
          some (tabulate (w.number p).1 p stamp text).file := w.number?_number_self p
      change ((w.number p).2.install (tabulate (w.number p).1 p stamp text)).2.cached q = _
      rw [cached_install (h.number p) hn, cached_number h]
      rfl

/-- An answer is as new as the text that was handed in. -/
theorem stamp_le_update {w : Workspace} (hw : w.WellFormed) (path : Path) (stamp : Stamp)
    (text : Text) : stamp.ticks ≤ (w.update path stamp text).1.stamp.ticks := by
  rcases update_cases hw path stamp text with ⟨t, -, hle, he⟩ | ⟨-, file, he⟩
  · rwa [he]
  · rw [he]
    exact Nat.le_refl _

/-- A table gives way only to one that is as new. -/
theorem exists_cached_update {w : Workspace} (hw : w.WellFormed) (p : Path) (stamp : Stamp)
    (text : Text) {path : Path} {old : FileTable} (hold : w.cached path = some old) :
    ∃ new, (w.update p stamp text).2.cached path = some new ∧
      old.stamp.ticks ≤ new.stamp.ticks := by
  rw [cached_update hw]
  split
  · next hp =>
      refine ⟨_, rfl, ?_⟩
      rw [← cached_congr w hp] at hold
      rcases update_cases hw p stamp text with ⟨t, ht, -, he⟩ | ⟨hnewer, file, he⟩
      · cases hold.symm.trans ht
        exact Nat.le_of_eq (by rw [he])
      · rw [he]
        exact Nat.le_of_lt (hnewer old hold)
  · exact ⟨old, hold, Nat.le_refl _⟩

theorem cached_forget (w : Workspace) (p q : Path) :
    (w.forget p).cached q = if p.same q then none else w.cached q := by
  rw [forget]
  cases hp : w.number? p with
  | none =>
      change w.cached q = _
      split
      · next hpq => rw [← cached_congr _ hpq, cached, hp]; rfl
      · rfl
  | some file =>
      change (w.number? q).bind (fun f => (w.tables.filter (·.file ≠ file)).find? (·.file = f)) = _
      split
      · next hpq => simp [← number?_congr w hpq, hp, List.find?_eq_none]
      · next hpq =>
          rw [cached]
          cases hq : w.number? q with
          | none => rfl
          | some other =>
              have hne : other ≠ file := fun ho => hpq (same_of_number? hp (ho ▸ hq))
              simp only [Option.bind_some, table?, List.find?_filter]
              congr 1
              funext t
              by_cases ht : t.file = other
              · simp [ht, hne]
              · simp [ht]

theorem cached_forgetAll (w : Workspace) (q : Path) : w.forgetAll.cached q = none := by
  change (w.number? q).bind (fun _ => none) = none
  cases w.number? q <;> rfl

end Workspace
end ProcedureIndex
