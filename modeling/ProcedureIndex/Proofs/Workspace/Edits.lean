import ProcedureIndex.Proofs.Workspace.Tables

/-!
Changes to the files in memory, one by one. The clock never runs backwards, and a
change leaves a file as it was, gives it a stamp that no file had before, takes it
away or makes it unreadable.
-/

namespace ProcedureIndex

inductive Edit where
  | set (path : Path) (text : Text)
  | touch (path : Path)
  | remove (path : Path)
  | markUnreadable (path : Path)
  deriving DecidableEq, Repr

/-- The memory after a change; a change that the clock cannot count is not made. -/
def Memory.edit (m : Memory) : Edit → Memory
  | .set path text => ((m.set path text).map Prod.snd).toOption.getD m
  | .touch path => ((m.touch path).map Prod.snd).toOption.getD m
  | .remove path => (m.remove path).2
  | .markUnreadable path => m.markUnreadable path

namespace Memory

theorem set_eq_ok {m m' : Memory} {path : Path} {text : Text} {stamp : Stamp}
    (h : m.set path text = .ok (stamp, m')) :
    stamp.ticks = m.clock.ticks + 1 ∧
      m' = ⟨stamp, m.files.insert path { stamp := stamp, text := text }⟩ := by
  simp only [set, Stamp.next] at h
  split at h
  · cases h
    exact ⟨rfl, rfl⟩
  · cases h

theorem touch_eq_ok {m m' : Memory} {path : Path} {found : Option Stamp}
    (h : m.touch path = .ok (found, m')) :
    m'.clock.ticks = m.clock.ticks + 1 ∧
      m'.files = m.files.modify path fun f => { f with stamp := m'.clock } := by
  simp only [touch, Stamp.next] at h
  split at h
  · cases h
    exact ⟨rfl, rfl⟩
  · cases h

theorem clock_le_clock_edit (m : Memory) (e : Edit) :
    m.clock.ticks ≤ (m.edit e).clock.ticks := by
  cases e with
  | set path text =>
      simp only [edit]
      cases h : m.set path text with
      | error _ => exact Nat.le_refl _
      | ok r =>
          obtain ⟨stamp, m'⟩ := r
          obtain ⟨hs, rfl⟩ := set_eq_ok h
          change m.clock.ticks ≤ stamp.ticks
          omega
  | touch path =>
      simp only [edit]
      cases h : m.touch path with
      | error _ => exact Nat.le_refl _
      | ok r =>
          obtain ⟨found, m'⟩ := r
          have hc := (touch_eq_ok h).1
          change m.clock.ticks ≤ m'.clock.ticks
          omega
  | remove path | markUnreadable path => exact Nat.le_refl _

/-- Writing leaves a path as it was or puts the text there, with the time that the clock then
shows. -/
theorem get?_edit_set (m : Memory) (p path : Path) (text : Text) :
    (m.edit (.set p text)).files.get? path = m.files.get? path ∨
      m.clock.ticks < (m.edit (.set p text)).clock.ticks ∧
        (m.edit (.set p text)).files.get? path =
          some { stamp := (m.edit (.set p text)).clock, text := text } := by
  simp only [edit]
  cases hr : m.set p text with
  | error _ => exact .inl rfl
  | ok r =>
      obtain ⟨stamp, m'⟩ := r
      obtain ⟨hs, rfl⟩ := set_eq_ok hr
      change (m.files.insert p _).get? path = _ ∨
        m.clock.ticks < stamp.ticks ∧ (m.files.insert p _).get? path = _
      rw [PathMap.get?_insert]
      split
      · exact .inr ⟨by omega, rfl⟩
      · exact .inl rfl

/-- Touching leaves a path as it was or gives its file the time that the clock then shows. -/
theorem get?_edit_touch (m : Memory) (p path : Path) :
    (m.edit (.touch p)).files.get? path = m.files.get? path ∨
      m.clock.ticks < (m.edit (.touch p)).clock.ticks ∧
        (m.edit (.touch p)).files.get? path =
          (m.files.get? path).map fun f => { f with stamp := (m.edit (.touch p)).clock } := by
  simp only [edit]
  cases hr : m.touch p with
  | error _ => exact .inl rfl
  | ok r =>
      obtain ⟨found, m'⟩ := r
      obtain ⟨hc, hm⟩ := touch_eq_ok hr
      change m'.files.get? path = _ ∨
        m.clock.ticks < m'.clock.ticks ∧ m'.files.get? path = _
      rw [hm, PathMap.get?_modify]
      split
      · exact .inr ⟨by omega, rfl⟩
      · exact .inl rfl

/-- After a change a file is what it was, readability apart, or newer than anything before. -/
theorem file_of_edit {m : Memory} {e : Edit} {p : Path} {f : MemoryFile}
    (h : (m.edit e).files.get? p = some f) :
    (∃ g, m.files.get? p = some g ∧ f.stamp = g.stamp ∧ f.text = g.text) ∨
      (m.clock.ticks < f.stamp.ticks ∧ f.stamp = (m.edit e).clock) := by
  cases e with
  | set path text =>
      rcases m.get?_edit_set path p text with hsame | ⟨hnewer, hnew⟩
      · exact .inl ⟨f, hsame ▸ h, rfl, rfl⟩
      · rw [hnew] at h
        cases h
        exact .inr ⟨hnewer, rfl⟩
  | touch path =>
      rcases m.get?_edit_touch path p with hsame | ⟨hnewer, hnew⟩
      · exact .inl ⟨f, hsame ▸ h, rfl, rfl⟩
      · rw [hnew] at h
        obtain ⟨g, -, rfl⟩ := Option.map_eq_some_iff.1 h
        exact .inr ⟨hnewer, rfl⟩
  | remove path =>
      simp only [edit, remove, PathMap.get?_erase] at h
      split at h
      · cases h
      · exact .inl ⟨f, h, rfl, rfl⟩
  | markUnreadable path =>
      simp only [edit, markUnreadable, PathMap.get?_modify] at h
      split at h
      · obtain ⟨g, hg, rfl⟩ := Option.map_eq_some_iff.1 h
        exact .inl ⟨g, hg, rfl, rfl⟩
      · exact .inl ⟨f, h, rfl, rfl⟩

theorem stamp_eq_ok_iff {m : Memory} {path : Path} {stamp : Stamp} :
    m.source.stamp path = .ok stamp ↔ ∃ f, m.files.get? path = some f ∧ f.stamp = stamp := by
  simp only [source, file]
  cases m.files.get? path <;> simp [Except.map]

theorem read_eq_ok_iff {m : Memory} {path : Path} {text : Text} :
    m.source.read path = .ok text ↔
      ∃ f, m.files.get? path = some f ∧ f.unreadable = false ∧ f.text = text := by
  simp only [source, read, file]
  cases m.files.get? path with
  | none => simp [bind, Except.bind]
  | some f => cases hf : f.unreadable <;> simp [bind, Except.bind, hf]

end Memory
end ProcedureIndex
