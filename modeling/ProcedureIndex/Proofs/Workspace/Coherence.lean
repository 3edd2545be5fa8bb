import ProcedureIndex.Proofs.Workspace.Interleaving

/-!
Coherence of a workspace that is looked up while its files change. The invariant
has a part for the files (the present stamp of a path is its newest, and a stamp
belongs to one text), a part for the tables and a part for the look-ups under way;
`held` stands for the files that the memory has had so far.
-/

namespace ProcedureIndex

structure Memory.Recorded (held : Path → MemoryFile → Prop) (m : Memory) : Prop where
  present : ∀ {p f}, m.files.get? p = some f → held p f
  spelling : ∀ {p q f}, p.same q = true → held p f → held q f
  ticked : ∀ {p f}, held p f → f.stamp.ticks ≤ m.clock.ticks
  newest : ∀ {p f g}, m.files.get? p = some f → held p g →
    g.stamp.ticks ≤ f.stamp.ticks ∧ (g.stamp = f.stamp → g.text = f.text)

namespace Memory

theorem Recorded.edit {held : Path → MemoryFile → Prop} {m : Memory} (h : m.Recorded held)
    (e : Edit) :
    (m.edit e).Recorded fun p f => held p f ∨ (m.edit e).files.get? p = some f := by
  have hclock := m.clock_le_clock_edit e
  refine ⟨fun hf => .inr hf, ?_, ?_, ?_⟩
  · rintro p q f hpq (hf | hf)
    · exact .inl (h.spelling hpq hf)
    · exact .inr (by rwa [← PathMap.get?_congr _ hpq])
  · rintro p f (hf | hf)
    · exact Nat.le_trans (h.ticked hf) hclock
    · rcases file_of_edit hf with ⟨g, hg, hs, -⟩ | ⟨-, hs⟩
      · rw [hs]
        exact Nat.le_trans (h.ticked (h.present hg)) hclock
      · exact Nat.le_of_eq (congrArg Stamp.ticks hs)
  · rintro p f g hf (hg | hg)
    · rcases file_of_edit hf with ⟨old, hold, hs, ht⟩ | ⟨hnew, -⟩
      · rw [hs, ht]
        exact h.newest hold hg
      · have hlt := Nat.lt_of_le_of_lt (h.ticked hg) hnew
        exact ⟨Nat.le_of_lt hlt, fun heq => absurd (congrArg Stamp.ticks heq) (Nat.ne_of_lt hlt)⟩
    · cases hf.symm.trans hg
      exact ⟨Nat.le_refl _, fun _ => rfl⟩

/-- What is there already has been recorded. -/
theorem Recorded.or_present {held : Path → MemoryFile → Prop} {m : Memory} (h : m.Recorded held) :
    (fun p f => held p f ∨ m.files.get? p = some f) = held := by
  funext p f
  exact propext ⟨fun hf => hf.elim id h.present, .inl⟩

end Memory

section Invariant

variable (held : Path → MemoryFile → Prop)

/-- A table of a numbered file, from a text under a stamp not older than its own. -/
def FileTable.Sourced (w : Workspace) (t : FileTable) : Prop :=
  w.number? t.path = some t.file ∧
    ∃ f, held t.path f ∧ t.stamp.ticks ≤ f.stamp.ticks ∧ t.declared = parse t.file f.text

def Lookup.Sound (w : Workspace) (l : Lookup) : Prop :=
  match l.progress with
  | .requested | .answered _ => True
  | .numbered file => w.number? l.path = some file
  | .stamped file stamp | .stale file stamp =>
      w.number? l.path = some file ∧ ∃ f, held l.path f ∧ stamp.ticks ≤ f.stamp.ticks
  | .loaded file stamp text =>
      w.number? l.path = some file ∧
        ∃ f, held l.path f ∧ stamp.ticks ≤ f.stamp.ticks ∧ text = f.text

structure Session.Coherent (s : Session) : Prop where
  recorded : s.memory.Recorded held
  tables : ∀ t ∈ s.workspace.tables, t.Sourced held s.workspace
  lookups : ∀ l ∈ s.lookups, l.Sound held s.workspace

end Invariant

variable {held : Path → MemoryFile → Prop}

/-- The numbers of the first workspace are numbers of the second. -/
def Workspace.Extends (w w' : Workspace) : Prop :=
  ∀ p file, w.number? p = some file → w'.number? p = some file

theorem FileTable.Sourced.mono {held' : Path → MemoryFile → Prop} {w w' : Workspace}
    {t : FileTable} (h : t.Sourced held w) (hheld : ∀ p f, held p f → held' p f)
    (hw : w.Extends w') : t.Sourced held' w' := by
  obtain ⟨hn, f, hf, hs, hd⟩ := h
  exact ⟨hw _ _ hn, f, hheld _ _ hf, hs, hd⟩

theorem Lookup.Sound.mono {held' : Path → MemoryFile → Prop} {w w' : Workspace} {l : Lookup}
    (h : l.Sound held w) (hheld : ∀ p f, held p f → held' p f) (hw : w.Extends w') :
    l.Sound held' w' := by
  obtain ⟨path, progress⟩ := l
  cases progress with
  | requested | answered _ => trivial
  | numbered file => exact hw _ _ h
  | stamped file stamp | stale file stamp =>
      obtain ⟨hn, f, hf, hs⟩ := h
      exact ⟨hw _ _ hn, f, hheld _ _ hf, hs⟩
  | loaded file stamp text =>
      obtain ⟨hn, f, hf, hs⟩ := h
      exact ⟨hw _ _ hn, f, hheld _ _ hf, hs⟩

theorem Workspace.extends_refl (w : Workspace) : w.Extends w :=
  fun _ _ h => h

theorem Workspace.extends_number (w : Workspace) (path : Path) : w.Extends (w.number path).2 :=
  fun _ _ h => number?_number_of_eq_some h path

theorem Workspace.extends_install (w : Workspace) (t : FileTable) :
    w.Extends (w.install t).2 := by
  rcases w.install_cases t with ⟨x, -, -, he⟩ | ⟨-, he⟩
  · rw [he]
    exact w.extends_refl
  · rw [he]
    exact fun _ _ h => h

theorem Workspace.sourced_install {w : Workspace} {t : FileTable}
    (hw : ∀ x ∈ w.tables, x.Sourced held w) (ht : t.Sourced held w) :
    ∀ x ∈ (w.install t).2.tables, x.Sourced held (w.install t).2 := by
  intro x hx
  have hext := w.extends_install t
  rcases w.install_cases t with ⟨y, -, -, he⟩ | ⟨-, he⟩
  · rw [he] at hx ⊢
    exact hw x hx
  · rw [he] at hx hext ⊢
    rcases mem_place hx with rfl | hx
    · exact ht.mono (fun _ _ h => h) hext
    · exact (hw x hx).mono (fun _ _ h => h) hext

namespace Lookup

theorem extends_step (src : Source) (l : Lookup) (w : Workspace) :
    w.Extends (l.step src w).2 := by
  obtain ⟨path, progress⟩ := l
  cases progress with
  | requested => exact w.extends_number path
  | numbered file => simp only [step]; cases src.stamp path <;> exact w.extends_refl
  | stamped file stamp => simp only [step]; cases w.fresh? file stamp <;> exact w.extends_refl
  | stale file stamp => simp only [step]; cases src.read path <;> exact w.extends_refl
  | loaded file stamp text => exact w.extends_install _
  | answered _ => exact w.extends_refl

theorem sourced_step {m : Memory} {w : Workspace} {l : Lookup} (hl : l.Sound held w)
    (hw : ∀ t ∈ w.tables, t.Sourced held w) :
    ∀ t ∈ (l.step m.source w).2.tables, t.Sourced held (l.step m.source w).2 := by
  obtain ⟨path, progress⟩ := l
  cases progress with
  | requested =>
      intro t ht
      rw [show ((⟨path, .requested⟩ : Lookup).step m.source w).2 = (w.number path).2 from rfl,
        Workspace.tables_number] at ht
      exact (hw t ht).mono (fun _ _ h => h) (w.extends_number path)
  | numbered file => simp only [step]; cases m.source.stamp path <;> exact hw
  | stamped file stamp => simp only [step]; cases w.fresh? file stamp <;> exact hw
  | stale file stamp => simp only [step]; cases m.source.read path <;> exact hw
  | loaded file stamp text =>
      obtain ⟨hn, f, hf, hs, ht⟩ := hl
      exact Workspace.sourced_install hw ⟨hn, f, hf, hs, by rw [ht]; rfl⟩
  | answered _ => exact hw

/-- The stamp of a look-up was read before its text, so the text is held under a stamp at least as
new. -/
theorem sound_step {m : Memory} {w : Workspace} {l : Lookup} (hm : m.Recorded held)
    (hl : l.Sound held w) : (l.step m.source w).1.Sound held (l.step m.source w).2 := by
  obtain ⟨path, progress⟩ := l
  cases progress with
  | requested => exact w.number?_number_self path
  | numbered file =>
      simp only [step]
      cases hs : m.source.stamp path with
      | error e => trivial
      | ok stamp =>
          obtain ⟨f, hf, rfl⟩ := Memory.stamp_eq_ok_iff.1 hs
          exact ⟨hl, f, hm.present hf, Nat.le_refl _⟩
  | stamped file stamp =>
      simp only [step]
      cases w.fresh? file stamp with
      | some t => trivial
      | none => exact hl
  | stale file stamp =>
      simp only [step]
      cases hr : m.source.read path with
      | error e => trivial
      | ok text =>
          obtain ⟨f, hf, -, rfl⟩ := Memory.read_eq_ok_iff.1 hr
          obtain ⟨hn, g, hg, hs⟩ := hl
          exact ⟨hn, f, hm.present hf, Nat.le_trans hs (hm.newest hf hg).1, rfl⟩
  | loaded file stamp text => trivial
  | answered _ => exact hl

end Lookup

namespace Session

theorem Coherent.step {s : Session} (h : s.Coherent held) (e : Event) :
    (s.step e).Coherent fun p f => held p f ∨ (s.step e).memory.files.get? p = some f := by
  cases e with
  | edit change =>
      exact ⟨h.recorded.edit change,
        fun t ht => (h.tables t ht).mono (fun _ _ => .inl) (Workspace.extends_refl _),
        fun l hl => (h.lookups l hl).mono (fun _ _ => .inl) (Workspace.extends_refl _)⟩
  | request path =>
      change Coherent (fun p f => held p f ∨ s.memory.files.get? p = some f) _
      rw [h.recorded.or_present]
      refine ⟨h.recorded, h.tables, ?_⟩
      intro l hl
      rcases List.mem_append.1 hl with hl | hl
      · exact h.lookups l hl
      · rw [List.mem_singleton.1 hl]
        trivial
  | advance i =>
      simp only [Session.step]
      cases hi : s.lookups[i]? with
      | none =>
          rw [h.recorded.or_present]
          exact h
      | some l =>
          have hl := h.lookups l (List.mem_of_getElem? hi)
          change Coherent (fun p f => held p f ∨ s.memory.files.get? p = some f) _
          rw [h.recorded.or_present]
          refine ⟨h.recorded, Lookup.sourced_step hl h.tables, ?_⟩
          intro x hx
          rcases List.mem_or_eq_of_mem_set hx with hx | rfl
          · exact (h.lookups x hx).mono (fun _ _ h => h) (l.extends_step _ _)
          · exact Lookup.sound_step h.recorded hl
  | forget path =>
      change Coherent (fun p f => held p f ∨ s.memory.files.get? p = some f) _
      rw [h.recorded.or_present]
      simp only [Session.step, Workspace.forget]
      split
      · exact ⟨h.recorded, fun t ht => h.tables t (List.mem_filter.1 ht).1, h.lookups⟩
      · exact h
  | forgetAll =>
      change Coherent (fun p f => held p f ∨ s.memory.files.get? p = some f) _
      rw [h.recorded.or_present]
      exact ⟨h.recorded, fun t ht => absurd ht List.not_mem_nil, h.lookups⟩

theorem coherent_after (events : List Event) : (after events).Coherent (Held events) := by
  induction events using List.reverseRecOn with
  | nil =>
      have hnone : ∀ p f, ¬ Held [] p f := by
        rintro p f ⟨earlier, hpre, hf⟩
        cases List.prefix_nil.1 hpre
        cases hf
      refine ⟨⟨?_, ?_, ?_, ?_⟩, ?_, ?_⟩
      · intro p f hf
        cases hf
      · intro p q f _ hf
        exact absurd hf (hnone p f)
      · intro p f hf
        exact absurd hf (hnone p f)
      · intro p f g hf
        cases hf
      · intro t ht
        cases ht
      · intro l hl
        cases hl
  | append_singleton events e ih =>
      have hheld : Held (events ++ [e]) = fun p f =>
          Held events p f ∨ ((after events).step e).memory.files.get? p = some f := by
        funext p f
        rw [← after_append_singleton]
        exact propext held_append_singleton
      rw [hheld, after_append_singleton]
      exact ih.step e

end Session

/-- A table that is not older than the present file is as new as it and has its text. -/
theorem FileTable.Sourced.present {m : Memory} {w : Workspace} {t : FileTable} {path : Path}
    {f : MemoryFile} (h : t.Sourced held w) (hm : m.Recorded held)
    (hf : m.files.get? path = some f) (hn : w.number? path = some t.file)
    (hs : f.stamp.ticks ≤ t.stamp.ticks) :
    t.stamp.ticks ≤ f.stamp.ticks ∧ t.declared = parse t.file f.text := by
  obtain ⟨hnt, g, hg, hle, hd⟩ := h
  obtain ⟨hgf, htext⟩ := hm.newest hf (hm.spelling (Workspace.same_of_number? hnt hn) hg)
  have hstamp : g.stamp = f.stamp := by
    cases hgs : g.stamp
    cases hfs : f.stamp
    simp only [hgs, hfs, Stamp.mk.injEq] at hgf hle hs ⊢
    omega
  exact ⟨Nat.le_trans hle hgf, by rw [hd, htext hstamp]⟩

namespace Lookup

/-- What a look-up has learned of the file agrees with what the file is. -/
def Current (w : Workspace) (f : MemoryFile) (l : Lookup) : Prop :=
  match l.progress with
  | .requested | .numbered _ => True
  | .stamped _ stamp | .stale _ stamp => stamp = f.stamp
  | .loaded _ stamp text => stamp = f.stamp ∧ text = f.text
  | .answered result =>
      ∃ t, result = .ok t ∧ w.number? l.path = some t.file ∧ t.declared = parse t.file f.text

theorem Current.mono {w w' : Workspace} {f : MemoryFile} {l : Lookup} (h : l.Current w f)
    (hw : w.Extends w') : l.Current w' f := by
  obtain ⟨path, progress⟩ := l
  cases progress with
  | answered result =>
      obtain ⟨t, hr, hn, hd⟩ := h
      exact ⟨t, hr, hw _ _ hn, hd⟩
  | _ => exact h

theorem current_step {m : Memory} {w : Workspace} {l : Lookup} {f : MemoryFile}
    (hm : m.Recorded held) (hw : ∀ t ∈ w.tables, t.Sourced held w) (hl : l.Sound held w)
    (hf : m.files.get? l.path = some f) (hread : f.unreadable = false) (hc : l.Current w f) :
    (l.step m.source w).1.Current (l.step m.source w).2 f := by
  obtain ⟨path, progress⟩ := l
  cases progress with
  | requested => trivial
  | numbered file =>
      simp only [step, Memory.stamp_eq_ok_iff.2 ⟨f, hf, rfl⟩]
      rfl
  | stamped file stamp =>
      cases (show stamp = f.stamp from hc)
      simp only [step]
      cases hfresh : w.fresh? file f.stamp with
      | none => rfl
      | some t =>
          obtain ⟨ht, hs⟩ := Workspace.fresh?_eq_some_iff.1 hfresh
          cases Workspace.file_of_table? ht
          have hsourced := hw t (Workspace.mem_of_table? ht)
          exact ⟨t, rfl, hl.1, (hsourced.present hm hf hl.1 hs).2⟩
  | stale file stamp =>
      simp only [step, Memory.read_eq_ok_iff.2 ⟨f, hf, hread, rfl⟩]
      exact ⟨hc, rfl⟩
  | loaded file stamp text =>
      obtain ⟨hstamp, htext⟩ := hc
      cases hstamp
      cases htext
      simp only [step]
      -- A newer table would have to come from a newer text than the present one.
      rcases w.install_cases (Workspace.tabulate file path f.stamp f.text) with
        ⟨x, hx, hnewer, -⟩ | ⟨-, he⟩
      · have hfile : x.file = file := Workspace.file_of_table? hx
        cases hfile
        have hle := ((hw x (Workspace.mem_of_table? hx)).present hm hf hl.1
          (Nat.le_of_lt hnewer)).1
        exact absurd hnewer (Nat.not_lt.2 hle)
      · rw [he]
        exact ⟨_, rfl, hl.1, rfl⟩
  | answered result => exact hc

end Lookup

namespace Session

theorem memory_step_of_not_isEdit {e : Event} (h : e.isEdit = false) (s : Session) :
    (s.step e).memory = s.memory := by
  cases e with
  | edit change => cases h
  | advance i =>
      simp only [step]
      split <;> rfl
  | _ => rfl

theorem memory_after_append (history : List Event) {later : List Event}
    (h : ∀ e ∈ later, e.isEdit = false) :
    (after (history ++ later)).memory = (after history).memory := by
  induction later using List.reverseRecOn with
  | nil => rw [List.append_nil]
  | append_singleton later e ih =>
      rw [← List.append_assoc, after_append_singleton,
        memory_step_of_not_isEdit (h e (by simp))]
      exact ih fun x hx => h x (List.mem_append_left _ hx)

/-- One event that changes no file keeps a look-up current and, if it is the look-up's own, brings
it forward. -/
theorem current_step {s : Session} (h : s.Coherent held) {i : Nat} {l : Lookup} {f : MemoryFile}
    (hi : s.lookups[i]? = some l) (hf : s.memory.files.get? l.path = some f)
    (hread : f.unreadable = false) (hc : l.Current s.workspace f) (e : Event) :
    ∃ l', (s.step e).lookups[i]? = some l' ∧ l'.path = l.path ∧
      l'.Current (s.step e).workspace f ∧
      min 5 (l.stage + if e = .advance i then 1 else 0) ≤ l'.stage := by
  have hstage : min 5 (l.stage + 0) ≤ l.stage := Nat.min_le_right _ _
  cases e with
  | edit change => exact ⟨l, hi, rfl, hc, hstage⟩
  | request path =>
      exact ⟨l, by rw [step, List.getElem?_append_left (List.getElem?_eq_some_iff.1 hi).1, hi],
        rfl, hc, hstage⟩
  | advance j =>
      by_cases hj : j = i
      · cases hj
        have hl := h.lookups l (List.mem_of_getElem? hi)
        have hlt := (List.getElem?_eq_some_iff.1 hi).1
        refine ⟨(l.step s.memory.source s.workspace).1, ?_, Lookup.step_path .., ?_, ?_⟩
        · simp only [step, hi]
          rw [List.getElem?_set_self hlt]
        · simp only [step, hi]
          exact Lookup.current_step h.recorded h.tables hl hf hread hc
        · rw [if_pos rfl]
          exact Lookup.stage_lt_stage_step ..
      · refine ⟨l, ?_, rfl, ?_, ?_⟩
        · simp only [step]
          split
          · exact hi
          · rw [List.getElem?_set_ne hj]
            exact hi
        · simp only [step]
          split
          · exact hc
          · exact hc.mono (Lookup.extends_step _ _ _)
        · rw [if_neg (by simpa using hj)]
          exact hstage
  | forget path =>
      refine ⟨l, hi, rfl, hc.mono ?_, hstage⟩
      simp only [step, Workspace.forget]
      split <;> exact fun _ _ h => h
  | forgetAll => exact ⟨l, hi, rfl, hc.mono fun _ _ h => h, hstage⟩

/-- A look-up during which no file changes stays current and has its answer after five steps. -/
theorem current_after_append {history later : List Event} {i : Nat} {path : Path} {f : MemoryFile}
    (hi : (after history).lookups[i]? = some { path := path })
    (hf : (after history).memory.files.get? path = some f) (hread : f.unreadable = false)
    (hlater : ∀ e ∈ later, e.isEdit = false) :
    ∃ l, (after (history ++ later)).lookups[i]? = some l ∧ l.path = path ∧
      l.Current (after (history ++ later)).workspace f ∧
      min 5 (later.count (.advance i)) ≤ l.stage := by
  induction later using List.reverseRecOn with
  | nil =>
      rw [List.append_nil]
      exact ⟨_, hi, rfl, trivial, Nat.min_le_right _ _⟩
  | append_singleton later e ih =>
      have hbefore : ∀ x ∈ later, x.isEdit = false :=
        fun x hx => hlater x (List.mem_append_left _ hx)
      obtain ⟨l, hl, hpath, hc, hcount⟩ := ih hbefore
      have hmemory := memory_after_append history hbefore
      rw [← hpath, ← hmemory] at hf
      obtain ⟨l', hl', hpath', hc', hstage⟩ :=
        current_step (coherent_after (history ++ later)) hl hf hread hc e
      rw [← after_append_singleton, List.append_assoc] at hl' hc'
      refine ⟨l', hl', hpath'.trans hpath, hc', ?_⟩
      rw [List.count_append, List.count_singleton]
      simp only [beq_iff_eq]
      split at hstage <;> simp_all <;> omega

/-- The steps of one look-up in a row, as events of a session. -/
theorem after_replicate_advance {history : List Event} {i : Nat} {l : Lookup}
    (hi : (after history).lookups[i]? = some l) (n : Nat) :
    (after (history ++ List.replicate n (.advance i))).lookups[i]? =
      some (Lookup.steps (after history).memory.source n (l, (after history).workspace)).1 := by
  induction n generalizing history l with
  | zero => simpa [Lookup.steps] using hi
  | succ n ih =>
      have hlt := (List.getElem?_eq_some_iff.1 hi).1
      have hstep : after (history ++ [.advance i]) = { after history with
          workspace := (l.step (after history).memory.source (after history).workspace).2
          lookups := (after history).lookups.set i
            (l.step (after history).memory.source (after history).workspace).1 } := by
        rw [after_append_singleton]
        simp only [step, hi]
      have hnext : (after (history ++ [.advance i])).lookups[i]? =
          some (l.step (after history).memory.source (after history).workspace).1 := by
        rw [hstep]
        exact List.getElem?_set_self hlt
      rw [List.replicate_succ, List.append_cons, ih hnext, hstep]
      rfl

/-- In every order of steps a table comes from a text that its file held under a stamp at least as
new. A look-up during which no file changes is answered in five steps of its own with the table of
the present text, whatever happens to the other look-ups and tables meanwhile; and so is a look-up
made at one stroke. -/
theorem tables_coherent_in_every_order (history : List Event) :
    (∀ t ∈ (after history).workspace.tables,
      (after history).workspace.number? t.path = some t.file ∧
        ∃ f, Held history t.path f ∧ t.stamp.ticks ≤ f.stamp.ticks ∧
          t.declared = parse t.file f.text) ∧
    ∀ path f, (after history).memory.files.get? path = some f → f.unreadable = false →
      (∀ i later, (after history).lookups[i]? = some { path := path } →
        (∀ e ∈ later, e.isEdit = false) → 5 ≤ later.count (.advance i) →
        ∃ t, (after (history ++ later)).lookups[i]? = some ⟨path, .answered (.ok t)⟩ ∧
          (after (history ++ later)).workspace.number? path = some t.file ∧
          t.declared = parse t.file f.text) ∧
      ∀ watch, ∃ t,
        (Scan.table (after history).memory.source path ⟨(after history).workspace, watch⟩).1 =
          .ok t ∧ t.declared = parse t.file f.text := by
  refine ⟨(coherent_after history).tables, ?_⟩
  intro path f hf hread
  have answered : ∀ i earlier later, (after earlier).memory = (after history).memory →
      (after earlier).lookups[i]? = some { path := path } → (∀ e ∈ later, e.isEdit = false) →
      5 ≤ later.count (.advance i) →
      ∃ t, (after (earlier ++ later)).lookups[i]? = some ⟨path, .answered (.ok t)⟩ ∧
        (after (earlier ++ later)).workspace.number? path = some t.file ∧
        t.declared = parse t.file f.text := by
    intro i earlier later hmemory hi hlater hcount
    obtain ⟨l, hl, rfl, hc, hstage⟩ :=
      current_after_append hi (by rwa [hmemory]) hread hlater
    obtain ⟨path, progress⟩ := l
    cases progress with
    | answered result =>
        obtain ⟨t, rfl, hn, hd⟩ := hc
        exact ⟨t, hl, hn, hd⟩
    | _ => simp only [Lookup.stage] at hstage; omega
  refine ⟨fun i later => answered i history later rfl, ?_⟩
  intro watch
  have hi : (after (history ++ [.request path])).lookups[(after history).lookups.length]? =
      some { path := path } := by
    rw [after_append_singleton]
    simp [step]
  obtain ⟨t, ht, -, hd⟩ := answered _ (history ++ [.request path])
    (List.replicate 5 (.advance (after history).lookups.length))
    (memory_after_append history (by simp [Event.isEdit])) hi
    (by simp [Event.isEdit]) (by simp)
  rw [after_replicate_advance hi, after_append_singleton] at ht
  have hsteps := Lookup.steps_eq_table (after history).memory.source path
    ⟨(after history).workspace, watch⟩
  refine ⟨t, ?_, hd⟩
  simp only [step, hsteps] at ht
  simpa using ht

def overtaken : List Event :=
  [.edit (.set ⟨"a"⟩ "fn a() {}".toList), .request ⟨"a"⟩, .advance 0, .advance 0,
    .edit (.set ⟨"a"⟩ "fn b() {}".toList), .advance 0, .advance 0, .advance 0, .request ⟨"a"⟩]

theorem tables_coherent_overtaken :
    (after overtaken).workspace.tables.map FileTable.stamp = [⟨1⟩] ∧
    (after overtaken).memory.files.get? ⟨"a"⟩ = some ⟨⟨2⟩, "fn b() {}".toList, false⟩ ∧
    ∃ t, (after (overtaken ++ [.advance 1, .forget ⟨"a"⟩, .advance 1, .advance 1, .forgetAll,
        .advance 1, .advance 1])).lookups[1]? = some ⟨⟨"a"⟩, .answered (.ok t)⟩ ∧
      t.declared = parse t.file "fn b() {}".toList := by
  have hread : (after overtaken).memory.files.get? ⟨"a"⟩ =
      some ⟨⟨2⟩, "fn b() {}".toList, false⟩ := rfl
  obtain ⟨hnow, -⟩ := (tables_coherent_in_every_order overtaken).2 _ _ hread rfl
  obtain ⟨t, ht, -, hd⟩ := hnow 1 [.advance 1, .forget ⟨"a"⟩, .advance 1, .advance 1, .forgetAll,
    .advance 1, .advance 1] rfl (by decide) (by decide)
  exact ⟨rfl, hread, t, ht, hd⟩

end Session
end ProcedureIndex
