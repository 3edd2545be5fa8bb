import ProcedureIndex.Proofs.Host.Shadowing
import ProcedureIndex.Proofs.Workspace.Settling

/-!
A document that was open for a while. As long as files are only written, a path that is not
open is going to show what the files have for it, and one without a file shows nothing.
Closing a document forgets its table, so the next snapshot is the same as if the document
had never been opened, whatever stamp it had and whatever was asked meanwhile.
-/

namespace ProcedureIndex

/-- Does the operation leave every file in its place and readable? -/
def Operation.sparesFiles : Operation → Bool
  | .edit (.remove _) | .edit (.markUnreadable _) => false
  | _ => true

namespace Memory

def stored (m : Memory) (path : Path) : Option (Stamp × Text) :=
  (m.files.get? path).map fun f => (f.stamp, f.text)

/-- Every file can be read, and none has a stamp that the clock has not shown yet. -/
structure Legible (m : Memory) : Prop where
  readable : ∀ {path f}, m.files.get? path = some f → f.unreadable = false
  ticked : ∀ {path f}, m.files.get? path = some f → f.stamp.ticks ≤ m.clock.ticks

section Writing

variable {m : Memory} {e : Edit}

/-- To write or touch a file leaves a path as it was, or the path has a file with the time that the
clock shows then. -/
theorem file_of_sparing (h : m.Legible) (he : (Operation.edit e).sparesFiles = true)
    (path : Path) :
    (m.edit e).files.get? path = m.files.get? path ∨
      ∃ f, (m.edit e).files.get? path = some f ∧ f.unreadable = false ∧
        f.stamp = (m.edit e).clock ∧ m.clock.ticks < f.stamp.ticks := by
  cases e with
  | set p text =>
      rcases m.get?_edit_set p path text with hsame | ⟨hnewer, hnew⟩
      · exact .inl hsame
      · exact .inr ⟨_, hnew, rfl, rfl, hnewer⟩
  | touch p =>
      rcases m.get?_edit_touch p path with hsame | ⟨hnewer, hnew⟩
      · exact .inl hsame
      · cases hf : m.files.get? path with
        | none =>
            rw [hf] at hnew
            exact .inl hnew
        | some f =>
            have hread : f.unreadable = false := h.readable hf
            rw [hf] at hnew
            exact .inr ⟨_, hnew, hread, rfl, hnewer⟩
  | remove p | markUnreadable p => cases he

theorem Legible.edit (h : m.Legible) (he : (Operation.edit e).sparesFiles = true) :
    (m.edit e).Legible where
  readable {path f} hf := by
    rcases file_of_sparing h he path with hsame | ⟨g, hg, hread, -, -⟩
    · exact h.readable (hsame ▸ hf)
    · cases hf.symm.trans hg
      exact hread
  ticked {path f} hf := by
    rcases file_of_sparing h he path with hsame | ⟨g, hg, -, hstamp, -⟩
    · exact Nat.le_trans (h.ticked (hsame ▸ hf)) (m.clock_le_clock_edit e)
    · cases hf.symm.trans hg
      exact Nat.le_of_eq (congrArg Stamp.ticks hstamp)

theorem stored_edit (h : m.Legible) (he : (Operation.edit e).sparesFiles = true) (path : Path) :
    (m.edit e).stored path = m.stored path ∨
      ∃ stamp text, (m.edit e).stored path = some (stamp, text) ∧
        m.clock.ticks < stamp.ticks := by
  rcases file_of_sparing h he path with hsame | ⟨f, hf, -, -, hnewer⟩
  · exact .inl (by rw [stored, stored, hsame])
  · exact .inr ⟨f.stamp, f.text, by rw [stored, hf]; rfl, hnewer⟩

end Writing

/-- What a workspace would show of a file, numbers aside. -/
def content? (m : Memory) (path : Path) : Option (List Text × Stamp × Declarations) :=
  (m.stored path).map fun entry => (Workspace.tabulate ⟨0⟩ path entry.1 entry.2).content

end Memory

namespace Host

/-- What a path has, a document that is open before a file. -/
def served (h : Host) (m : Memory) (path : Path) : Option (Stamp × Text) :=
  match h.opened.get? path with
  | some doc => some (doc.stamp, doc.text)
  | none => m.stored path

theorem source_offers {m : Memory} (hm : m.Legible) (h : Host) (path : Path) :
    (h.source m.source).Offers path (h.served m path) := by
  rw [served]
  cases hopen : h.opened.get? path with
  | some doc => exact source_serves hopen m.source
  | none =>
      have hbase : ∀ q : Path, q.same path = true →
          (h.source m.source).stamp q = m.source.stamp q ∧
            (h.source m.source).read q = m.source.read q := by
        intro q hq
        rw [← PathMap.get?_congr _ hq] at hopen
        simp only [source, Source.overlaid, hopen]
        exact ⟨trivial, trivial⟩
      cases hf : m.files.get? path with
      | some f =>
          simp only [Memory.stored, hf, Option.map_some]
          intro q hq
          rw [(hbase q hq).1, (hbase q hq).2]
          rw [← PathMap.get?_congr _ hq] at hf
          exact ⟨Memory.stamp_eq_ok_iff.2 ⟨f, hf, rfl⟩,
            Memory.read_eq_ok_iff.2 ⟨f, hf, hm.readable hf, rfl⟩⟩
      | none =>
          simp only [Memory.stored, hf, Option.map_none]
          intro q hq stamp hs
          rw [(hbase q hq).1] at hs
          obtain ⟨f, hsome, -⟩ := Memory.stamp_eq_ok_iff.1 hs
          rw [PathMap.get?_congr _ hq, hf] at hsome
          cases hsome

/-- The files that the host finds: those in memory and the open documents without a file. -/
def discovered (h : Host) (m : Memory) : List Path :=
  m.files.paths ++ h.opened.paths.filter fun p => !m.files.paths.any (·.same p)

theorem exists_discovered_of_served {h : Host} {m : Memory} {path : Path}
    (hserved : (h.served m path).isSome) : ∃ q ∈ h.discovered m, q.same path = true := by
  rw [served] at hserved
  cases hopen : h.opened.get? path with
  | some doc =>
      have hbase : m.source.discover = .ok m.files.paths := rfl
      obtain ⟨all, hall, hmem⟩ := exists_discovered hopen hbase
      cases hall
      exact hmem
  | none =>
      rw [hopen] at hserved
      obtain ⟨entry, hentry⟩ := Option.isSome_iff_exists.1 hserved
      obtain ⟨f, hf, -⟩ := Option.map_eq_some_iff.1 hentry
      obtain ⟨q, hq, hsame⟩ := PathMap.exists_mem_paths hf
      exact ⟨q, List.mem_append_left _ hq, hsame⟩

/-- A snapshot that was not cancelled shows what was to be expected. -/
theorem content_cached_snapshot {h : Host} (hw : h.workspace.WellFormed) {m : Memory}
    (hm : m.Legible) {watch : Watch} (hrun : (h.snapshot m.source watch).2.2.cancelled = false)
    (path : Path) :
    ((h.snapshot m.source watch).2.1.workspace.cached path).map FileTable.content =
      h.workspace.outlook path (h.served m path) := by
  have hscan : Scan.tables (h.source m.source) ⟨h.workspace, watch⟩ =
      Scan.tablesOf (h.source m.source) (h.discovered m) ⟨h.workspace, watch⟩ := rfl
  change (Scan.tables (h.source m.source) ⟨h.workspace, watch⟩).2.watch.cancelled = false at hrun
  change ((Scan.tables (h.source m.source) ⟨h.workspace, watch⟩).2.workspace.cached path).map _ = _
  rw [hscan] at hrun ⊢
  exact Scan.content_cached_tablesOf hw (source_offers hm h path) exists_discovered_of_served hrun

def askAll (h : Host) (base : Source) (asked : List (Query × Watch)) : Host :=
  asked.foldl (fun h q => h.ask base q.2 q.1) h

theorem askAll_spec (h : Host) (base : Source) (asked : List (Query × Watch)) :
    (h.askAll base asked).opened = h.opened ∧
      Workspace.Follows (h.source base) h.workspace (h.askAll base asked).workspace := by
  induction asked generalizing h with
  | nil => exact ⟨rfl, .refl⟩
  | cons q rest ih =>
      obtain ⟨hopened, hfollows⟩ := h.ask_spec base q.2 q.1
      obtain ⟨hopened', hfollows'⟩ := ih (h.ask base q.2 q.1)
      rw [source, hopened] at hfollows'
      exact ⟨hopened'.trans hopened, hfollows.trans hfollows'⟩

end Host

theorem Workspace.outlook_of_none {w : Workspace} {path : Path} (h : w.cached path = none)
    (m : Memory) : w.outlook path (m.stored path) = m.content? path := by
  rw [Memory.content?]
  cases m.stored path with
  | none => simp only [outlook, h, Option.map_none]
  | some entry => exact outlook_of_stale (by simp [h])

/-- A path whose table is forgotten is going to show what the files have for it. -/
theorem Workspace.outlook_forget {w : Workspace} {p path : Path} {m : Memory}
    (h : p.same path = false → w.outlook path (m.stored path) = m.content? path) :
    (w.forget p).outlook path (m.stored path) = m.content? path := by
  have hcached := w.cached_forget p path
  by_cases hp : p.same path = true
  · rw [if_pos hp] at hcached
    exact outlook_of_none hcached m
  · rw [if_neg hp] at hcached
    exact (outlook_of_cached hcached).trans (h (Bool.eq_false_iff.2 hp))

namespace Desk

/-- A path that is not open is going to show what the files have for it. -/
structure Tended (d : Desk) : Prop where
  wellFormed : d.host.workspace.WellFormed
  legible : d.memory.Legible
  outlook : ∀ {path}, d.host.opened.get? path = none →
    d.host.workspace.outlook path (d.memory.stored path) = d.memory.content? path

theorem Tended.stamp_le_clock {d : Desk} (h : d.Tended) {path : Path}
    (hclosed : d.host.opened.get? path = none) {t : FileTable}
    (ht : d.host.workspace.cached path = some t) : t.stamp.ticks ≤ d.memory.clock.ticks := by
  have hshown := h.outlook hclosed
  cases hf : d.memory.files.get? path with
  | none =>
      simp only [Memory.content?, Memory.stored, hf, Option.map_none, Workspace.outlook, ht,
        Option.map_some] at hshown
      cases hshown
  | some f =>
      apply Nat.le_trans ?_ (h.legible.ticked hf)
      by_contra hnewer
      simp only [Memory.content?, Memory.stored, hf, Option.map_some] at hshown
      rw [Workspace.outlook_of_fresh ht (Nat.le_of_lt (Nat.lt_of_not_le hnewer))] at hshown
      have hstamp : t.stamp = f.stamp := congrArg (fun c => c.2.1) (Option.some.inj hshown)
      exact hnewer (Nat.le_of_eq (congrArg Stamp.ticks hstamp))

section Steps

variable {d : Desk} {p path : Path}

theorem Tended.outlook_openDocument (h : d.Tended) {stamp : Stamp} {text : Text}
    (hclosed : (d.step (.openDocument p stamp text)).host.opened.get? path = none) :
    (d.step (.openDocument p stamp text)).host.workspace.outlook path (d.memory.stored path) =
      d.memory.content? path := by
  rw [opened_step] at hclosed
  have hp : ¬ p.same path = true := by
    intro hp
    simp [hp] at hclosed
  simp only [hp] at hclosed
  have hcached := Workspace.cached_update h.wellFormed p path stamp text
  rw [if_neg hp] at hcached
  exact (Workspace.outlook_of_cached hcached).trans (h.outlook hclosed)

/-- A path that was open has its table forgotten; any other was closed before. -/
theorem Tended.outlook_closeDocument (h : d.Tended)
    (hclosed : (d.step (.closeDocument p)).host.opened.get? path = none) :
    (d.step (.closeDocument p)).host.workspace.outlook path (d.memory.stored path) =
      d.memory.content? path := by
  rw [opened_step] at hclosed
  have hother : p.same path = false →
      d.host.workspace.outlook path (d.memory.stored path) = d.memory.content? path := by
    intro hp
    simp only [hp] at hclosed
    exact h.outlook hclosed
  simp only [Desk.step, Host.closeDocument]
  split
  · exact Workspace.outlook_forget hother
  · next hopen =>
      by_cases hp : p.same path = true
      · rw [PathMap.contains_eq_isSome, PathMap.get?_congr _ hp] at hopen
        exact h.outlook (Option.not_isSome_iff_eq_none.1 hopen)
      · exact hother (Bool.eq_false_iff.2 hp)

theorem Tended.outlook_ask (h : d.Tended) (query : Query) (watch : Watch)
    (hclosed : d.host.opened.get? path = none) :
    (d.step (.ask query watch)).host.workspace.outlook path (d.memory.stored path) =
      d.memory.content? path := by
  obtain ⟨-, hfollows⟩ := d.host.ask_spec d.memory.source watch query
  have hsrc := Host.source_offers h.legible d.host path
  rw [Host.served, show d.host.opened.get? path = none from hclosed] at hsrc
  exact (hfollows.outlook_eq h.wellFormed hsrc).trans (h.outlook hclosed)

/-- What an edit stores is newer than the table of its path. -/
theorem Tended.outlook_edit (h : d.Tended) {change : Edit}
    (hop : (Operation.edit change).sparesFiles = true)
    (hclosed : d.host.opened.get? path = none) :
    d.host.workspace.outlook path ((d.memory.edit change).stored path) =
      (d.memory.edit change).content? path := by
  rcases Memory.stored_edit h.legible hop path with hsame | ⟨stamp, text, hentry, hnewer⟩
  · rw [Memory.content?, hsame]
    exact h.outlook hclosed
  · rw [Memory.content?, hentry]
    apply Workspace.outlook_of_stale
    intro t ht
    exact Nat.lt_of_le_of_lt (h.stamp_le_clock hclosed ht) hnewer

theorem Tended.step (h : d.Tended) {op : Operation} (hop : op.sparesFiles = true) :
    (d.step op).Tended where
  wellFormed := wellFormed_step h.wellFormed op
  legible := by
    cases op with
    | edit change => exact h.legible.edit hop
    | _ => exact h.legible
  outlook {path} hclosed := by
    cases op with
    | openDocument p stamp text => exact h.outlook_openDocument hclosed
    | closeDocument p => exact h.outlook_closeDocument hclosed
    | ask query watch => exact h.outlook_ask query watch (by rwa [opened_step] at hclosed)
    | edit change => exact h.outlook_edit hop hclosed
    | forget p => exact Workspace.outlook_forget fun _ => h.outlook hclosed
    | reset => exact Workspace.outlook_of_none (Workspace.cached_forgetAll _ path) d.memory
    | accept label context now => exact h.outlook hclosed

end Steps

theorem tended_after {config : Config} {start : Host} (hstart : Host.ofConfig config = .ok start)
    {ops : List Operation} (hops : ∀ op ∈ ops, op.sparesFiles = true) :
    (after start ops).Tended := by
  induction ops using List.reverseRecOn with
  | nil =>
      have hempty : ∀ path, start.workspace.cached path = none := by
        intro path
        rw [(Host.of_ofConfig hstart).2]
        rfl
      refine ⟨wellFormed_after hstart [], ⟨?_, ?_⟩, ?_⟩
      · intro path f hf
        cases hf
      · intro path f hf
        cases hf
      · intro path _
        exact Workspace.outlook_of_none (hempty path) {}
  | append_singleton ops op ih =>
      rw [after_append_singleton]
      apply (ih fun x hx => hops x (List.mem_append_left _ hx)).step
      exact hops op (List.mem_append_right _ (List.mem_singleton.2 rfl))

end Desk

namespace Host

/-- The host after a document was open for a while, with some questions in between. -/
def openFor (h : Host) (base : Source) (path : Path) (stamp : Stamp) (text : Text)
    (asked : List (Query × Watch)) : Host :=
  ((h.openDocument path stamp text).2.askAll base asked).closeDocument path

variable {h : Host} {path : Path}

/-- Closing forgets the document and its table and leaves the rest as the questions left it. -/
theorem openFor_spec (h : Host) (base : Source) (path : Path) (stamp : Stamp) (text : Text)
    (asked : List (Query × Watch)) :
    (h.openFor base path stamp text asked).opened =
        (h.opened.insert path ⟨stamp, text⟩).erase path ∧
      (h.openFor base path stamp text asked).workspace =
        ((h.openDocument path stamp text).2.askAll base asked).workspace.forget path := by
  have hopened : ((h.openDocument path stamp text).2.askAll base asked).opened =
      h.opened.insert path ⟨stamp, text⟩ := (askAll_spec _ base asked).1
  have hopen : ((h.openDocument path stamp text).2.askAll base asked).opened.contains path =
      true := by
    rw [hopened, PathMap.contains_eq_isSome, PathMap.get?_insert, if_pos (Path.same_refl path)]
    rfl
  rw [openFor, closeDocument, if_pos hopen, ← hopened]
  exact ⟨rfl, rfl⟩

theorem served_openFor (hclosed : h.opened.get? path = none) (m : Memory) (stamp : Stamp)
    (text : Text) (asked : List (Query × Watch)) (q : Path) :
    (h.openFor m.source path stamp text asked).served m q = h.served m q := by
  have hopened : (h.openFor m.source path stamp text asked).opened.get? q = h.opened.get? q := by
    rw [(h.openFor_spec m.source path stamp text asked).1, PathMap.get?_erase]
    split
    · next hq => rw [← PathMap.get?_congr _ hq, hclosed]
    · next hq => rw [PathMap.get?_insert, if_neg hq]
  rw [served, served, hopened]

theorem outlook_askAll (hw : h.workspace.WellFormed) {m : Memory} (hm : m.Legible)
    (asked : List (Query × Watch)) (q : Path) :
    (h.askAll m.source asked).workspace.outlook q (h.served m q) =
      h.workspace.outlook q (h.served m q) :=
  (h.askAll_spec m.source asked).2.outlook_eq hw (source_offers hm h q)

/-- What another path is going to show does not depend on the document. -/
theorem outlook_openFor (hw : h.workspace.WellFormed) {m : Memory} (hm : m.Legible)
    (stamp : Stamp) (text : Text) (asked : List (Query × Watch)) {q : Path}
    (hq : ¬ path.same q = true) :
    (h.openFor m.source path stamp text asked).workspace.outlook q (h.served m q) =
      h.workspace.outlook q (h.served m q) := by
  have hserved : (h.openDocument path stamp text).2.served m q = h.served m q := by
    simp only [served, openDocument, PathMap.get?_insert, if_neg hq]
  have hupdate := Workspace.cached_update hw path q stamp text
  have hforget := ((h.openDocument path stamp text).2.askAll m.source
    asked).workspace.cached_forget path q
  rw [if_neg hq] at hupdate hforget
  rw [(h.openFor_spec m.source path stamp text asked).2, Workspace.outlook_of_cached hforget,
    ← hserved, outlook_askAll (hw.update path stamp text) hm asked q]
  exact Workspace.outlook_of_cached hupdate

end Host

namespace Desk

/-- No path is going to show anything else after a document was open for a while. -/
theorem Tended.outlook_openFor {d : Desk} (hd : d.Tended) {path : Path}
    (hclosed : d.host.opened.get? path = none) (stamp : Stamp) (text : Text)
    (asked : List (Query × Watch)) (q : Path) :
    (d.host.openFor d.memory.source path stamp text asked).workspace.outlook q
        (d.host.served d.memory q) =
      d.host.workspace.outlook q (d.host.served d.memory q) := by
  by_cases hq : path.same q = true
  · have hforgot : (d.host.openFor d.memory.source path stamp text asked).workspace.cached q =
        none := by
      rw [(d.host.openFor_spec d.memory.source path stamp text asked).2,
        Workspace.cached_forget, if_pos hq]
    have hfile : d.host.opened.get? q = none := by rw [← PathMap.get?_congr _ hq, hclosed]
    have hentry : d.host.served d.memory q = d.memory.stored q := by rw [Host.served, hfile]
    rw [hentry, Workspace.outlook_of_none hforgot, hd.outlook hfile]
  · exact Host.outlook_openFor hd.wellFormed hd.legible stamp text asked hq

/-- A document that was opened and closed leaves no trace. Where files are only written, a snapshot
taken after the document is closed has the tables that it has if the document is never opened,
numbers aside, whatever is asked in either case. -/
theorem snapshot_after_closing {config : Config} {start : Host}
    (hstart : Host.ofConfig config = .ok start) {ops : List Operation}
    (hops : ∀ op ∈ ops, op.sparesFiles = true) {path : Path}
    (hclosed : (after start ops).host.opened.get? path = none) (stamp : Stamp) (text : Text)
    (asked other : List (Query × Watch)) (watch watch' : Watch)
    (hrun : (((after start ops).host.openFor (after start ops).memory.source path stamp text
      asked).snapshot (after start ops).memory.source watch).2.2.cancelled = false)
    (hrun' : (((after start ops).host.askAll (after start ops).memory.source other).snapshot
      (after start ops).memory.source watch').2.2.cancelled = false) :
    let d := after start ops
    let closed := d.host.openFor d.memory.source path stamp text asked
    let untouched := d.host.askAll d.memory.source other
    ((closed.snapshot d.memory.source watch).1.tables.map FileTable.content).Perm
      ((untouched.snapshot d.memory.source watch').1.tables.map FileTable.content) := by
  intro d closed untouched
  have hd : d.Tended := tended_after hstart hops
  have hwell : closed.workspace.WellFormed := by
    rw [(d.host.openFor_spec d.memory.source path stamp text asked).2]
    apply Workspace.WellFormed.forget
    exact (Host.askAll_spec _ d.memory.source asked).2.wellFormed
      (hd.wellFormed.update path stamp text)
  have hwell' : untouched.workspace.WellFormed :=
    (d.host.askAll_spec d.memory.source other).2.wellFormed hd.wellFormed
  have hshown : ∀ q, ((closed.snapshot d.memory.source watch).2.1.workspace.cached q).map
      FileTable.content = d.host.workspace.outlook q (d.host.served d.memory q) := by
    intro q
    rw [Host.content_cached_snapshot hwell hd.legible hrun q,
      Host.served_openFor hclosed d.memory stamp text asked q,
      hd.outlook_openFor hclosed stamp text asked q]
  have hshown' : ∀ q, ((untouched.snapshot d.memory.source watch').2.1.workspace.cached q).map
      FileTable.content = d.host.workspace.outlook q (d.host.served d.memory q) := by
    intro q
    have hserved : untouched.served d.memory q = d.host.served d.memory q := by
      simp only [Host.served, untouched, (d.host.askAll_spec d.memory.source other).1]
    rw [Host.content_cached_snapshot hwell' hd.legible hrun' q, hserved,
      Host.outlook_askAll hd.wellFormed hd.legible other q]
  exact Workspace.content_perm ((closed.snapshot_follows d.memory.source watch).wellFormed hwell)
    ((untouched.snapshot_follows d.memory.source watch').wellFormed hwell')
    fun q => (hshown q).trans (hshown' q).symm

def writtenTwice : List Operation :=
  [.edit (.set ⟨"/a.method"⟩ "fn old() \x7b\x7d".toList), .ask .snapshot {},
    .edit (.set ⟨"/a.method"⟩ "fn new() \x7b\x7d".toList)]

theorem snapshot_after_closing_draft :
    let d := after standardHost writtenTwice
    let draft := (d.host.openDocument ⟨"/a.method"⟩ ⟨9⟩ "fn draft() \x7b\x7d".toList).2
    let asked : List (Query × Watch) := [(.snapshot, {})]
    let closed :=
      d.host.openFor d.memory.source ⟨"/a.method"⟩ ⟨9⟩ "fn draft() \x7b\x7d".toList asked
    let untouched := d.host.askAll d.memory.source [(.search "draft", {})]
    (∀ op ∈ writtenTwice, op.sparesFiles = true) ∧
      d.host.opened.get? ⟨"/a.method"⟩ = none ∧
      (draft.askAll d.memory.source asked).workspace.tables.map FileTable.stamp = [⟨9⟩] ∧
      ((closed.snapshot d.memory.source {}).1.tables.map FileTable.content).Perm
        ((untouched.snapshot d.memory.source {}).1.tables.map FileTable.content) := by
  have hstart : Host.ofConfig {} = .ok standardHost := rfl
  have hops : ∀ op ∈ writtenTwice, op.sparesFiles = true := by
    simp [writtenTwice, Operation.sparesFiles]
  have hclosed : (after standardHost writtenTwice).host.opened.get? ⟨"/a.method"⟩ = none := rfl
  dsimp only
  refine ⟨hops, hclosed, by decide +kernel, ?_⟩
  apply snapshot_after_closing hstart hops hclosed
  · decide +kernel
  · decide +kernel

end Desk
end ProcedureIndex
