import ProcedureIndex.Navigation.Outline
import ProcedureIndex.Proofs.Diagnostic.DeclarationOrder
import ProcedureIndex.Proofs.Host.Invalidation
import ProcedureIndex.Proofs.Navigation.ReferenceSearch
import ProcedureIndex.Proofs.Workspace.Identity

/-!
The outline of a document and the listing of a workspace. An outline is sorted by line and
column; for the symbols of one text that is the order of the offsets of their names, whatever
groups the table keeps them in, and the sort is stable. A listing goes through the tables of
a snapshot, which stand by the numbers of their files.
-/

namespace ProcedureIndex

open Text

theorem Position.notAfter_iff_not_before {p q : Position} :
    p.notAfter q = true ↔ ¬ q.before p = true := by
  rw [notAfter_iff, before_iff]
  omega

namespace Grouping

variable {α : Type}

/-- Every place of the groups: a name and the place of a value under it. -/
def slots (g : Grouping α) : List (String × Nat) :=
  g.groups.flatMap fun b => (List.range b.2.length).map fun i => (b.1, i)

theorem slots_eq_of_nodup {g : Grouping α} (h : g.names.Nodup) :
    g.slots = g.names.flatMap fun name =>
      (List.range (g.bucket name).length).map fun i => (name, i) := by
  rw [slots, groups_eq_map_bucket h, List.flatMap_map]

theorem nodup_slots {g : Grouping α} (h : g.names.Nodup) : g.slots.Nodup := by
  rw [slots_eq_of_nodup h, List.Nodup, List.pairwise_flatMap]
  constructor
  · intro name _
    rw [List.pairwise_map]
    exact List.nodup_range.imp fun hne heq => hne (Prod.mk.inj heq).2
  · apply h.imp
    intro name name' hne p hp q hq heq
    obtain ⟨i, -, rfl⟩ := List.mem_map.1 hp
    obtain ⟨j, -, rfl⟩ := List.mem_map.1 hq
    exact hne (Prod.mk.inj heq).1

/-- The places, looked up, give every value in turn. -/
theorem map_get?_slots {g : Grouping α} (h : g.names.Nodup) :
    g.slots.map (fun p => g.get? p.1 p.2) = g.values.map some := by
  have hvalues : g.values = g.names.flatMap g.bucket := by
    rw [values, groups_eq_map_bucket h, List.flatMap_map]
  rw [slots_eq_of_nodup h, hvalues, List.map_flatMap, List.map_flatMap]
  apply List.flatMap_congr
  intro name _
  rw [List.map_map]
  apply List.ext_getElem
  · simp
  · intro i hi hi'
    simp [get?]

theorem bucket_eq_nil {g : Grouping α} {name : String} (h : name ∉ g.names) :
    g.bucket name = [] := by
  have hnone : g.groups.lookup name = none := by
    rw [List.lookup_eq_none_iff]
    intro b hb
    rw [bne_iff_ne]
    rintro rfl
    exact h (List.mem_map_of_mem hb)
  rw [bucket, hnone]
  rfl

theorem mem_slots_iff {g : Grouping α} (h : g.names.Nodup) {name : String} {i : Nat} :
    (name, i) ∈ g.slots ↔ (g.get? name i).isSome = true := by
  have hin : (g.get? name i).isSome = true ↔ i < (g.bucket name).length := by
    rw [get?, isSome_getElem?]
  rw [hin, slots_eq_of_nodup h, List.mem_flatMap]
  constructor
  · rintro ⟨name', -, hp⟩
    obtain ⟨j, hj, heq⟩ := List.mem_map.1 hp
    cases heq
    exact List.mem_range.1 hj
  · intro hi
    refine ⟨name, ?_, List.mem_map_of_mem (List.mem_range.2 hi)⟩
    by_contra hname
    rw [bucket_eq_nil hname] at hi
    exact Nat.not_lt_zero i hi

end Grouping

section Outline

variable {file : FileId} {path : Path} {stamp : Stamp} {cs : Text} {a b : Symbol}

/-- For symbols of one text, reading order is the order of the offsets of the names. -/
theorem notAfter_iff_of_mem_parse (ha : a ∈ (parse file cs).all) (hb : b ∈ (parse file cs).all) :
    a.position.notAfter b.position = true ↔ a.start ≤ b.start := by
  obtain ⟨x, hx, rfl⟩ := Site.exists_site_of_mem_parse ha
  obtain ⟨y, hy, rfl⟩ := Site.exists_site_of_mem_parse hb
  have hbefore := Site.position_before_iff (Site.named_of_mem_all hy) (Site.named_of_mem_all hx)
  rw [Position.notAfter_iff_not_before, ← Nat.not_lt]
  exact not_congr hbefore

/-- The symbols by the offsets of their names, those with one offset in the order of the table. -/
def byOffset (d : Declarations) : List Symbol :=
  d.all.mergeSort fun a b => a.start ≤ b.start

theorem documentOutline_eq :
    documentOutline (Workspace.tabulate file path stamp cs) =
      (byOffset (parse file cs)).map OutlineItem.ofSymbol := by
  symm
  apply List.map_mergeSort
  intro a ha b hb
  rw [Bool.eq_iff_iff, decide_eq_true_iff]
  exact (notAfter_iff_of_mem_parse ha hb).symm

theorem start_le_trans (a b c : Symbol) (hab : decide (a.start ≤ b.start) = true)
    (hbc : decide (b.start ≤ c.start) = true) : decide (a.start ≤ c.start) = true :=
  decide_eq_true (Nat.le_trans (of_decide_eq_true hab) (of_decide_eq_true hbc))

theorem start_le_total (a b : Symbol) :
    (decide (a.start ≤ b.start) || decide (b.start ≤ a.start)) = true := by
  rw [Bool.or_eq_true, decide_eq_true_iff, decide_eq_true_iff]
  exact Nat.le_total a.start b.start

theorem byOffset_pairwise (d : Declarations) :
    (byOffset d).Pairwise fun a b => a.start ≤ b.start :=
  (List.pairwise_mergeSort start_le_trans start_le_total d.all).imp of_decide_eq_true

/-- The sort is stable. -/
theorem filter_byOffset (d : Declarations) (n : Nat) :
    (byOffset d).filter (·.start = n) = d.all.filter (·.start = n) := by
  have hsame : (d.all.filter (·.start = n)).Pairwise
      fun a b => decide (a.start ≤ b.start) = true := by
    apply List.pairwise_of_forall_mem_list
    intro a ha b hb
    have hstart : a.start = n ∧ b.start = n :=
      ⟨of_decide_eq_true (List.mem_filter.1 ha).2, of_decide_eq_true (List.mem_filter.1 hb).2⟩
    exact decide_eq_true (by omega)
  have hsub := (List.sublist_mergeSort start_le_trans start_le_total hsame
    List.filter_sublist).filter fun s => decide (s.start = n)
  rw [List.filter_filter] at hsub
  simp only [Bool.and_self] at hsub
  exact (hsub.eq_of_length ((List.mergeSort_perm d.all _).filter _).length_eq.symm).symm

end Outline

/-- The empty text is in every name. -/
theorem searchSymbols_empty (w : Snapshot) :
    searchSymbols w "" = w.tables.flatMap fun t => t.declared.all.map OutlineItem.ofSymbol := by
  have hall : w.symbols.filter (fun s => includes (lowered s.name) (lowered "")) = w.symbols :=
    List.filter_eq_self.2 fun s _ => includes_append [] (lowered "") (lowered s.name)
  rw [searchSymbols, hall, Snapshot.symbols, List.map_flatMap]

theorem searchSymbols_sublist (w : Snapshot) (query : String) :
    (searchSymbols w query).Sublist (searchSymbols w "") := by
  have hall := searchSymbols_empty w
  rw [← List.map_flatMap] at hall
  rw [hall]
  exact List.filter_sublist.map OutlineItem.ofSymbol

namespace Host

theorem parsed_act {h : Host} (hp : h.workspace.Parsed) (base : Source) (op : Operation) :
    (h.act base op).workspace.Parsed := by
  cases op with
  | openDocument path stamp text => exact hp.update path stamp text
  | closeDocument path =>
      simp only [act, closeDocument]
      split
      · exact hp.forget path
      · exact hp
  | forget path => exact hp.forget path
  | reset => exact fun _ ht => absurd ht List.not_mem_nil
  | accept label context now => exact hp
  | ask query watch => exact (h.ask_spec base watch query).2.parsed hp
  | edit change => exact hp

theorem parsed_run {h : Host} (hp : h.workspace.Parsed) (history : List (Source × Operation)) :
    (h.run history).workspace.Parsed := by
  induction history generalizing h with
  | nil => exact hp
  | cons event rest ih => exact ih (parsed_act hp event.1 event.2)

end Host

namespace Snapshot

/-- The snapshots that are ever taken: of a workspace after some actions, or by a host after a
history of operations. -/
inductive Taken : Snapshot → Prop
  | ofWorkspace (actions : List Workspace.Action) : Taken (Workspace.after actions).snapshot
  | ofHost {config : Config} {start : Host} (hstart : Host.ofConfig config = .ok start)
      (history : List (Source × Operation)) (base : Source) (watch : Watch) :
      Taken ((start.run history).snapshot base watch).1

theorem Taken.exists_workspace {w : Snapshot} (h : w.Taken) :
    ∃ workspace : Workspace, w = workspace.snapshot ∧ workspace.WellFormed ∧
      workspace.Parsed := by
  cases h with
  | ofWorkspace actions =>
      have h := Workspace.identified_after actions
      exact ⟨_, rfl, h.wellFormed, h.parsed⟩
  | @ofHost config start hstart history base watch =>
      have hempty : start.workspace = {} := (Host.of_ofConfig hstart).2
      have hwell : start.workspace.WellFormed := hempty ▸ Workspace.wellFormed_empty
      have hparsed : start.workspace.Parsed := by
        rw [hempty]
        exact fun _ ht => absurd ht List.not_mem_nil
      have hfollows := (start.run history).snapshot_follows base watch
      exact ⟨_, rfl, hfollows.wellFormed (Host.wellFormed_run hwell history),
        hfollows.parsed (Host.parsed_run hparsed history)⟩

/-- Tables in the order of their files, each with symbols of its own file, list the symbols by
file. -/
theorem searchSymbols_pairwise {w : Snapshot}
    (hordered : w.tables.Pairwise fun a b => a.file.index < b.file.index)
    (hparsed : ∀ t ∈ w.tables, ∃ cs, t.declared = parse t.file cs) :
    (searchSymbols w "").Pairwise fun a b => a.file.index ≤ b.file.index := by
  have hfile : ∀ t ∈ w.tables, ∀ x ∈ t.declared.all.map OutlineItem.ofSymbol, x.file = t.file := by
    intro t ht x hx
    obtain ⟨s, hs, rfl⟩ := List.mem_map.1 hx
    obtain ⟨cs, hcs⟩ := hparsed t ht
    rw [hcs] at hs
    obtain ⟨site, -, rfl⟩ := Site.exists_site_of_mem_parse hs
    rfl
  rw [searchSymbols_empty, List.pairwise_flatMap]
  constructor
  · intro t ht
    apply List.pairwise_of_forall_mem_list
    intro a ha b hb
    rw [hfile t ht a ha, hfile t ht b hb]
  · apply hordered.imp_of_mem
    intro t t' ht ht' hlt a ha b hb
    rw [hfile t ht a ha, hfile t' ht' b hb]
    exact Nat.le_of_lt hlt

end Snapshot

def pipelineFirst : List Workspace.Action :=
  [.update ⟨"/b.method"⟩ ⟨1⟩ "pipeline b\nfn a() \x7b\x7d".toList,
    .update ⟨"/a.method"⟩ ⟨1⟩ "fn a() \x7b\x7d".toList]

end ProcedureIndex
