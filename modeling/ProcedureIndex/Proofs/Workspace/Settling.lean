import ProcedureIndex.Proofs.Symbol.Groups
import ProcedureIndex.Proofs.Workspace.Visits

/-!
What a path is going to show. A source that does not change has one stamp and one text for
a path, or none; a table that is as new as that stays, and any other gives way to the table
of the text. Questions do not change what a path is going to show, and once a scan has come
to every file, that is what it shows. File numbers do not matter here: two workspaces with
the same content under every path have the same tables but for the numbers.
-/

namespace ProcedureIndex

def Symbol.unfiled (s : Symbol) : Symbol :=
  { s with file := ⟨0⟩ }

theorem unfiled_parse (file file' : FileId) (cs : Text) :
    (parse file cs).map Symbol.unfiled = (parse file' cs).map Symbol.unfiled := by
  have hmap : ∀ symbols, (Declarations.ofSymbols symbols).map Symbol.unfiled =
      Declarations.ofSymbols (symbols.map Symbol.unfiled) := fun symbols =>
    (Declarations.ofSymbols_map (f := Symbol.unfiled) (fun _ => rfl) (fun _ => rfl) symbols).symm
  rw [parse, parse, hmap, hmap, List.map_map, List.map_map]
  rfl

/-- What a table says, however its file is numbered and its path is spelled. -/
def FileTable.content (t : FileTable) : List Text × Stamp × Declarations :=
  (t.path.parts, t.stamp, t.declared.map Symbol.unfiled)

theorem Workspace.content_tabulate (file file' : FileId) {p q : Path} (h : p.same q = true)
    (stamp : Stamp) (text : Text) :
    (tabulate file p stamp text).content = (tabulate file' q stamp text).content := by
  rw [FileTable.content, FileTable.content]
  simp only [tabulate, Path.same_iff.1 h, unfiled_parse file file' text]

/-- What a source has for a path, however it is spelled. -/
def Source.Offers (src : Source) (path : Path) : Option (Stamp × Text) → Prop
  | some (stamp, text) => src.Serves path stamp text
  | none => ∀ q : Path, q.same path = true → ∀ stamp, src.stamp q ≠ .ok stamp

namespace Workspace

/-- What a path is going to show with a source that offers this. -/
def outlook (w : Workspace) (path : Path) :
    Option (Stamp × Text) → Option (List Text × Stamp × Declarations)
  | none => (w.cached path).map FileTable.content
  | some (stamp, text) =>
      some (((w.cached path).filter fun t => !stamp.isNewerThan t.stamp).getD
        (tabulate ⟨0⟩ path stamp text)).content

variable {src : Source} {w w' : Workspace} {path : Path} {stamp : Stamp} {text : Text}

theorem outlook_of_cached {offered : Option (Stamp × Text)} (h : w'.cached path = w.cached path) :
    w'.outlook path offered = w.outlook path offered := by
  cases offered <;> simp only [outlook, h]

theorem outlook_of_fresh {t : FileTable} (ht : w.cached path = some t)
    (hle : stamp.ticks ≤ t.stamp.ticks) : w.outlook path (some (stamp, text)) = some t.content := by
  have hfresh : (!stamp.isNewerThan t.stamp) = true := by simpa [Stamp.isNewerThan] using hle
  simp only [outlook, ht, Option.filter_some, hfresh, if_true, Option.getD_some]

theorem outlook_of_stale (h : ∀ t, w.cached path = some t → t.stamp.ticks < stamp.ticks) :
    w.outlook path (some (stamp, text)) = some (tabulate ⟨0⟩ path stamp text).content := by
  have hnone : ((w.cached path).filter fun t => !stamp.isNewerThan t.stamp) = none := by
    rw [Option.filter_eq_none_iff]
    intro t ht
    simpa [Stamp.isNewerThan] using h t ht
  simp only [outlook, hnone, Option.getD_none]

theorem outlook_update (hw : w.WellFormed) {offered : Option (Stamp × Text)}
    (hsrc : src.Offers path offered) {q : Path} (hs : src.stamp q = .ok stamp)
    (ht : src.read q = .ok text) :
    (w.update q stamp text).2.outlook path offered = w.outlook path offered := by
  have hcached := cached_update hw q path stamp text
  by_cases hq : q.same path = true
  · rw [if_pos hq] at hcached
    cases offered with
    | none => exact absurd hs (hsrc q hq stamp)
    | some served =>
        obtain ⟨hs', ht'⟩ := hsrc q hq
        cases hs.symm.trans hs'
        cases ht.symm.trans ht'
        rcases update_cases hw q served.1 served.2 with ⟨t, hold, hle, he⟩ | ⟨hold, file, he⟩
        · apply outlook_of_cached
          rw [hcached, he, ← hold, cached_congr w hq]
        · rw [cached_congr w hq] at hold
          rw [he] at hcached
          have hnew : (w.update q served.1 served.2).2.outlook path (some served) =
              some (tabulate file q served.1 served.2).content :=
            outlook_of_fresh hcached (Nat.le_refl _)
          rw [hnew, outlook_of_stale hold, content_tabulate file ⟨0⟩ hq]
  · rw [if_neg hq] at hcached
    exact outlook_of_cached hcached

/-- Questions do not change what a path is going to show. -/
theorem Follows.outlook_eq (h : Follows src w w') (hw : w.WellFormed)
    {offered : Option (Stamp × Text)} (hsrc : src.Offers path offered) :
    w'.outlook path offered = w.outlook path offered := by
  induction h with
  | refl => rfl
  | number q hprev ih =>
      rw [outlook_of_cached (cached_number (hprev.wellFormed hw) q path), ih]
  | update hprev hs ht ih => rw [outlook_update (hprev.wellFormed hw) hsrc hs ht, ih]

/-- Two workspaces that show the same under every path have the same tables, numbers aside. -/
theorem content_perm (hw : w.WellFormed) (hw' : w'.WellFormed)
    (h : ∀ path, (w.cached path).map FileTable.content = (w'.cached path).map FileTable.content) :
    (w.tables.map FileTable.content).Perm (w'.tables.map FileTable.content) := by
  have hnodup : ∀ {v : Workspace}, v.WellFormed → (v.tables.map FileTable.content).Nodup := by
    intro v hv
    rw [List.Nodup, List.pairwise_map]
    refine hv.ordered.imp_of_mem ?_
    intro a b ha hb hlt he
    have hsame : a.path.same b.path = true := Path.same_iff.2 (congrArg Prod.fst he)
    have hnumber := hv.numbered a ha
    rw [number?_congr v hsame, hv.numbered b hb] at hnumber
    rw [Option.some.inj hnumber] at hlt
    exact Nat.lt_irrefl _ hlt
  have hmem : ∀ {v : Workspace}, v.WellFormed → ∀ {c},
      c ∈ v.tables.map FileTable.content ↔ ∃ p, (v.cached p).map FileTable.content = some c := by
    intro v hv c
    constructor
    · intro hc
      obtain ⟨t, ht, rfl⟩ := List.mem_map.1 hc
      exact ⟨t.path, by rw [cached_eq_some_of_mem hv ht]; rfl⟩
    · rintro ⟨p, hp⟩
      obtain ⟨t, ht, rfl⟩ := Option.map_eq_some_iff.1 hp
      exact List.mem_map_of_mem (mem_of_cached ht)
  rw [List.perm_ext_iff_of_nodup (hnodup hw) (hnodup hw')]
  intro c
  rw [hmem hw, hmem hw']
  simp only [h]

end Workspace

namespace Scan

open Workspace

variable {src : Source} {path : Path}

/-- After a scan that was not cancelled a path shows what it was going to show. -/
theorem content_cached_tablesOf {paths : List Path} {s : Scan} (hw : s.workspace.WellFormed)
    {offered : Option (Stamp × Text)} (hsrc : src.Offers path offered)
    (hmem : offered.isSome → ∃ q ∈ paths, q.same path = true)
    (hrun : (tablesOf src paths s).2.watch.cancelled = false) :
    ((tablesOf src paths s).2.workspace.cached path).map FileTable.content =
      s.workspace.outlook path offered := by
  rw [← (tablesOf_follows src paths s).outlook_eq hw hsrc]
  cases offered with
  | none => rfl
  | some served =>
      obtain ⟨q, hq, hsame⟩ := hmem rfl
      obtain ⟨seen, skipped, rfl, hleft, -, hcancelled⟩ := exists_visited src paths s
      have hall : skipped = [] := by
        by_contra hne
        rw [hcancelled hne] at hrun
        cases hrun
      rw [hall, List.append_nil] at hq
      obtain ⟨hs, ht⟩ := hsrc q hsame
      obtain ⟨t, hcached, hle⟩ := upToDate_visitAll hw hq served.1 served.2 hs ht
      rw [hleft]
      rw [cached_congr _ hsame] at hcached
      rw [outlook_of_fresh hcached hle, hcached, Option.map_some]

end Scan
end ProcedureIndex
