import ProcedureIndex.Proofs.Workspace.Cancellation
import ProcedureIndex.Proofs.Workspace.WarmUp

/-!
The files that a source discovers, by their paths. Behind a directory every name on the way to
a file is a part of its own, so that no two files of a disk have one path, and no file has two
texts.
-/

namespace ProcedureIndex

namespace Path

theorem segments_ne_nil (cs : Text) : segments cs ≠ [] := by
  cases cs with
  | nil => exact List.cons_ne_nil _ _
  | cons c cs =>
      rw [segments]
      split
      · exact List.cons_ne_nil _ _
      · split <;> exact List.cons_ne_nil _ _

theorem segments_append_slash (a b : Text) :
    segments (a ++ '/' :: b) = segments a ++ segments b := by
  induction a with
  | nil => rfl
  | cons c a ih =>
      rw [List.cons_append, segments, segments, ih]
      split
      · rfl
      · cases h : segments a with
        | nil => exact absurd h (segments_ne_nil a)
        | cons s ss => rfl

theorem segments_of_not_mem {name : Text} (h : '/' ∉ name) : segments name = [name] := by
  induction name with
  | nil => rfl
  | cons c name ih =>
      rw [List.mem_cons, not_or] at h
      rw [segments, if_neg (Ne.symm h.1), ih h.2]

theorem eq_nil_of_segments {cs : Text} (h : segments cs = [[]]) : cs = [] := by
  cases cs with
  | nil => rfl
  | cons c cs =>
      rw [segments] at h
      split at h
      · exact absurd (List.cons.inj h).2 (segments_ne_nil cs)
      · split at h <;> cases h

/-- A segment that is a part wherever it stands. -/
structure IsEntryName (name : Text) : Prop where
  slashFree : '/' ∉ name
  kept : isIdle name = false

instance (name : Text) : Decidable (IsEntryName name) :=
  decidable_of_iff ('/' ∉ name ∧ isIdle name = false)
    ⟨fun h => ⟨h.1, h.2⟩, fun h => ⟨h.slashFree, h.kept⟩⟩

/-- The parts of a path, by its segments: slashes in front of it are one part. -/
theorem parts_of_segments {p : Path} {first : Text} {rest : List Text}
    (h : segments p.text.toList = first :: rest) (hne : first = [] → rest ≠ []) :
    p.parts = (if first == [] then ['/'] else first) :: rest.filter (!isIdle ·) := by
  rw [parts, h]
  dsimp only
  split
  · next hfirst =>
      have hrest := hne (eq_of_beq hfirst)
      rw [if_neg (by simpa using hrest)]
  · rfl

theorem parts_join {p : Path} {name : Text} (hp : p.text.toList ≠ []) (h : IsEntryName name) :
    (p.join name).parts = p.parts ++ [name] := by
  have hkept : [name].filter (!isIdle ·) = [name] := List.filter_cons_of_pos (by simp [h.kept])
  have hjoined : ∀ init : Text, (p.join name).text.toList = init ++ '/' :: name →
      segments (p.join name).text.toList = segments init ++ [name] := by
    intro init hinit
    rw [hinit, segments_append_slash, segments_of_not_mem h.slashFree]
  by_cases hslash : p.text.toList.getLast? = some '/'
  · obtain ⟨init, hinit⟩ := List.getLast?_eq_some_iff.1 hslash
    have hbase : segments p.text.toList = segments init ++ [[]] := by
      rw [hinit, segments_append_slash]
      rfl
    have hjoin := hjoined init (by simp [join, hinit])
    obtain ⟨first, more, hsegments⟩ := List.exists_cons_of_ne_nil (segments_ne_nil init)
    rw [hsegments, List.cons_append] at hbase hjoin
    have hidle : [[]].filter (!isIdle ·) = ([] : List Text) := rfl
    rw [parts_of_segments hbase (by simp), parts_of_segments hjoin (by simp), List.filter_append,
      List.filter_append, hkept, hidle, List.append_nil, List.cons_append]
  · obtain ⟨first, more, hsegments⟩ := List.exists_cons_of_ne_nil (segments_ne_nil p.text.toList)
    have hjoin := hjoined p.text.toList (by simp [join, hslash])
    have hmore : first = [] → more ≠ [] := by
      rintro rfl rfl
      exact hp (eq_nil_of_segments hsegments)
    rw [hsegments, List.cons_append] at hjoin
    rw [parts_of_segments hsegments hmore, parts_of_segments hjoin (by simp), List.filter_append,
      hkept]
    rfl

theorem join_ne_nil (p : Path) (name : Text) (hp : p.text.toList ≠ []) :
    (p.join name).text.toList ≠ [] := by
  rw [join]
  split <;> simp [hp]

/-- The names behind a directory are the last parts of a path. -/
theorem parts_foldl_join {names : List Text} (h : ∀ name ∈ names, IsEntryName name) {p : Path}
    (hp : p.text.toList ≠ []) : (names.foldl join p).parts = p.parts ++ names := by
  induction names generalizing p with
  | nil => exact (List.append_nil _).symm
  | cons name names ih =>
      obtain ⟨hname, hnames⟩ := List.forall_mem_cons.1 h
      rw [List.foldl_cons, ih hnames (p.join_ne_nil name hp), parts_join hp hname,
        List.append_assoc, List.singleton_append]

end Path

namespace Disk

variable {d : Disk} {config : Config}

/-- The files of a disk have names that can stand in a path. -/
def Named (d : Disk) : Prop :=
  ∀ e ∈ d.files, ∀ name ∈ e.1, Path.IsEntryName name

instance (d : Disk) : Decidable d.Named :=
  inferInstanceAs (Decidable (∀ e ∈ d.files, ∀ name ∈ e.1, Path.IsEntryName name))

theorem ne_nil_of_find {path : Path} {route : Route} (h : d.find path = .directory route) :
    path.text.toList ≠ [] := by
  intro hnil
  have hempty : path.text.isEmpty = true := by
    rw [String.isEmpty_iff, ← String.toList_eq_nil_iff, hnil]
  rw [find, refusal?, if_pos hempty] at h
  cases h

/-- No two files of a disk have the same path. -/
theorem eq_of_same_of_mem_paths (hd : d.Named) {p q : Path} (hp : p ∈ (d.source config).paths)
    (hq : q ∈ (d.source config).paths) (h : p.same q = true) : p = q := by
  cases hroot : d.find d.root with
  | directory route =>
      obtain ⟨routes, hperm, -, hsources⟩ := exists_walk hroot config
      have hpaths : (d.source config).paths =
          (routes.map (spell d.root route)).filter config.isSource := by
        rw [Source.paths, source, hsources]
        rfl
      have hspelled : ∀ {x}, x ∈ (d.source config).paths → ∃ names : List Text,
          x = names.foldl Path.join d.root ∧ x.parts = d.root.parts ++ names := by
        intro x hx
        rw [hpaths] at hx
        obtain ⟨r, hr, rfl⟩ := List.mem_map.1 (List.mem_filter.1 hx).1
        obtain ⟨e, he, rfl⟩ := List.mem_map.1 (List.mem_filter.1 (hperm.mem_iff.1 hr)).1
        refine ⟨_, rfl, Path.parts_foldl_join ?_ (ne_nil_of_find hroot)⟩
        intro name hname
        exact hd e he name (List.mem_of_mem_drop hname)
      obtain ⟨names, rfl, hparts⟩ := hspelled hp
      obtain ⟨names', rfl, hparts'⟩ := hspelled hq
      rw [Path.same_iff, hparts, hparts'] at h
      rw [List.append_cancel_left h]
  | file route f =>
      simp [Source.paths, source, sources, hroot, Except.toOption] at hp
  | missing cause =>
      simp [Source.paths, source, sources, hroot, Except.toOption] at hp

theorem uniform_source (hd : d.Named) (config : Config) : (d.source config).Uniform := by
  intro p hp q hq hpq stamp text hs hr
  rw [← eq_of_same_of_mem_paths hd hp hq hpq]
  exact ⟨hs, hr⟩

end Disk

end ProcedureIndex
