/-!
Values grouped under names. Groups stand in the order in which their names were
first used, and the values of a group in the order in which they came.
-/

namespace ProcedureIndex

structure Grouping (α : Type) where
  groups : List (String × List α) := []
  deriving DecidableEq, Repr

namespace Grouping

variable {α : Type}

def bucket (g : Grouping α) (name : String) : List α :=
  (g.groups.lookup name).getD []

/-- The names in order of first use. -/
def names (g : Grouping α) : List String :=
  g.groups.map Prod.fst

def values (g : Grouping α) : List α :=
  g.groups.flatMap Prod.snd

def size (g : Grouping α) : Nat :=
  g.values.length

def isEmpty (g : Grouping α) : Bool :=
  g.groups.isEmpty

def get? (g : Grouping α) (name : String) (index : Nat) : Option α :=
  (g.bucket name)[index]?

/-- Appends a value to the group of that name, which is opened at the end if it is new. -/
def pushGroup (name : String) (a : α) : List (String × List α) → List (String × List α)
  | [] => [(name, [a])]
  | (n, as) :: rest =>
      if n = name then (n, as ++ [a]) :: rest else (n, as) :: pushGroup name a rest

def push (g : Grouping α) (name : String) (a : α) : Grouping α :=
  ⟨pushGroup name a g.groups⟩

theorem lookup_pushGroup_self (name : String) (a : α) (groups : List (String × List α)) :
    (pushGroup name a groups).lookup name = some ((groups.lookup name).getD [] ++ [a]) := by
  induction groups with
  | nil => simp [pushGroup]
  | cons b rest ih =>
      obtain ⟨n, as⟩ := b
      by_cases h : n = name
      · simp [pushGroup, h]
      · have hne : (name == n) = false := by simpa using Ne.symm h
        simp [pushGroup, h, List.lookup_cons, hne, ih]

theorem lookup_pushGroup_of_ne {name other : String} (h : other ≠ name) (a : α)
    (groups : List (String × List α)) :
    (pushGroup name a groups).lookup other = groups.lookup other := by
  have hne : (other == name) = false := by simpa using h
  induction groups with
  | nil => simp [pushGroup, List.lookup_cons, hne]
  | cons b rest ih =>
      obtain ⟨n, as⟩ := b
      by_cases hn : n = name
      · simp [pushGroup, hn, List.lookup_cons, hne]
      · simp [pushGroup, hn, List.lookup_cons, ih]

@[simp] theorem bucket_push_self (g : Grouping α) (name : String) (a : α) :
    (g.push name a).bucket name = g.bucket name ++ [a] := by
  simp [bucket, push, lookup_pushGroup_self]

@[simp] theorem bucket_push_of_ne (g : Grouping α) {name other : String} (h : other ≠ name)
    (a : α) : (g.push name a).bucket other = g.bucket other := by
  simp [bucket, push, lookup_pushGroup_of_ne h]

/-- A new name comes last and a known name keeps its place. -/
theorem names_push (g : Grouping α) (name : String) (a : α) :
    (g.push name a).names = if name ∈ g.names then g.names else g.names ++ [name] := by
  obtain ⟨groups⟩ := g
  simp only [names, push]
  induction groups with
  | nil => simp [pushGroup]
  | cons b rest ih =>
      obtain ⟨n, as⟩ := b
      by_cases h : n = name
      · simp [pushGroup, h]
      · by_cases hm : name ∈ rest.map Prod.fst
        · simp only [hm, if_true] at ih
          simp [pushGroup, h, hm, ih]
        · simp only [hm, if_false] at ih
          simp [pushGroup, h, Ne.symm h, hm, ih]

@[simp] theorem size_push (g : Grouping α) (name : String) (a : α) :
    (g.push name a).size = g.size + 1 := by
  obtain ⟨groups⟩ := g
  simp only [size, values, push]
  induction groups with
  | nil => simp [pushGroup]
  | cons b rest ih =>
      obtain ⟨n, as⟩ := b
      by_cases h : n = name
      · simp [pushGroup, h]; omega
      · simp [pushGroup, h, ih]; omega

end Grouping
end ProcedureIndex
