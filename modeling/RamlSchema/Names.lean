/-
RamlSchema/Names.lean

Lists of names that are extended without repetition.
-/

namespace RamlSchema.Names

/-- Appends a name unless the list has it. -/
def add (names : List String) (name : String) : List String :=
  if name ∈ names then names else names ++ [name]

/-- Appends the names of a second list one by one, leaving out those that are
there. -/
def addAll (names more : List String) : List String :=
  more.foldl add names

theorem mem_add {names : List String} {name n : String} :
    n ∈ add names name ↔ n ∈ names ∨ n = name := by
  unfold add
  split <;> simp_all

theorem mem_addAll {names more : List String} {n : String} :
    n ∈ addAll names more ↔ n ∈ names ∨ n ∈ more := by
  induction more generalizing names with
  | nil => simp [addAll]
  | cons m more ih =>
    have h := @ih (add names m)
    simp only [addAll, List.foldl_cons] at h ⊢
    rw [h, mem_add, List.mem_cons, or_assoc]

theorem nodup_add {names : List String} (h : names.Nodup) (name : String) :
    (add names name).Nodup := by
  unfold add
  split
  · exact h
  · rw [List.nodup_append]
    exact ⟨h, by simp, fun a ha b hb hab => by simp_all⟩

/-- Extending a list without repetition keeps it so. -/
theorem nodup_addAll {names : List String} (h : names.Nodup) (more : List String) :
    (addAll names more).Nodup := by
  induction more generalizing names with
  | nil => exact h
  | cons m more ih => exact ih (nodup_add h m)

end RamlSchema.Names
