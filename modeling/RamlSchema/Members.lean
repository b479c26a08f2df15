/-
RamlSchema/Members.lean

Named members in order of insertion: the shape of JSON objects, of the
declarations of a type graph and of the properties of a schema.

A list of pairs is the whole representation.  Reading takes the first pair
with the key.  Writing a key that is present replaces its value and leaves it
where it stands; writing a new one appends it.  So `ofList`, which writes the
pairs of a list one after another, keeps for each key its first place and its
last value, and its keys are distinct whatever the list was (`nodup_keys_ofList`).
-/

namespace RamlSchema

variable {α : Type}

/-- Named members in order of insertion. -/
abbrev Members (α : Type) := List (String × α)

namespace Members

/-- The keys in order. -/
def keys (ms : Members α) : List String :=
  ms.map Prod.fst

/-- The value stored under a key, if there is one. -/
def get? : Members α → String → Option α
  | [], _ => none
  | (k', v) :: ms, k => if k' = k then some v else get? ms k

/-- Whether a key is present. -/
def contains (ms : Members α) (k : String) : Bool :=
  (ms.get? k).isSome

/-- Writes a value: in place when the key is present, at the end when it is new. -/
def insert : Members α → String → α → Members α
  | [], k, v => [(k, v)]
  | (k', w) :: ms, k, v => if k' = k then (k', v) :: ms else (k', w) :: insert ms k v

/-- Writes a value unless the key is present. -/
def insertIfNew (ms : Members α) (k : String) (v : α) : Members α :=
  if ms.contains k then ms else ms.insert k v

/-- Writes the pairs of `entries` one after another. -/
def insertMany (ms : Members α) (entries : List (String × α)) : Members α :=
  entries.foldl (fun ms e => ms.insert e.1 e.2) ms

/-- The members that result from writing the pairs of a list in order. -/
def ofList (entries : List (String × α)) : Members α :=
  insertMany [] entries

/-- Removes a key; the others keep their order. -/
def erase (ms : Members α) (k : String) : Members α :=
  ms.filter fun e => e.1 ≠ k

/-! ### Reading after writing -/

@[simp] theorem get?_insert_self (ms : Members α) (k : String) (v : α) :
    (ms.insert k v).get? k = some v := by
  induction ms with
  | nil => simp [insert, get?]
  | cons e ms ih =>
    by_cases h : e.1 = k
    · simp [insert, get?, h]
    · simpa [insert, get?, h] using ih

theorem get?_insert_of_ne (ms : Members α) {k k' : String} (v : α) (h : k ≠ k') :
    (ms.insert k v).get? k' = ms.get? k' := by
  induction ms with
  | nil => simp [insert, get?, h]
  | cons e ms ih =>
    by_cases he : e.1 = k
    · simp [insert, get?, he, h]
    · simp only [insert, he, if_false, get?, ih]

theorem contains_iff_mem_keys (ms : Members α) (k : String) :
    ms.contains k = true ↔ k ∈ ms.keys := by
  induction ms with
  | nil => simp [contains, get?, keys]
  | cons e ms ih =>
    by_cases h : e.1 = k
    · simp [contains, get?, keys, h]
    · have h' : ¬ k = e.1 := fun hk => h hk.symm
      simpa [contains, get?, keys, h, h'] using ih

/-! ### Keys after writing -/

/-- A key that is present keeps its place, and a new one comes last. -/
theorem keys_insert (ms : Members α) (k : String) (v : α) :
    (ms.insert k v).keys = if k ∈ ms.keys then ms.keys else ms.keys ++ [k] := by
  induction ms with
  | nil => simp [insert, keys]
  | cons e ms ih =>
    by_cases h : e.1 = k
    · simp [insert, keys, h]
    · have h' : ¬ k = e.1 := fun hk => h hk.symm
      have ih' : (insert ms k v).map Prod.fst
          = if k ∈ ms.map Prod.fst then ms.map Prod.fst else ms.map Prod.fst ++ [k] := ih
      simp only [insert, keys, h, if_false, List.map_cons, List.mem_cons, h', false_or, ih']
      split <;> rfl

theorem nodup_keys_insert {ms : Members α} (h : ms.keys.Nodup) (k : String) (v : α) :
    (ms.insert k v).keys.Nodup := by
  rw [keys_insert]
  split
  · exact h
  · rename_i hk
    rw [List.nodup_append]
    exact ⟨h, by simp, fun a ha b hb hab => hk (by simp_all)⟩

theorem nodup_keys_insertMany {ms : Members α} (h : ms.keys.Nodup)
    (entries : List (String × α)) : (ms.insertMany entries).keys.Nodup := by
  induction entries generalizing ms with
  | nil => exact h
  | cons e es ih => exact ih (nodup_keys_insert h e.1 e.2)

/-- The keys of `ofList` are distinct, whatever the list repeats. -/
theorem nodup_keys_ofList (entries : List (String × α)) : (ofList entries).keys.Nodup :=
  @nodup_keys_insertMany _ [] List.nodup_nil entries

end Members

end RamlSchema
