/-
RamlSchema/Proofs/Members.lean

More on named members: reading from two lists in a row, writing a new key, what is
read when keys are distinct, and which members there are after writing.

Main results: `get?_eq_some_iff_mem`, by which reading from a list with distinct
keys is membership, and `get?_perm`, by which the order of such a list does not
matter to a reader.
-/
import RamlSchema.Members

namespace RamlSchema

variable {α : Type}

/-- What a list is if the first entry is, and those behind it are, is said of each entry. -/
theorem iff_forall_mem {P : α → Prop} {Q : List α → Prop} (hnil : Q [])
    (hcons : ∀ x xs, Q (x :: xs) ↔ P x ∧ Q xs) {xs : List α} : Q xs ↔ ∀ x ∈ xs, P x := by
  induction xs with
  | nil => simp [hnil]
  | cons x xs ih => rw [hcons, ih, List.forall_mem_cons]

namespace Members

@[simp] theorem keys_append (ms ns : Members α) : keys (ms ++ ns) = keys ms ++ keys ns :=
  List.map_append

theorem get?_eq_none_iff {ms : Members α} {k : String} : ms.get? k = none ↔ k ∉ ms.keys := by
  rw [← contains_iff_mem_keys]
  simp [contains]

theorem mem_keys_of_get? {ms : Members α} {k : String} {v : α} (h : ms.get? k = some v) :
    k ∈ ms.keys := by
  rw [← contains_iff_mem_keys]
  simp [contains, h]

theorem exists_get?_of_mem_keys {ms : Members α} {k : String} (h : k ∈ ms.keys) :
    ∃ v, ms.get? k = some v := by
  rw [← contains_iff_mem_keys] at h
  exact Option.isSome_iff_exists.mp h

theorem get?_append (ms ns : Members α) (k : String) :
    get? (ms ++ ns) k = (ms.get? k).or (ns.get? k) := by
  induction ms with
  | nil => rfl
  | cons e ms ih =>
    by_cases h : e.1 = k
    · simp [get?, h]
    · simpa [get?, h] using ih

theorem get?_append_of_some {ms : Members α} {k : String} {v : α} (h : ms.get? k = some v)
    (ns : Members α) : get? (ms ++ ns) k = some v := by
  rw [get?_append, h, Option.some_or]

/-- What is read from the front of a list is read from the whole. -/
theorem get?_of_prefix {ms ns : Members α} (h : ms <+: ns) {k : String} {v : α}
    (hv : ms.get? k = some v) : ns.get? k = some v := by
  obtain ⟨rest, rfl⟩ := h
  exact get?_append_of_some hv rest

/-- A new key comes last. -/
theorem insert_of_notMem {ms : Members α} {k : String} (h : k ∉ ms.keys) (v : α) :
    ms.insert k v = ms ++ [(k, v)] := by
  induction ms with
  | nil => rfl
  | cons e ms ih =>
    have he : e.1 ≠ k := fun he => h (by simp [keys, he])
    have hms : k ∉ keys ms := fun hms => h (List.mem_cons_of_mem _ hms)
    simp [insert, he, ih hms]

theorem mem_keys_insert {ms : Members α} {k k' : String} {v : α} :
    k' ∈ (ms.insert k v).keys ↔ k' ∈ ms.keys ∨ k' = k := by
  rw [keys_insert]
  split
  · rename_i h
    exact ⟨.inl, fun h' => h'.elim id fun heq => heq ▸ h⟩
  · simp

theorem mem_keys_insertMany {ms : Members α} {entries : List (String × α)} {k : String} :
    k ∈ (ms.insertMany entries).keys ↔ k ∈ ms.keys ∨ k ∈ keys entries := by
  induction entries generalizing ms with
  | nil => simp [insertMany, keys]
  | cons e es ih =>
    have h : k ∈ ((ms.insert e.1 e.2).insertMany es).keys ↔ _ := ih
    rw [insertMany, List.foldl_cons, ← insertMany, h, mem_keys_insert, or_assoc]
    exact or_congr_right List.mem_cons.symm

theorem insertMany_eq_nil_iff {ms : Members α} {entries : List (String × α)} :
    ms.insertMany entries = [] ↔ ms = [] ∧ entries = [] := by
  have hkeys : ∀ ns : Members α, ns = [] ↔ ∀ k, k ∉ ns.keys := fun ns => by
    rw [← List.eq_nil_iff_forall_not_mem, keys, List.map_eq_nil_iff]
  rw [hkeys, hkeys ms, hkeys entries, ← forall_and]
  simp only [mem_keys_insertMany, not_or]

theorem get?_insert (ms : Members α) (k k' : String) (v : α) :
    (ms.insert k v).get? k' = if k = k' then some v else ms.get? k' := by
  by_cases h : k = k'
  · subst h
    simp
  · simp [get?_insert_of_ne ms v h, h]

theorem get?_insertIfNew (ms : Members α) (k k' : String) (v : α) :
    (ms.insertIfNew k v).get? k' = (ms.get? k').or (if k = k' then some v else none) := by
  unfold insertIfNew
  split
  · rename_i h
    by_cases hk : k = k'
    · subst hk
      obtain ⟨w, hw⟩ := Option.isSome_iff_exists.mp h
      simp [hw]
    · simp [hk]
  · rename_i h
    rw [contains, Bool.not_eq_true, Option.isSome_eq_false_iff, Option.isNone_iff_eq_none] at h
    by_cases hk : k = k'
    · subst hk
      simp [h]
    · simp [get?_insert_of_ne ms v hk, hk]

theorem mem_of_get? {ms : Members α} {k : String} {v : α} (h : ms.get? k = some v) :
    (k, v) ∈ ms := by
  induction ms with
  | nil => simp [get?] at h
  | cons e ms ih =>
    by_cases he : e.1 = k
    · simp only [get?, he, if_true, Option.some.injEq] at h
      subst he h
      exact List.mem_cons_self
    · simp only [get?, he, if_false] at h
      exact List.mem_cons_of_mem _ (ih h)

/-- With distinct keys, every member is read under its key. -/
theorem get?_eq_some_iff_mem {ms : Members α} (hms : ms.keys.Nodup) {k : String} {v : α} :
    ms.get? k = some v ↔ (k, v) ∈ ms := by
  refine ⟨mem_of_get?, fun h => ?_⟩
  induction ms with
  | nil => simp at h
  | cons e ms ih =>
    simp only [keys, List.map_cons, List.nodup_cons] at hms
    -- a later member cannot be hidden by the first one
    rcases List.mem_cons.mp h with rfl | hmem
    · simp [get?]
    · have he : e.1 ≠ k := by
        rintro rfl
        exact hms.1 (List.mem_map.mpr ⟨_, hmem, rfl⟩)
      simpa [get?, he] using ih hms.2 hmem

/-- With distinct keys, the order of members does not matter to a reader. -/
theorem get?_perm {ms ns : Members α} (h : List.Perm ms ns) (hms : ms.keys.Nodup) (k : String) :
    ms.get? k = ns.get? k := by
  have hns : ns.keys.Nodup := (h.map Prod.fst).nodup hms
  apply Option.ext
  intro v
  rw [get?_eq_some_iff_mem hms, get?_eq_some_iff_mem hns, h.mem_iff]

/-! ### Members after writing -/

theorem mem_insert {ms : Members α} {k : String} {v : α} {m : String × α}
    (h : m ∈ ms.insert k v) : m ∈ ms ∨ m = (k, v) := by
  induction ms with
  | nil => exact .inr (List.mem_singleton.mp h)
  | cons e ms ih =>
    by_cases he : e.1 = k
    · simp only [insert, he, if_true, List.mem_cons] at h
      rcases h with rfl | h
      · exact .inr rfl
      · exact .inl (List.mem_cons_of_mem _ h)
    · simp only [insert, he, if_false, List.mem_cons] at h
      rcases h with rfl | h
      · exact .inl List.mem_cons_self
      · exact (ih h).imp_left (List.mem_cons_of_mem _)

theorem mem_insertMany {ms : Members α} {entries : List (String × α)} {m : String × α}
    (h : m ∈ ms.insertMany entries) : m ∈ ms ∨ m ∈ entries := by
  induction entries generalizing ms with
  | nil => exact .inl h
  | cons e es ih =>
    have hes : m ∈ insertMany (ms.insert e.1 e.2) es := h
    rcases ih hes with h | h
    · rcases mem_insert h with h | rfl
      · exact .inl h
      · exact .inr List.mem_cons_self
    · exact .inr (List.mem_cons_of_mem _ h)

theorem mem_insert_of_ne {ms : Members α} {k k' : String} {v w : α} (h : (k, v) ∈ ms)
    (hne : k ≠ k') : (k, v) ∈ ms.insert k' w := by
  induction ms with
  | nil => exact nomatch h
  | cons e ms ih =>
    by_cases he : e.1 = k'
    · rcases List.mem_cons.mp h with rfl | h
      · exact absurd he hne
      · simp [insert, he, h]
    · rcases List.mem_cons.mp h with rfl | h
      · simp [insert, he]
      · simp [insert, he, ih h]

/-- Writing other keys leaves a member as it is. -/
theorem mem_insertMany_of_notMem {ms entries : Members α} {k : String} {v : α}
    (h : (k, v) ∈ ms) (hk : k ∉ entries.keys) : (k, v) ∈ ms.insertMany entries := by
  induction entries generalizing ms with
  | nil => exact h
  | cons e es ih =>
    have hne : k ≠ e.1 := fun he => hk (he ▸ List.mem_cons_self)
    exact ih (mem_insert_of_ne h hne) fun hes => hk (List.mem_cons_of_mem _ hes)

/-- With distinct keys, all that is written is there afterwards. -/
theorem mem_insertMany_of_mem (ms : Members α) {entries : Members α} (hentries : entries.keys.Nodup)
    {m : String × α} (h : m ∈ entries) : m ∈ ms.insertMany entries := by
  induction entries generalizing ms with
  | nil => exact nomatch h
  | cons e es ih =>
    obtain ⟨he, hes⟩ := List.nodup_cons.mp hentries
    rcases List.mem_cons.mp h with rfl | h
    · -- its key is not written again
      have hmem := mem_insertMany_of_notMem (mem_of_get? (get?_insert_self ms m.1 m.2)) he
      exact hmem
    · exact ih (ms.insert e.1 e.2) hes h

/-! ### Distinct keys -/

theorem insertMany_of_nodup {ms : Members α} {entries : List (String × α)}
    (h : (keys (ms ++ entries)).Nodup) : ms.insertMany entries = ms ++ entries := by
  induction entries generalizing ms with
  | nil => exact (List.append_nil ms).symm
  | cons e es ih =>
    have he : e.1 ∉ keys ms := by
      rw [keys_append, List.nodup_append] at h
      exact fun hmem => h.2.2 e.1 hmem e.1 List.mem_cons_self rfl
    have happend : ms ++ e :: es = (ms ++ [e]) ++ es := List.append_cons ms e es
    show (ms.insert e.1 e.2).insertMany es = ms ++ e :: es
    rw [insert_of_notMem he, happend]
    exact ih (happend ▸ h)

/-- Writing pairs whose keys are distinct writes down the pairs. -/
theorem ofList_of_nodup {entries : List (String × α)} (h : (keys entries).Nodup) :
    ofList entries = entries :=
  @insertMany_of_nodup _ [] entries h

end Members

end RamlSchema
