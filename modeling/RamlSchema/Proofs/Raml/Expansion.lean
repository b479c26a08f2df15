/-
RamlSchema/Proofs/Raml/Expansion.lean

Which declarations can be expanded.

A declaration is an expression, nothing, or a mapping.  In a mapping the properties are
declarations in their turn, and so is a mapping that gives a type or items; all else is
plain data.  `Declares v` says that each place where a declaration stands holds one.
Two things can be wrong anywhere, in declarations and in data alike: a key that is no
string, number or truth value, and a local tag.  `v.Plain` says that there are none.

Main result: `exists_expand_iff`, by which exactly the plain declarations can be
expanded.
-/
import RamlSchema.Proofs.Members
import RamlSchema.Proofs.Raml.Facets

namespace RamlSchema

/-! ### Plain values -/

namespace Yaml.Value

/-- Whether a value can be a key: a string, a number or a truth value. -/
def isKey : Value → Bool
  | .str _ => true
  | .num _ => true
  | .bool _ => true
  | _ => false

/-- At no depth is there a key that cannot be one, or a local tag. -/
inductive Plain : Value → Prop
  | null : Plain .null
  | bool {b} : Plain (.bool b)
  | num {n} : Plain (.num n)
  | str {s} : Plain (.str s)
  | seq {xs} : (∀ x ∈ xs, Plain x) → Plain (.seq xs)
  | map {es} : (∀ e ∈ es, e.1.isKey = true) → (∀ e ∈ es, Plain e.2) → Plain (.map es)

theorem plain_seq_iff {xs : List Value} : Plain (.seq xs) ↔ ∀ x ∈ xs, x.Plain :=
  ⟨fun | .seq h => h, .seq⟩

theorem plain_map_iff {es : List (Value × Value)} :
    Plain (.map es) ↔ ∀ e ∈ es, e.1.isKey = true ∧ e.2.Plain :=
  ⟨fun | .map hkeys h => fun e he => ⟨hkeys e he, h e he⟩,
    fun h => .map (fun e he => (h e he).1) fun e he => (h e he).2⟩

theorem not_plain_tagged {tag : String} {v : Value} : ¬ Plain (.tagged tag v) := nofun

end Yaml.Value

namespace Raml

open Yaml

theorem exists_keyText_iff {path : KeyPath} {k : Value} :
    (∃ key, keyText path k = .ok key) ↔ k.isKey = true := by
  rcases k with - | ⟨- | -⟩ | _ | _ | _ | _ | _ <;> simp [keyText, Value.isKey]

/-- **Exactly plain values can be data.** -/
theorem exists_data_iff {path : KeyPath} {v : Value} :
    (∃ j, data path v = .ok j) ↔ v.Plain := by
  induction v using Value.below_induction with
  | null => exact ⟨fun _ => .null, fun _ => ⟨_, rfl⟩⟩
  | bool b => exact ⟨fun _ => .bool, fun _ => ⟨_, rfl⟩⟩
  | num n => exact ⟨fun _ => .num, fun _ => ⟨_, rfl⟩⟩
  | str s => exact ⟨fun _ => .str, fun _ => ⟨_, rfl⟩⟩
  | seq xs ih =>
    rw [data, Except.exists_map_eq_ok_iff, dataItems_eq, exists_mapM_eq_ok_iff,
      Value.plain_seq_iff]
    exact forall₂_congr ih
  | map es ih =>
    rw [data, Except.exists_map_eq_ok_iff, dataEntries_eq, Except.exists_map_eq_ok_iff,
      exists_mapM_eq_ok_iff, Value.plain_map_iff]
    refine forall₂_congr fun e he => ?_
    rw [← ih e he, ← @exists_keyText_iff path]
    simp only [readMember, Except.bind_eq_ok_iff]
    constructor
    · rintro ⟨_, key, hkey, j, hj, -⟩
      exact ⟨⟨key, hkey⟩, j, hj⟩
    · rintro ⟨⟨key, hkey⟩, j, hj⟩
      exact ⟨_, key, hkey, j, hj, rfl⟩
  | tagged tag v _ => simp [data, Value.not_plain_tagged]

/-! ### Declarations -/

/-- A facet of a mapping, under the text of its key. -/
def HasFacet (es : List (Value × Value)) (key : String) (v : Value) : Prop :=
  ∃ k, (k, v) ∈ es ∧ keyText [] k = .ok key

/-- The keys of facets that are declarations if they are mappings. -/
def nestingKeys : List String := ["type", "schema", "items"]

/-- Wherever a declaration stands, there is an expression, nothing or a mapping; and
properties are mappings. -/
inductive Declares : Value → Prop
  | null : Declares .null
  | str {s} : Declares (.str s)
  | map {es} :
      (∀ v, HasFacet es "properties" v → ∃ ps, v = .map ps) →
      (∀ ps, HasFacet es "properties" (.map ps) → ∀ p ∈ ps, Declares p.2) →
      (∀ key ∈ nestingKeys, ∀ fs, HasFacet es key (.map fs) → Declares (.map fs)) →
      Declares (.map es)

/-- What `Declares` asks of a single facet. -/
structure FacetDeclares (key : String) (v : Value) : Prop where
  properties : key = "properties" → ∃ ps, v = .map ps ∧ ∀ p ∈ ps, Declares p.2
  nested : key ∈ nestingKeys → ∀ fs, v = .map fs → Declares v

theorem declares_map_iff {es : List (Value × Value)} :
    Declares (.map es) ↔ ∀ key v, HasFacet es key v → FacetDeclares key v := by
  constructor
  · rintro ⟨⟩ key v hv
    rename_i hmap hproperties hnested
    constructor
    · rintro rfl
      obtain ⟨ps, rfl⟩ := hmap v hv
      exact ⟨ps, rfl, hproperties ps hv⟩
    · rintro hkey fs rfl
      exact hnested key hkey fs hv
  · intro h
    refine .map (fun v hv => ?_) (fun ps hv p hp => ?_) fun key hkey fs hv =>
      (h key _ hv).nested hkey fs rfl
    · obtain ⟨ps, hps, -⟩ := (h _ v hv).properties rfl
      exact ⟨ps, hps⟩
    · obtain ⟨ps', hps, hdeclares⟩ := (h _ _ hv).properties rfl
      cases hps
      exact hdeclares p hp

/-- Expanding a value is possible exactly if it is a plain declaration. -/
def Criterion (v : Value) : Prop :=
  ∀ name path, (∃ ms, expand name path v = .ok ms) ↔ Declares v ∧ v.Plain

/-- The type of a declaration, and its items with it. -/
theorem exists_readType_iff {path : KeyPath} {v : Value} (hv : Criterion v) :
    (∃ f, readType path v = .ok f) ↔ v.Plain ∧ ∀ fs, v = .map fs → Declares v := by
  cases v with
  | map es =>
    rw [readType, Except.exists_map_eq_ok_iff, expandFacets_eq_expand, hv none path, and_comm]
    exact and_congr_right fun _ => ⟨fun h _ _ => h, fun h => h es rfl⟩
  | str s => exact ⟨fun _ => ⟨.str, by simp⟩, fun _ => ⟨_, rfl⟩⟩
  | _ =>
    rw [readType, Except.exists_map_eq_ok_iff, exists_data_iff]
    all_goals simp

theorem exists_readProperty_iff {path : KeyPath} {e : Value × Value} (hv : Criterion e.2) :
    (∃ p, readProperty path e = .ok p) ↔ e.1.isKey = true ∧ Declares e.2 ∧ e.2.Plain := by
  rw [← @exists_keyText_iff path]
  simp only [readProperty, Except.bind_eq_ok_iff]
  constructor
  · rintro ⟨_, key, hkey, ms, hms, -⟩
    exact ⟨⟨key, hkey⟩, (hv _ _).mp ⟨ms, hms⟩⟩
  · rintro ⟨⟨key, hkey⟩, h⟩
    obtain ⟨ms, hms⟩ := (hv (some (propertyName key).1) (path ++ [key])).mpr h
    exact ⟨_, key, hkey, ms, hms, rfl⟩

theorem exists_expandProperties_iff {path : KeyPath} {v : Value}
    (hv : ∀ ps, v = .map ps → ∀ p ∈ ps, Criterion p.2) :
    (∃ ms, expandProperties path v = .ok ms) ↔
      v.Plain ∧ ∃ ps, v = .map ps ∧ ∀ p ∈ ps, Declares p.2 := by
  cases v with
  | map es =>
    rw [expandProperties, expandEntries_eq, Except.exists_map_eq_ok_iff, exists_mapM_eq_ok_iff,
      Value.plain_map_iff]
    have heach : (∀ e ∈ es, ∃ p, readProperty path e = .ok p) ↔
        ∀ e ∈ es, e.1.isKey = true ∧ Declares e.2 ∧ e.2.Plain :=
      forall₂_congr fun e he => exists_readProperty_iff (hv es rfl e he)
    rw [heach]
    constructor
    · intro h
      exact ⟨fun e he => ⟨(h e he).1, (h e he).2.2⟩, es, rfl, fun e he => (h e he).2.1⟩
    · rintro ⟨hplain, ps, ⟨⟩, hdeclares⟩ e he
      exact ⟨(hplain e he).1, hdeclares e he, (hplain e he).2⟩
  | _ => simp [expandProperties]

/-- A facet can be read if it is plain and declares what it has to. -/
theorem exists_readFacet_iff {path : KeyPath} {key : String} {v : Value} (hv : Criterion v)
    (hbelow : ∀ ps, v = .map ps → ∀ p ∈ ps, Criterion p.2) :
    (∃ f, readFacet path key v = .ok f) ↔ v.Plain ∧ FacetDeclares key v := by
  unfold readFacet
  split
  · rename_i hkey
    rw [exists_readType_iff hv]
    refine and_congr_right fun _ => ⟨fun h => ⟨?_, fun _ => h⟩, fun h => h.nested ?_⟩
    · rintro rfl
      simp at hkey
    · rcases hkey with rfl | rfl <;> simp [nestingKeys]
  · rename_i htype
    rw [not_or] at htype
    split
    · rename_i hkey
      rw [Except.exists_map_eq_ok_iff, exists_expandProperties_iff hbelow]
      refine and_congr_right fun _ => ⟨fun h => ⟨fun _ => h, ?_⟩, fun h => h.properties hkey⟩
      rw [hkey]
      simp [nestingKeys]
    · rename_i hproperties
      split
      · rename_i hkey
        rw [Except.exists_map_eq_ok_iff, expandItems_eq, Except.exists_map_eq_ok_iff,
          exists_readType_iff hv]
        refine and_congr_right fun _ => ⟨fun h => ⟨fun he => absurd he hproperties, fun _ => h⟩,
          fun h => h.nested ?_⟩
        simp [hkey, nestingKeys]
      · rename_i hitems
        rw [Except.exists_map_eq_ok_iff, exists_data_iff]
        refine ⟨fun h => ⟨h, fun he => absurd he hproperties, ?_⟩, And.left⟩
        simp [nestingKeys, htype.1, htype.2, hitems]

/-- **Exactly plain declarations can be expanded**, whatever their name and their
place. -/
theorem exists_expand_iff (v : Value) : Criterion v := by
  induction v using Value.nested_induction with
  | null => exact fun _ _ => ⟨fun _ => ⟨.null, .null⟩, fun _ => ⟨_, rfl⟩⟩
  | str s => exact fun _ _ => ⟨fun _ => ⟨.str, .str⟩, fun _ => ⟨_, rfl⟩⟩
  | bool b => exact fun _ _ => ⟨nofun, fun h => nomatch h.1⟩
  | num n => exact fun _ _ => ⟨nofun, fun h => nomatch h.1⟩
  | seq xs => exact fun _ _ => ⟨nofun, fun h => nomatch h.1⟩
  | tagged tag v => exact fun _ _ => ⟨nofun, fun h => nomatch h.1⟩
  | map es ih ihbelow =>
    intro name path
    rw [expand_map_eq, Except.exists_map_eq_ok_iff, exists_mapM_eq_ok_iff, declares_map_iff,
      Value.plain_map_iff]
    have hentry : ∀ e ∈ es, (∃ f, readEntry path e = .ok f) ↔
        e.1.isKey = true ∧ e.2.Plain ∧ ∀ key, keyText [] e.1 = .ok key →
          FacetDeclares key e.2 := by
      intro e he
      rw [← @exists_keyText_iff path]
      simp only [readEntry, Except.bind_eq_ok_iff, @keyText_eq_ok_iff path]
      have hread := fun key =>
        @exists_readFacet_iff path key _ (ih e he) (ihbelow e he)
      constructor
      · rintro ⟨f, key, hkey, hf⟩
        obtain ⟨hplain, hdeclares⟩ := (hread key).mp ⟨f, hf⟩
        refine ⟨⟨key, hkey⟩, hplain, fun key' hkey' => ?_⟩
        cases hkey.symm.trans hkey'
        exact hdeclares
      · rintro ⟨⟨key, hkey⟩, hplain, hdeclares⟩
        obtain ⟨f, hf⟩ := (hread key).mpr ⟨hplain, hdeclares key hkey⟩
        exact ⟨f, key, hkey, hf⟩
    rw [forall₂_congr hentry]
    constructor
    · intro h
      refine ⟨?_, fun e he => ⟨(h e he).1, (h e he).2.1⟩⟩
      rintro key v ⟨k, hmem, hkey⟩
      exact (h (k, v) hmem).2.2 key hkey
    · rintro ⟨hdeclares, hplain⟩ e he
      exact ⟨(hplain e he).1, (hplain e he).2, fun key hkey => hdeclares key e.2 ⟨e.1, he, hkey⟩⟩

end Raml

end RamlSchema
