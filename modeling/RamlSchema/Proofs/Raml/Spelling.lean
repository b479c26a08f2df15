/-
RamlSchema/Proofs/Raml/Spelling.lean

What comes of declarations.

An expanded declaration is spelled out: it has a type, its properties are spelled out
and carry a flag that says whether they are required, and items that are a mapping are
spelled out too.  All but the type is kept by each facet that is applied (`Partial`),
and the type is given at the end to those that have none.

Main result: `spelled_of_expand`.
-/
import RamlSchema.Proofs.Members
import RamlSchema.Proofs.Raml.Facets

namespace RamlSchema.Raml

open Yaml

/-! ### Reading what is laid under other members -/

/-- Members that are laid under others are read where there are none of the name. -/
theorem get?_underlay (out inner : Members Json) (k : String) :
    (underlay out inner).get? k = (out.get? k).or (inner.get? k) := by
  unfold underlay
  induction inner generalizing out with
  | nil => simp [Members.get?]
  | cons m inner ih =>
    rw [List.foldl_cons, ih, Members.get?_insertIfNew, Option.or_assoc]
    by_cases h : m.1 = k <;> simp [Members.get?, h]

theorem get?_displayed (name : Option String) (out : Members Json) {k : String}
    (hk : k ≠ "displayName") : (displayed name out).get? k = out.get? k := by
  cases name with
  | none => rfl
  | some n => simp [displayed, Members.get?_insertIfNew, hk.symm]

theorem get?_named (name : Option String) {k : String} (hk : k ≠ "name") :
    (named name).get? k = none := by
  cases name with
  | none => rfl
  | some n => simp [named, Members.get?, hk.symm]

theorem get?_withType (out : Members Json) {k : String} (hk : k ≠ "type") :
    (withType out).get? k = out.get? k := by
  simp [withType, Members.get?_insertIfNew, hk.symm]

theorem get?_flagged (isOptional : Bool) (facets : Members Json) {k : String}
    (hk : k ≠ "required") : (flagged isOptional facets).get? k = facets.get? k := by
  unfold flagged
  split
  · rfl
  · exact Members.get?_insert_of_ne _ _ hk.symm

/-- A property has a flag. -/
theorem exists_get?_flagged (isOptional : Bool) (facets : Members Json) :
    ∃ b, (flagged isOptional facets).get? "required" = some (.bool b) := by
  unfold flagged
  split
  · rename_i b h
    exact ⟨b, h⟩
  · exact ⟨_, Members.get?_insert_self _ _ _⟩

theorem isSome_get?_withType (out : Members Json) : ((withType out).get? "type").isSome := by
  simp [withType, Members.get?_insertIfNew]

/-! ### Spelled out -/

/-- Members of a declaration in which everything is spelled out. -/
inductive Spelled : Members Json → Prop
  | intro {ms : Members Json} :
      (ms.get? "type").isSome →
      (∀ j, ms.get? "properties" = some j → ∃ ps, j = .obj ps ∧
        ∀ p ∈ ps, ∃ (facets : Members Json) (b : Bool),
          p.2 = .obj facets ∧ facets.get? "required" = some (.bool b)) →
      (∀ ps, ms.get? "properties" = some (.obj ps) → ∀ p ∈ ps, ∀ facets, p.2 = .obj facets →
        Spelled facets) →
      (∀ facets, ms.get? "items" = some (.obj facets) → Spelled facets) →
      Spelled ms

/-- The tree of a property is spelled out and has a flag. -/
def SpelledProperty (j : Json) : Prop :=
  ∃ (facets : Members Json) (b : Bool),
    j = .obj facets ∧ facets.get? "required" = some (.bool b) ∧ Spelled facets

/-- What a facet writes is spelled out as far as it has to be. -/
structure SpelledMember (key : String) (j : Json) : Prop where
  properties : key = "properties" → ∃ ps, j = .obj ps ∧ ∀ p ∈ ps, SpelledProperty p.2
  items : key = "items" → ∀ facets, j = .obj facets → Spelled facets

/-- Members that are spelled out, perhaps without a type. -/
def Partial (ms : Members Json) : Prop :=
  ∀ key j, ms.get? key = some j → SpelledMember key j

theorem spelled_iff {ms : Members Json} : Spelled ms ↔ (ms.get? "type").isSome ∧ Partial ms := by
  constructor
  · rintro ⟨htype, hproperties, hbelow, hitems⟩
    refine ⟨htype, fun key j hj => ⟨?_, ?_⟩⟩
    · rintro rfl
      obtain ⟨ps, rfl, hps⟩ := hproperties j hj
      refine ⟨ps, rfl, fun p hp => ?_⟩
      obtain ⟨facets, b, hfacets, hb⟩ := hps p hp
      exact ⟨facets, b, hfacets, hb, hbelow ps hj p hp facets hfacets⟩
    · rintro rfl facets rfl
      exact hitems facets hj
  · rintro ⟨htype, h⟩
    refine .intro htype (fun j hj => ?_) (fun ps hps p hp facets hfacets => ?_)
      fun facets hj => (h _ _ hj).items rfl facets rfl
    · obtain ⟨ps, rfl, hps⟩ := (h _ j hj).properties rfl
      refine ⟨ps, rfl, fun p hp => ?_⟩
      obtain ⟨facets, b, hfacets, hb, -⟩ := hps p hp
      exact ⟨facets, b, hfacets, hb⟩
    · obtain ⟨ps', heq, hall⟩ := (h _ _ hps).properties rfl
      cases heq
      obtain ⟨facets', b, hfacets', -, hspelled⟩ := hall p hp
      cases hfacets.symm.trans hfacets'
      exact hspelled

theorem Spelled.isPartial {ms : Members Json} (h : Spelled ms) : Partial ms :=
  (spelled_iff.mp h).2

/-- Members that differ only where nothing has to be spelled out. -/
theorem Partial.congr {ms ms' : Members Json} (h : Partial ms)
    (heq : ∀ key ∈ ["properties", "items"], ms'.get? key = ms.get? key) : Partial ms' := by
  intro key j hj
  by_cases hkey : key ∈ ["properties", "items"]
  · exact h key j ((heq key hkey).symm.trans hj)
  · simp only [List.mem_cons, List.not_mem_nil, or_false, not_or] at hkey
    exact ⟨fun h => absurd h hkey.1, fun h => absurd h hkey.2⟩

theorem Spelled.congr {ms ms' : Members Json} (h : Spelled ms)
    (heq : ∀ key ∈ ["type", "properties", "items"], ms'.get? key = ms.get? key) : Spelled ms' := by
  obtain ⟨htype, hpartial⟩ := spelled_iff.mp h
  refine spelled_iff.mpr ⟨?_, hpartial.congr fun key hkey => heq key (List.mem_cons_of_mem _ hkey)⟩
  rw [heq "type" List.mem_cons_self]
  exact htype

/-! ### Applying facets -/

/-- A facet that says what is spelled out. -/
def Facet.Spelled : Facet → Prop
  | .write key j => SpelledMember key j
  | .under inner => Partial inner

theorem Partial.apply {out : Members Json} (hout : Partial out) {f : Facet} (hf : f.Spelled) :
    Partial (f.apply out) := by
  intro key j hj
  cases f with
  | write k w =>
    rw [Facet.apply, Members.get?_insert] at hj
    split at hj
    · rename_i hk
      obtain rfl := Option.some.inj hj
      exact hk ▸ hf
    · exact hout key j hj
  | under inner =>
    rw [Facet.apply, get?_underlay, Option.or_eq_some_iff] at hj
    rcases hj with hj | ⟨-, hj⟩
    · exact hout key j hj
    · exact hf key j hj

/-- Facets that are spelled out make a declaration that is. -/
theorem spelled_of_facets {out : Members Json} {fs : List Facet} (hout : Partial out)
    (hfs : ∀ f ∈ fs, f.Spelled) : Spelled (withType (fs.foldl Facet.apply out)) := by
  have hpartial : Partial (fs.foldl Facet.apply out) := by
    induction fs generalizing out with
    | nil => exact hout
    | cons f fs ih =>
      exact ih (hout.apply (hfs f List.mem_cons_self)) fun f' hf' =>
        hfs f' (List.mem_cons_of_mem _ hf')
  refine spelled_iff.mpr ⟨isSome_get?_withType _, hpartial.congr fun key hkey => ?_⟩
  apply get?_withType
  rintro rfl
  simp at hkey

/-! ### Reading facets -/

/-- Only a mapping is data with members. -/
theorem exists_map_of_data {path : KeyPath} {v : Value} {ms : Members Json}
    (h : data path v = .ok (.obj ms)) : ∃ es, v = .map es := by
  cases v with
  | map es => exact ⟨es, rfl⟩
  | seq xs =>
    rw [data, Except.map_eq_ok_iff] at h
    obtain ⟨js, -, hjs⟩ := h
    cases hjs
  | num n =>
    cases n with
    | whole n => cases h
    | double x =>
      simp only [data, numberData, Except.ok.injEq] at h
      split at h <;> cases h
  | _ => cases h

/-- Whatever comes of a declaration is spelled out. -/
def SpelledOut (v : Value) : Prop :=
  ∀ name path ms, expand name path v = .ok ms → Spelled ms

theorem spelled_of_readType {path : KeyPath} {v : Value} {f : Facet} (hv : SpelledOut v)
    (h : readType path v = .ok f) : f.Spelled := by
  rcases readType_cases h with ⟨s, -, rfl⟩ | ⟨es, inner, rfl, hinner, rfl⟩ | ⟨j, -, -, rfl⟩
  · exact ⟨by simp, by simp⟩
  · exact (hv none path inner hinner).isPartial
  · exact ⟨by simp, by simp⟩

theorem spelled_of_expandItems {path : KeyPath} {v : Value} {j : Json} (hv : SpelledOut v)
    (h : expandItems path v = .ok j) : ∀ facets, j = .obj facets → Spelled facets := by
  rintro facets rfl
  rw [expandItems_eq, Except.map_eq_ok_iff] at h
  obtain ⟨f, hf, hvalue⟩ := h
  rcases readType_cases hf with ⟨s, -, rfl⟩ | ⟨es, inner, rfl, hinner, rfl⟩ | ⟨j, hmap, hj, rfl⟩
  · cases hvalue
  · cases hvalue
    exact hv none path facets hinner
  · obtain rfl : j = .obj facets := hvalue
    obtain ⟨es, hes⟩ := exists_map_of_data hj
    exact absurd hes (hmap es)

theorem spelled_of_readProperty {path : KeyPath} {e : Value × Value} {p : String × Json}
    (hv : SpelledOut e.2) (h : readProperty path e = .ok p) : SpelledProperty p.2 := by
  obtain ⟨key, -, h⟩ := Except.bind_eq_ok_iff.mp h
  obtain ⟨ms, hms, h⟩ := Except.bind_eq_ok_iff.mp h
  cases h
  obtain ⟨b, hb⟩ := exists_get?_flagged (propertyName key).2 ms
  refine ⟨_, b, rfl, hb, (hv _ _ ms hms).congr fun k hk => get?_flagged _ _ ?_⟩
  rintro rfl
  simp at hk

theorem spelled_of_expandProperties {path : KeyPath} {v : Value} {ps : Members Json}
    (hv : ∀ es, v = .map es → ∀ e ∈ es, SpelledOut e.2) (h : expandProperties path v = .ok ps) :
    ∀ p ∈ ps, SpelledProperty p.2 := by
  cases v with
  | map es =>
    rw [expandProperties, expandEntries_eq, Except.map_eq_ok_iff] at h
    obtain ⟨entries, hentries, rfl⟩ := h
    intro p hp
    have hmem : p ∈ entries := (Members.mem_insertMany hp).resolve_left List.not_mem_nil
    obtain ⟨e, he, hread⟩ := exists_of_mem_mapM hentries hmem
    exact spelled_of_readProperty (hv es rfl e he) hread
  | _ => cases h

theorem spelled_of_readFacet {path : KeyPath} {key : String} {v : Value} {f : Facet}
    (hv : SpelledOut v) (hbelow : ∀ es, v = .map es → ∀ e ∈ es, SpelledOut e.2)
    (h : readFacet path key v = .ok f) : f.Spelled := by
  unfold readFacet at h
  split at h
  · exact spelled_of_readType hv h
  · split at h
    · obtain ⟨ps, hps, rfl⟩ := Except.map_eq_ok_iff.mp h
      exact ⟨fun _ => ⟨ps, rfl, spelled_of_expandProperties hbelow hps⟩, nofun⟩
    · rename_i hproperties
      split at h
      · obtain ⟨j, hj, rfl⟩ := Except.map_eq_ok_iff.mp h
        exact ⟨nofun, fun _ => spelled_of_expandItems hv hj⟩
      · rename_i hitems
        obtain ⟨j, -, rfl⟩ := Except.map_eq_ok_iff.mp h
        exact ⟨fun h => absurd h hproperties, fun h => absurd h hitems⟩

/-! ### Declarations -/

theorem partial_named (name : Option String) : Partial (named name) := by
  intro key j hj
  constructor
  · rintro rfl
    simp [get?_named] at hj
  · rintro rfl
    simp [get?_named] at hj

theorem Spelled.displayed {ms : Members Json} (h : Spelled ms) (name : Option String) :
    Spelled (displayed name ms) := by
  refine h.congr fun key hkey => get?_displayed name ms ?_
  rintro rfl
  simp at hkey

theorem spelled_expression (name : Option String) (expression : String) :
    Spelled ((named name).insert "type" (candidates expression)) := by
  refine spelled_iff.mpr ⟨by simp, (partial_named name).apply (f := .write "type" _) ?_⟩
  exact ⟨nofun, nofun⟩

/-- **What comes of a declaration is spelled out.** -/
theorem spelled_of_expand (v : Value) : SpelledOut v := by
  refine expand_induction (F := Facet.Spelled) (fun name text => ?_) (fun name fs hfs => ?_)
    (fun path key v f hv hbelow h => spelled_of_readFacet hv hbelow h) v
  · exact (spelled_expression name text).displayed name
  · exact (spelled_of_facets (partial_named name) hfs).displayed name

end RamlSchema.Raml
