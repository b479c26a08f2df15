/-
RamlSchema/Proofs/Raml/WellFormed.lean

No tree that is loaded repeats a key.

A document may repeat keys, or give two keys that are the same text.  Members are
written one after another, and what is written under a key that is there takes the
place of what was there before; so neither data nor declarations come out with a key
twice, at any depth.

Main result: `Document.Loads.wellFormed`.
-/
import RamlSchema.Proofs.Normalize.References
import RamlSchema.Proofs.Raml.Loading

namespace RamlSchema

/-! ### Writing members -/

namespace Json

theorem wellFormed_obj_iff {ms : Members Json} :
    (obj ms).WellFormed ↔ ms.keys.Nodup ∧ ∀ m ∈ ms, m.2.WellFormed :=
  and_congr_right fun _ => wellFormedMembers_iff

variable {ms entries : Members Json} {key : String} {j : Json}

theorem WellFormed.insert (h : (obj ms).WellFormed) (hj : j.WellFormed) :
    (obj (ms.insert key j)).WellFormed := by
  rw [wellFormed_obj_iff] at h ⊢
  refine ⟨Members.nodup_keys_insert h.1 key j, fun m hm => ?_⟩
  rcases Members.mem_insert hm with hm | rfl
  · exact h.2 m hm
  · exact hj

theorem WellFormed.insertIfNew (h : (obj ms).WellFormed) (hj : j.WellFormed) :
    (obj (ms.insertIfNew key j)).WellFormed := by
  unfold Members.insertIfNew
  split
  · exact h
  · exact h.insert hj

theorem WellFormed.insertMany (h : (obj ms).WellFormed) (hentries : ∀ m ∈ entries, m.2.WellFormed) :
    (obj (ms.insertMany entries)).WellFormed := by
  induction entries generalizing ms with
  | nil => exact h
  | cons m entries ih =>
    obtain ⟨hm, hrest⟩ := List.forall_mem_cons.mp hentries
    exact ih (h.insert hm) hrest

end Json

namespace Raml

open Yaml

/-! ### Data -/

theorem wellFormed_of_data {path : KeyPath} (v : Value) :
    ∀ j, data path v = .ok j → j.WellFormed := by
  induction v using Value.below_induction with
  | seq xs ih =>
    intro j h
    obtain ⟨js, hjs, rfl⟩ := Except.map_eq_ok_iff.mp h
    rw [dataItems_eq] at hjs
    refine Json.wellFormedItems_iff.mpr fun j hj => ?_
    obtain ⟨x, hx, hread⟩ := exists_of_mem_mapM hjs hj
    exact ih x hx j hread
  | map es ih =>
    intro j h
    obtain ⟨ms, hms, rfl⟩ := Except.map_eq_ok_iff.mp h
    rw [dataEntries_eq] at hms
    obtain ⟨entries, hentries, rfl⟩ := Except.map_eq_ok_iff.mp hms
    have hnil : (Json.obj []).WellFormed := ⟨List.nodup_nil, trivial⟩
    refine hnil.insertMany fun m hm => ?_
    obtain ⟨e, he, hread⟩ := exists_of_mem_mapM hentries hm
    obtain ⟨key, -, hread⟩ := Except.bind_eq_ok_iff.mp hread
    obtain ⟨j, hj, hread⟩ := Except.bind_eq_ok_iff.mp hread
    cases hread
    exact ih e he j hj
  | num n =>
    rintro j ⟨⟩
    rcases n with n | x
    · trivial
    · simp only [numberData]
      split <;> trivial
  | tagged tag v _ => simp [data]
  | _ =>
    rintro j ⟨⟩
    trivial

/-! ### Applying facets -/

/-- A facet that repeats no key. -/
def Facet.WellFormed : Facet → Prop
  | .write _ j => j.WellFormed
  | .under inner => (Json.obj inner).WellFormed

theorem Facet.WellFormed.apply {f : Facet} (hf : f.WellFormed) {out : Members Json}
    (h : (Json.obj out).WellFormed) : (Json.obj (f.apply out)).WellFormed := by
  cases f with
  | write key j => exact h.insert hf
  | under inner =>
    have hmembers : ∀ m ∈ inner, m.2.WellFormed := (Json.wellFormed_obj_iff.mp hf).2
    clear hf
    rw [Facet.apply, underlay]
    induction inner generalizing out with
    | nil => exact h
    | cons m inner ih =>
      obtain ⟨hm, hrest⟩ := List.forall_mem_cons.mp hmembers
      exact ih (h.insertIfNew hm) hrest

theorem Facet.WellFormed.value {f : Facet} (hf : f.WellFormed) : f.value.WellFormed := by
  cases f <;> exact hf

theorem wellFormed_candidates (expression : String) : (candidates expression).WellFormed :=
  ⟨trivial, trivial⟩

theorem wellFormed_withType {out : Members Json} (h : (Json.obj out).WellFormed) :
    (Json.obj (withType out)).WellFormed :=
  h.insertIfNew (wellFormed_candidates _)

theorem wellFormed_of_facets {out : Members Json} {fs : List Facet}
    (h : (Json.obj out).WellFormed) (hfs : ∀ f ∈ fs, f.WellFormed) :
    (Json.obj (withType (fs.foldl Facet.apply out))).WellFormed := by
  apply wellFormed_withType
  induction fs generalizing out with
  | nil => exact h
  | cons f fs ih =>
    obtain ⟨hf, hrest⟩ := List.forall_mem_cons.mp hfs
    exact ih (hf.apply h) hrest

theorem wellFormed_named (name : Option String) : (Json.obj (named name)).WellFormed := by
  cases name with
  | none => exact ⟨List.nodup_nil, trivial⟩
  | some n => exact ⟨List.nodup_singleton _, trivial, trivial⟩

theorem wellFormed_displayed {out : Members Json} (h : (Json.obj out).WellFormed)
    (name : Option String) : (Json.obj (displayed name out)).WellFormed := by
  cases name with
  | none => exact h
  | some n => exact h.insertIfNew trivial

theorem wellFormed_flagged {facets : Members Json} (h : (Json.obj facets).WellFormed)
    (isOptional : Bool) : (Json.obj (flagged isOptional facets)).WellFormed := by
  unfold flagged
  split
  · exact h
  · exact h.insert trivial

/-! ### Declarations -/

/-- Whatever comes of a declaration repeats no key. -/
def Repeatless (v : Value) : Prop :=
  ∀ name path ms, expand name path v = .ok ms → (Json.obj ms).WellFormed

theorem wellFormed_of_readType {path : KeyPath} {v : Value} {f : Facet} (hv : Repeatless v)
    (h : readType path v = .ok f) : f.WellFormed := by
  rcases readType_cases h with ⟨s, -, rfl⟩ | ⟨es, inner, rfl, hinner, rfl⟩ | ⟨j, -, hj, rfl⟩
  · exact wellFormed_candidates s
  · exact hv none path inner hinner
  · exact wellFormed_of_data v j hj

theorem wellFormed_of_readFacet {path : KeyPath} {key : String} {v : Value} {f : Facet}
    (hv : Repeatless v) (hbelow : ∀ es, v = .map es → ∀ e ∈ es, Repeatless e.2)
    (h : readFacet path key v = .ok f) : f.WellFormed := by
  unfold readFacet at h
  split at h
  · exact wellFormed_of_readType hv h
  · split at h
    · obtain ⟨ps, hps, rfl⟩ := Except.map_eq_ok_iff.mp h
      cases v with
      | map es =>
        rw [expandProperties, expandEntries_eq] at hps
        obtain ⟨entries, hentries, rfl⟩ := Except.map_eq_ok_iff.mp hps
        have hnil : (Json.obj []).WellFormed := ⟨List.nodup_nil, trivial⟩
        refine hnil.insertMany fun m hm => ?_
        obtain ⟨e, he, hread⟩ := exists_of_mem_mapM hentries hm
        obtain ⟨key, -, hread⟩ := Except.bind_eq_ok_iff.mp hread
        obtain ⟨facets, hfacets, hread⟩ := Except.bind_eq_ok_iff.mp hread
        cases hread
        exact wellFormed_flagged (hbelow es rfl e he _ _ facets hfacets) _
      | _ => cases hps
    · split at h
      · obtain ⟨j, hj, rfl⟩ := Except.map_eq_ok_iff.mp h
        rw [expandItems_eq, Except.map_eq_ok_iff] at hj
        obtain ⟨f, hf, rfl⟩ := hj
        exact (wellFormed_of_readType hv hf).value
      · obtain ⟨j, hj, rfl⟩ := Except.map_eq_ok_iff.mp h
        exact wellFormed_of_data v j hj

theorem wellFormed_expression (name : Option String) (expression : String) :
    (Json.obj (displayed name ((named name).insert "type" (candidates expression)))).WellFormed :=
  wellFormed_displayed ((wellFormed_named name).insert (wellFormed_candidates expression)) name

/-- **What comes of a declaration repeats no key.** -/
theorem wellFormed_of_expand (v : Value) : Repeatless v := by
  refine expand_induction (F := Facet.WellFormed) wellFormed_expression (fun name fs hfs => ?_)
    (fun path key v f hv hbelow h => wellFormed_of_readFacet hv hbelow h) v
  exact wellFormed_displayed (wellFormed_of_facets (wellFormed_named name) hfs) name

/-- **No tree of a loaded document repeats a key.** -/
theorem Document.Loads.wellFormed {d : Document} {g : TypeGraph} (h : d.Loads g) :
    g.WellFormed := by
  intro T tree htree
  obtain ⟨e, -, hread⟩ := exists_of_mem_mapM (loads_iff.mp h).2 (Members.mem_of_get? htree)
  obtain ⟨-, ms, hms, rfl⟩ := readDeclaration_eq_ok_iff.mp hread
  exact wellFormed_of_expand e.2 _ _ ms hms

end Raml

end RamlSchema
