/-
RamlSchema/Proofs/Schema/Refers.lean

The references in a schema.

`n.Refers r` says that some node of the tree of `n`, be it `n` itself or one
below its properties and items, carries the reference `r`.

Main result: `Refers.of_overlay`.  Laying the keywords of a site over a schema
brings in no references but those of the site's own properties and items.
-/
import RamlSchema.Proofs.Members
import RamlSchema.Proofs.Normalize.Tasks

namespace RamlSchema

namespace SchemaNode

/-- A node that stands right below another. -/
inductive Child (n c : SchemaNode) : Prop
  | items : n.items = some c → Child n c
  | property {ps name} : n.properties = some ps → (name, c) ∈ ps → Child n c

/-- A reference at some node of a tree. -/
inductive Refers (r : String) : SchemaNode → Prop
  | here {n} : n.reference = some r → Refers r n
  | child {n c} : n.Child c → Refers r c → Refers r n

variable {n c base site : SchemaNode} {r : String}

/-- The nodes right below a node are its properties and its items. -/
theorem forall_child_iff {P : SchemaNode → Prop} :
    (∀ c, n.Child c → P c) ↔
      (∀ ps, n.properties = some ps → ∀ p ∈ ps, P p.2) ∧ ∀ c, n.items = some c → P c := by
  constructor
  · exact fun h => ⟨fun ps hps p hp => h p.2 (.property hps hp), fun c hc => h c (.items hc)⟩
  · rintro ⟨hproperties, hitems⟩ c (hc | ⟨hps, hc⟩)
    · exact hitems c hc
    · exact hproperties _ hps _ hc

/-! ### Nodes that are put together -/

theorem Child.of_overlay (h : (base.overlay site).Child c) : base.Child c ∨ site.Child c := by
  rcases h with h | @⟨ps, name, hps, hc⟩
  · rcases hsite : site.items with - | i
    · exact .inl (.items (by simpa [overlay, hsite] using h))
    · exact .inr (.items (by simpa [overlay, hsite] using h))
  · rcases hsite : site.properties with - | qs
    · exact .inl (.property (by simpa [overlay, overlayProperties, hsite] using hps) hc)
    · obtain rfl : Members.insertMany (base.properties.getD []) qs = ps := by
        simpa [overlay, overlayProperties, hsite] using hps
      rcases Members.mem_insertMany hc with hc | hc
      · rcases hbase : base.properties with - | bs
        · simp [hbase] at hc
        · exact .inl (.property hbase (by simpa [hbase] using hc))
      · exact .inr (.property hsite hc)

/-- What stands below a site stands below the node on which it is laid. -/
theorem Child.overlay_site (base : SchemaNode)
    (hsite : ∀ ps, site.properties = some ps → (Members.keys ps).Nodup) (h : site.Child c) :
    (base.overlay site).Child c := by
  rcases h with h | @⟨ps, name, hps, hc⟩
  · exact .items (by simp [overlay, h])
  · have hmem := Members.mem_insertMany_of_mem (base.properties.getD []) (hsite ps hps) hc
    exact .property (by simp [overlay, overlayProperties, hps]) hmem

/-- What stands below a node whose parts have been put in. -/
theorem Child.of_fill {done : List (Step × SchemaNode)} (h : (n.fill done).Child c) :
    ∃ step, (step, c) ∈ done := by
  rcases h with h | @⟨ps, name, hps, hc⟩
  · obtain ⟨⟨step, m⟩, hm, heq⟩ := List.exists_of_findSome?_eq_some h
    rcases step with - | name
    · cases heq
      exact ⟨_, hm⟩
    · cases heq
  · obtain ⟨qs, -, rfl⟩ := Option.map_eq_some_iff.mp hps
    obtain ⟨⟨step, m⟩, hm, heq⟩ := List.mem_filterMap.mp hc
    rcases step with - | name
    · cases heq
    · cases heq
      exact ⟨_, hm⟩

/-! ### References -/

/-- A node refers to something by itself or below. -/
theorem Refers.cases (h : n.Refers r) : n.reference = some r ∨ ∃ c, n.Child c ∧ c.Refers r := by
  cases h with
  | here h => exact .inl h
  | child hc h => exact .inr ⟨_, hc, h⟩

theorem Refers.of_overlay (h : (base.overlay site).Refers r) :
    base.Refers r ∨ ∃ c, site.Child c ∧ c.Refers r := by
  rcases h.cases with h | ⟨c, hc, h⟩
  · exact .inl (.here h)
  · rcases hc.of_overlay with hc | hc
    · exact .inl (.child hc h)
    · exact .inr ⟨c, hc, h⟩

theorem refers_referenceTo {T : String} :
    (referenceTo T).Refers r ↔ r = documentFileName T := by
  constructor
  · intro h
    rcases h.cases with h | ⟨c, hc | ⟨hps, -⟩, -⟩
    · exact (Option.some.inj h).symm
    · cases hc
    · cases hps
  · rintro rfl
    exact .here rfl

theorem not_refers_ofType {element : String} : ¬ (ofType element).Refers r := by
  intro h
  rcases h.cases with h | ⟨c, hc | ⟨hps, -⟩, -⟩
  · cases h
  · cases hc
  · cases hps

/-- The dialect of a document is no reference. -/
theorem refers_schema {uri : Option String} : { n with schema := uri }.Refers r ↔ n.Refers r := by
  constructor
  · intro h
    rcases h.cases with h | ⟨c, hc | ⟨hps, hc⟩, h⟩
    · exact .here h
    · exact .child (.items hc) h
    · exact .child (.property hps hc) h
  · intro h
    rcases h.cases with h | ⟨c, hc | ⟨hps, hc⟩, h⟩
    · exact .here h
    · exact .child (.items hc) h
    · exact .child (.property hps hc) h

end SchemaNode

end RamlSchema
