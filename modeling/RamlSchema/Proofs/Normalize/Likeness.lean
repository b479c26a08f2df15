/-
RamlSchema/Proofs/Normalize/Likeness.lean

Nodes of declared trees that become alike schemas.

What becomes of a node depends on what the node says itself and on what becomes of its
parts, step by step (`at?_site`).  So two nodes that say the same become alike schemas
if their parts do.  And a node that says what one node says, and what a second one says
where the first says nothing, becomes what the first one becomes, laid over what the
second one becomes.

Main results: `Resembles.alike` and `Splits.alike`.
-/
import RamlSchema.Proofs.Normalize.Hygiene
import RamlSchema.Proofs.Normalize.Meaning
import RamlSchema.Proofs.Schema.Alike

namespace RamlSchema

open SchemaNode

theorem isSome_eq_of_rel {α β : Type} {S : α → β → Prop} {a : Option α} {b : Option β}
    (h : Option.Rel S a b) : a.isSome = b.isSome := by
  cases h <;> rfl

/-! ### Parts step by step -/

namespace NodeShape

/-- The part that a step from a node leads to. -/
def at? (n : NodeShape) : Step → Option Part
  | .items => n.itemPart?
  | .property name => (Members.get? (n.properties.getD []) name).map .node

variable {n : NodeShape} {step : Step} {part : Part}

theorem mem_parts_of_at? (h : n.at? step = some part) : (step, part) ∈ n.parts := by
  cases step with
  | items =>
    have hpart : n.itemPart? = some part := h
    simp [parts, itemParts, hpart]
  | property name =>
    obtain ⟨raw, hraw, rfl⟩ := Option.map_eq_some_iff.mp h
    exact List.mem_append_right _ (List.mem_map.mpr ⟨_, Members.mem_of_get? hraw, rfl⟩)

theorem at?_of_mem_parts (hnodup : (Members.keys (n.properties.getD [])).Nodup)
    (h : (step, part) ∈ n.parts) : n.at? step = some part := by
  rcases List.mem_append.mp h with hitem | hproperty
  · obtain ⟨hpart, rfl⟩ : n.itemPart? = some part ∧ Step.items = step := by
      simpa [itemParts] using hitem
    exact hpart
  · obtain ⟨p, hp, heq⟩ := List.mem_map.mp hproperty
    cases heq
    rw [at?, (Members.get?_eq_some_iff_mem hnodup).mpr hp]
    rfl

section

variable {R : Part → SchemaNode → Prop} {done : List (Step × SchemaNode)}

theorem properties_of_related {ps : Members Json}
    (h : List.Forall₂ (Labelled R) (ps.map fun p => (Step.property p.1, Part.node p.2)) done) :
    itemsIn done = none ∧
      List.Forall₂ (Labelled fun raw n => R (.node raw) n) ps (propertiesIn done) := by
  induction ps generalizing done with
  | nil =>
    cases h
    exact ⟨rfl, .nil⟩
  | cons p ps ih =>
    obtain ⟨⟨step, m⟩, done', ⟨hstep, hm⟩, hdone', rfl⟩ := List.forall₂_cons_left_iff.mp h
    obtain rfl : Step.property p.1 = step := hstep
    obtain ⟨hitems, hps⟩ := ih hdone'
    exact ⟨hitems, .cons ⟨rfl, hm⟩ hps⟩

/-- Where parts have been converted, a step that leads to a part leads to its
conversion. -/
theorem at?_site (h : List.Forall₂ (Labelled R) n.parts done) (step : Step) :
    Option.Rel R (n.at? step) ((n.site done).at? step) := by
  have hboth : Option.Rel R n.itemPart? (itemsIn done) ∧
      List.Forall₂ (Labelled fun raw m => R (.node raw) m) (n.properties.getD [])
        (propertiesIn done) := by
    rcases hitem : n.itemPart? with - | part
    · simp only [parts, itemParts, hitem, Option.toList_none, List.map_nil, List.nil_append] at h
      obtain ⟨hitems, hps⟩ := properties_of_related h
      rw [hitems]
      exact ⟨.none, hps⟩
    · simp only [parts, itemParts, hitem, Option.toList_some, List.map_cons, List.map_nil,
        List.singleton_append] at h
      obtain ⟨⟨step, m⟩, done', ⟨hstep, hm⟩, hdone', rfl⟩ := List.forall₂_cons_left_iff.mp h
      obtain rfl : Step.items = step := hstep
      exact ⟨.some hm, (properties_of_related hdone').2⟩
  cases step with
  | items => exact hboth.1
  | property name =>
    have hget := Members.get?_related hboth.2 name
    rcases hps : n.properties with - | ps <;> rw [hps] at hget
    · simp [at?, SchemaNode.at?, site, assemble, frame, fill, hps, Members.get?]
    · simp only [at?, SchemaNode.at?, site, assemble, frame, fill, hps, Option.map_some,
        Option.getD_some] at hget ⊢
      rcases cases_of_rel hget with ⟨hraw, hm⟩ | ⟨raw, m, hraw, hm, hR⟩ <;> rw [hraw, hm]
      · exact .none
      · exact .some hR

theorem steps_of_related {parts : List (Step × Part)} (h : List.Forall₂ (Labelled R) parts done) :
    done.map Prod.fst = parts.map Prod.fst := by
  induction h with
  | nil => rfl
  | cons hd _ ih => rw [List.map_cons, List.map_cons, ih, hd.1]

/-- The keywords of a node repeat no name unless the node does. -/
theorem distinct_site {raw : Json} (hwf : raw.WellFormed) (hn : ofJson raw = .ok n)
    (h : List.Forall₂ (Labelled R) n.parts done) : (n.site done).Distinct := by
  have hdistinct := distinct_of_steps hwf hn (steps_of_related h)
  exact ⟨hdistinct.properties, hdistinct.extra⟩

end

/-! ### Nodes that say the same -/

/-- Two nodes say the same, and have parts at the same steps. -/
structure Resembles (n n' : NodeShape) : Prop where
  type : n.type = n'.type
  properties : n.properties.isSome = n'.properties.isSome
  steps : ∀ step, (n.at? step).isSome = (n'.at? step).isSome
  reference : n.reference? = n'.reference?
  required : n.requiredNames.Perm n'.requiredNames
  facets : ∀ key, Members.get? n.facets key = Members.get? n'.facets key

/-- `n` says what `own` says, and what `base` says where `own` says nothing. -/
structure Splits (n own base : NodeShape) : Prop where
  type : n.type = base.type
  properties : n.properties.isSome = (own.properties.isSome || base.properties.isSome)
  at? : ∀ step, n.at? step = (own.at? step).or (base.at? step)
  reference : n.reference? = base.reference?
  required : n.requiredNames.Perm (Names.addAll base.requiredNames own.requiredNames)
  facets : ∀ key, Members.get? n.facets key
    = (Members.get? own.facets key).or (Members.get? base.facets key)

variable {n' own base : NodeShape} {R R' : Part → SchemaNode → Prop}
  {done done' doneOwn doneBase : List (Step × SchemaNode)}

theorem rel_required {names names' : List String} (h : names.Perm names') :
    Option.Rel List.Perm (if names.isEmpty then none else some names)
      (if names'.isEmpty then none else some names') := by
  have hempty : names.isEmpty = names'.isEmpty := by
    rw [Bool.eq_iff_iff, List.isEmpty_iff_length_eq_zero, List.isEmpty_iff_length_eq_zero,
      h.length_eq]
  rw [hempty]
  split
  · exact .none
  · exact .some h

/-- **Nodes that say the same become alike schemas**, if their parts do. -/
theorem Resembles.alike (h : n.Resembles n') (hdone : List.Forall₂ (Labelled R) n.parts done)
    (hdone' : List.Forall₂ (Labelled R') n'.parts done') (hdistinct : (n.site done).Distinct)
    (hdistinct' : (n'.site done').Distinct)
    (hparts : ∀ step part part' a b, n.at? step = some part → n'.at? step = some part' →
      R part a → R' part' b → a.Alike b) : (n.site done).Alike (n'.site done') := by
  refine .intro ⟨hdistinct, hdistinct', rfl, h.reference, rfl, rel_required h.required,
    Members.perm_of_get? hdistinct.extra hdistinct'.extra h.facets, ?_, fun step => ?_⟩ ?_
  · simpa [site, assemble, frame, fill] using h.properties
  · rw [← isSome_eq_of_rel (at?_site hdone step), ← isSome_eq_of_rel (at?_site hdone' step)]
    exact h.steps step
  · intro step a b ha hb
    have hrel := at?_site hdone step
    have hrel' := at?_site hdone' step
    rw [ha] at hrel
    rw [hb] at hrel'
    rcases cases_of_rel hrel with ⟨-, hnone⟩ | ⟨part, _, hpart, hsome, hR⟩
    · cases hnone
    · rcases cases_of_rel hrel' with ⟨-, hnone⟩ | ⟨part', _, hpart', hsome', hR'⟩
      · cases hnone
      · cases hsome
        cases hsome'
        exact hparts step part part' a b hpart hpart' hR hR'

theorem overlayRequired_names (names more : List String) :
    overlayRequired (if names.isEmpty then none else some names)
        (if more.isEmpty then none else some more)
      = if (Names.addAll names more).isEmpty then none else some (Names.addAll names more) := by
  rcases more with - | ⟨name, more⟩
  · rfl
  · have hne : Names.addAll names (name :: more) ≠ [] :=
      Names.ne_nil_of_addAll (List.cons_ne_nil name more)
    rcases names with - | ⟨first, names⟩ <;> simp [overlayRequired, hne]

/-- **A node becomes what it says itself, laid over its base**, up to order. -/
theorem Splits.alike (h : n.Splits own base) (hdone : List.Forall₂ (Labelled R) n.parts done)
    (hown : List.Forall₂ (Labelled R') own.parts doneOwn)
    (hbase : List.Forall₂ (Labelled R') base.parts doneBase) (hdistinct : (n.site done).Distinct)
    (hdistinctOwn : (own.site doneOwn).Distinct) (hdistinctBase : (base.site doneBase).Distinct)
    (hparts : ∀ step part a b, n.at? step = some part → R part a → R' part b → a.Alike b) :
    (n.site done).Alike ((base.site doneBase).overlay (own.site doneOwn)) := by
  have hoverlay : ((base.site doneBase).overlay (own.site doneOwn)).Distinct := hdistinctBase.overlay
  have hat := at?_overlay (base.site doneBase) hdistinctOwn
  refine .intro ⟨hdistinct, hoverlay, rfl, h.reference, rfl, ?_,
    Members.perm_of_get? hdistinct.extra hoverlay.extra fun key => ?_, ?_, fun step => ?_⟩ ?_
  · have hrequired := rel_required h.required
    rwa [← overlayRequired_names] at hrequired
  · exact (h.facets key).trans (Members.get?_insertMany base.facets hdistinctOwn.extra key).symm
  · rcases hps : own.properties with - | ps <;>
      simp [site, assemble, frame, fill, SchemaNode.overlay, overlayProperties, h.properties, hps]
  · rw [hat, ← isSome_eq_of_rel (at?_site hdone step), h.at?, Option.isSome_or, Option.isSome_or,
      isSome_eq_of_rel (at?_site hown step), isSome_eq_of_rel (at?_site hbase step)]
  · intro step a b ha hb
    have hrel := at?_site hdone step
    rw [ha, h.at?] at hrel
    rw [hat] at hb
    -- the step is that of the node itself, or else that of the base
    rcases cases_of_rel (at?_site hown step) with ⟨hpart, hm⟩ | ⟨part, m, hpart, hm, hR'⟩
    · rw [hpart, Option.none_or] at hrel
      rw [hm, Option.none_or] at hb
      rcases cases_of_rel (at?_site hbase step) with ⟨-, hm'⟩ | ⟨part, m', hpart', hm', hR'⟩
      · exact absurd (hb.symm.trans hm') (Option.some_ne_none b)
      · obtain rfl := Option.some.inj (hb.symm.trans hm')
        rw [hpart'] at hrel
        cases hrel with
        | some hR =>
          exact hparts step part a b (by rw [h.at?, hpart, hpart']; rfl) hR hR'
    · rw [hpart, Option.some_or] at hrel
      rw [hm, Option.some_or] at hb
      obtain rfl := Option.some.inj hb
      cases hrel with
      | some hR => exact hparts step part a m (by rw [h.at?, hpart]; rfl) hR hR'

end NodeShape

end RamlSchema
