/-
RamlSchema/Proofs/Schema/Alike.lean

Schemas that are the same up to order.

Two nodes match if what they say themselves is the same, whatever the order of their
facets, of their properties and of their required names; and they are alike if they
match and so do the nodes below them, step by step (`Alike`).  No name is repeated in
either, so the order is all in which they can differ.

Main result: `Alike.overlay`.  Laying alike sites over alike schemas gives alike
schemas.
-/
import RamlSchema.Proofs.Normalize.Tasks
import RamlSchema.Proofs.Schema.Overlay
import Mathlib.Data.List.Nodup

namespace RamlSchema

/-! ### Orders -/

namespace Members

variable {α : Type} {ms ns entries : Members α}

/-- With distinct keys, members are read in which only the order can differ. -/
theorem perm_of_get? (hms : ms.keys.Nodup) (hns : ns.keys.Nodup)
    (h : ∀ k, ms.get? k = ns.get? k) : ms.Perm ns := by
  refine (List.perm_ext_iff_of_nodup hms.of_map hns.of_map).mpr fun m => ?_
  rw [← get?_eq_some_iff_mem hms, ← get?_eq_some_iff_mem hns, h]

/-- With distinct keys among those written, what is written is read first. -/
theorem get?_insertMany (ms : Members α) (h : entries.keys.Nodup) (k : String) :
    (ms.insertMany entries).get? k = (entries.get? k).or (ms.get? k) := by
  induction entries generalizing ms with
  | nil => rfl
  | cons e es ih =>
    obtain ⟨he, hes⟩ := List.nodup_cons.mp h
    have hrest := ih (ms.insert e.1 e.2) hes
    rw [insertMany, List.foldl_cons, ← insertMany, hrest, get?_insert]
    by_cases hk : e.1 = k
    · subst hk
      simp [get?, get?_eq_none_iff.mpr he]
    · simp [get?, hk]

theorem get?_related {α β : Type} {R : α → β → Prop} {ps : Members α} {qs : Members β}
    (h : List.Forall₂ (Labelled R) ps qs) (k : String) : Option.Rel R (ps.get? k) (qs.get? k) := by
  induction h with
  | nil => exact .none
  | @cons p q _ _ hpq _ ih =>
    by_cases hp : p.1 = k
    · have hq : q.1 = k := hpq.1.symm.trans hp
      simp only [Members.get?, hp, hq, if_true]
      exact .some hpq.2
    · have hq : ¬ q.1 = k := fun hq => hp (hpq.1.trans hq)
      simp only [Members.get?, hp, hq, if_false]
      exact ih

end Members

namespace Names

variable {names names' more more' : List String}

theorem perm_add (h : names.Perm names') (name : String) :
    (add names name).Perm (add names' name) := by
  unfold add
  simp only [h.mem_iff]
  split
  · exact h
  · exact h.append_right [name]

theorem perm_add_comm (names : List String) (a b : String) :
    (add (add names a) b).Perm (add (add names b) a) := by
  by_cases hab : a = b
  · rw [hab]
  · by_cases ha : a ∈ names <;> by_cases hb : b ∈ names
    all_goals simp [add, ha, hb, hab, Ne.symm hab]
    exact (List.Perm.swap b a []).append_left names

theorem perm_addAll_left (h : names.Perm names') (more : List String) :
    (addAll names more).Perm (addAll names' more) := by
  induction more generalizing names names' with
  | nil => exact h
  | cons name more ih => exact ih (perm_add h name)

theorem perm_addAll_right (names : List String) (h : more.Perm more') :
    (addAll names more).Perm (addAll names more') := by
  induction h generalizing names with
  | nil => exact .refl _
  | cons name _ ih => exact ih (add names name)
  | swap a b rest => exact perm_addAll_left (perm_add_comm names b a) rest
  | trans _ _ ih ih' => exact (ih names).trans (ih' names)

/-- Appending names does not depend on orders but for the order. -/
theorem perm_addAll (h : names.Perm names') (h' : more.Perm more') :
    (addAll names more).Perm (addAll names' more') :=
  (perm_addAll_left h more).trans (perm_addAll_right names' h')

end Names

namespace SchemaNode

/-! ### Step by step -/

/-- The node that a step from a node leads to. -/
def at? (n : SchemaNode) : Step → Option SchemaNode
  | .items => n.items
  | .property name => Members.get? (n.properties.getD []) name

@[simp] theorem at?_relabel (n : SchemaNode) (schema : Option String) (type : Option SchemaType)
    (step : Step) : { n with schema, type }.at? step = n.at? step := by
  cases step <;> rfl

theorem at?_overlay (base : SchemaNode) {site : SchemaNode} (h : site.Distinct) (step : Step) :
    (base.overlay site).at? step = (site.at? step).or (base.at? step) := by
  cases step with
  | items => cases hitems : site.items <;> simp [at?, overlay, hitems]
  | property name =>
    rcases hps : site.properties with - | ps
    · simp [at?, overlay, overlayProperties, hps, Members.get?]
    · simp [at?, overlay, overlayProperties, hps, Members.get?_insertMany _ (h.properties ps hps)]

/-! ### The same up to order -/

/-- What two nodes say themselves is the same up to order, without repetitions, and the
same steps lead on from them. -/
structure Matches (n m : SchemaNode) : Prop where
  distinct : n.Distinct
  distinct' : m.Distinct
  schema : n.schema = m.schema
  reference : n.reference = m.reference
  type : n.type = m.type
  required : Option.Rel List.Perm n.required m.required
  extra : n.extra.Perm m.extra
  properties : n.properties.isSome = m.properties.isSome
  steps : ∀ step, (n.at? step).isSome = (m.at? step).isSome

/-- Two nodes are the same up to order, and so are the nodes below them. -/
inductive Alike : SchemaNode → SchemaNode → Prop
  | intro {n m} : n.Matches m →
      (∀ step a b, n.at? step = some a → m.at? step = some b → Alike a b) → Alike n m

variable {n m s s' : SchemaNode}

namespace Matches

theorem get?_extra (h : n.Matches m) (k : String) :
    Members.get? n.extra k = Members.get? m.extra k :=
  Members.get?_perm h.extra h.distinct.extra k

/-- What nodes say that match, with matching keywords laid over it. -/
theorem overlay (h : n.Matches m) (h' : s.Matches s') : (n.overlay s).Matches (m.overlay s') where
  distinct := h.distinct.overlay
  distinct' := h.distinct'.overlay
  schema := h.schema
  reference := h.reference
  type := h.type
  required := by
    rcases cases_of_rel h'.required with ⟨hs, hs'⟩ | ⟨a, b, hs, hs', hab⟩
    · simpa [SchemaNode.overlay, overlayRequired, hs, hs'] using h.required
    · simp only [SchemaNode.overlay, overlayRequired, hs, hs']
      refine .some (Names.perm_addAll ?_ hab)
      rcases cases_of_rel h.required with ⟨hn, hm⟩ | ⟨c, d, hn, hm, hcd⟩
      · simp [hn, hm]
      · simpa [hn, hm] using hcd
  extra := by
    apply Members.perm_of_get? h.distinct.overlay.extra h.distinct'.overlay.extra
    intro k
    show (Members.insertMany n.extra s.extra).get? k = (Members.insertMany m.extra s'.extra).get? k
    rw [Members.get?_insertMany _ h'.distinct.extra, Members.get?_insertMany _ h'.distinct'.extra,
      h.get?_extra, h'.get?_extra]
  properties := by
    have hproperties := h'.properties
    rcases hs : s.properties with - | ps <;> rcases hs' : s'.properties with - | qs
    · simpa [SchemaNode.overlay, overlayProperties, hs, hs'] using h.properties
    · simp [hs, hs'] at hproperties
    · simp [hs, hs'] at hproperties
    · simp [SchemaNode.overlay, overlayProperties, hs, hs']
  steps step := by
    rw [at?_overlay n h'.distinct, at?_overlay m h'.distinct', Option.isSome_or, Option.isSome_or,
      h.steps, h'.steps]

end Matches

namespace Alike

theorem root (h : n.Alike m) : n.Matches m := by
  cases h with
  | intro hroot _ => exact hroot

theorem step (h : n.Alike m) {step : Step} {a b : SchemaNode} (ha : n.at? step = some a)
    (hb : m.at? step = some b) : a.Alike b := by
  cases h with
  | intro _ hbelow => exact hbelow step a b ha hb

/-- **Laying alike sites over alike schemas.** -/
theorem overlay (h : n.Alike m) (h' : s.Alike s') : (n.overlay s).Alike (m.overlay s') := by
  refine .intro (h.root.overlay h'.root) fun step a b ha hb => ?_
  rw [at?_overlay n h'.root.distinct] at ha
  rw [at?_overlay m h'.root.distinct'] at hb
  have hsteps := h'.root.steps step
  -- either both sites have something at this step, or neither has
  rcases hs : s.at? step with - | c <;> rcases hs' : s'.at? step with - | d
  · rw [hs, Option.none_or] at ha
    rw [hs', Option.none_or] at hb
    exact h.step ha hb
  · simp [hs, hs'] at hsteps
  · simp [hs, hs'] at hsteps
  · rw [hs, Option.some_or] at ha
    rw [hs', Option.some_or] at hb
    cases ha
    cases hb
    exact h'.step hs hs'

/-- Alike nodes of the same dialect and type. -/
theorem relabel (h : n.Alike m) (schema : Option String) (type : Option SchemaType) :
    { n with schema, type }.Alike { m with schema, type } := by
  have hroot := h.root
  refine .intro ⟨⟨hroot.distinct.properties, hroot.distinct.extra⟩,
    ⟨hroot.distinct'.properties, hroot.distinct'.extra⟩, rfl, hroot.reference, rfl,
    hroot.required, hroot.extra, hroot.properties, fun step => ?_⟩ fun step a b ha hb => ?_
  · simpa using hroot.steps step
  · rw [at?_relabel] at ha hb
    exact h.step ha hb

theorem withSchema (h : n.Alike m) (uri : Option String) :
    { n with schema := uri }.Alike { m with schema := uri } := by
  have htype : { m with schema := uri, type := n.type } = { m with schema := uri } := by
    rw [h.root.type]
  exact htype ▸ h.relabel uri n.type

theorem withType (h : n.Alike m) (type : Option SchemaType) :
    { n with type }.Alike { m with type } := by
  have hschema : { m with schema := n.schema, type } = { m with type } := by
    rw [h.root.schema]
  exact hschema ▸ h.relabel n.schema type

/-- The empty schema is like itself. -/
theorem empty : Alike {} {} := by
  have hdistinct : Distinct {} := ⟨nofun, Members.nodup_keys_nil⟩
  refine .intro ⟨hdistinct, hdistinct, rfl, rfl, rfl, .none, .refl _, rfl, fun _ => rfl⟩ ?_
  intro step a b ha
  cases step <;> cases ha

theorem ofType (name : String) : (ofType name).Alike (ofType name) :=
  empty.withType (some (.single name))

end Alike

end SchemaNode

end RamlSchema
