/-
RamlSchema/Proofs/Normalize/Bases.lean

Base types that are declared inside a node, and base types with names.

A node can have the members of its base type among its own, or it can give the name of
a type that has them (`Rebased`).  In the first form nothing tells the one from the
other, so they must not clash: what they may both say is told by facets only.  Two
trees are the same but for such a node where it stands (`Moved`).

Main result: `Moved.shapes`, what the shapes of two such nodes have to do with each
other.
-/
import RamlSchema.Proofs.Normalize.Likeness
import RamlSchema.Proofs.Normalize.Rereading

namespace RamlSchema

open SchemaNode

theorem Members.get?_filter {α : Type} (ms : Members α) (p : String → Bool) (k : String) :
    Members.get? (ms.filter fun m => p m.1) k = if p k then ms.get? k else none := by
  induction ms with
  | nil => simp [get?]
  | cons m ms ih =>
    by_cases hm : p m.1 = true <;> by_cases hk : m.1 = k
    · subst hk
      simp [get?, hm]
    · simp [get?, hm, hk, ih]
    · subst hk
      simp [hm, ih]
    · simp [get?, hm, hk, ih]

/-! ### Reading shapes -/

namespace NodeShape

variable {raw : Json} {n n' : NodeShape} {ms : Members Json}

theorem get?_facets (n : NodeShape) (key : String) : Members.get? n.facets key
    = if key ∉ authoringKeys ∧ key ∉ keywords then n.members.get? key else none := by
  have h := Members.get?_filter n.members
    (fun k => decide (k ∉ authoringKeys ∧ k ∉ keywords)) key
  simpa only [facets, decide_eq_true_eq] using h

/-- What the shape of an object is. -/
theorem ofJson_obj_iff : ofJson (.obj ms) = .ok n ↔ n.members = ms ∧
    propertiesOf (ms.get? "properties") = .ok n.properties ∧
    ∃ text, typeText (ms.get? "type") = .ok text ∧
      (text <|> n.properties.map fun _ => "object").mapM typeOf = .ok n.type := by
  constructor
  · intro h
    obtain ⟨ps, hps, h⟩ := Except.bind_eq_ok_iff.mp h
    obtain ⟨text, htext, h⟩ := Except.bind_eq_ok_iff.mp h
    obtain ⟨type, htype, h⟩ := Except.bind_eq_ok_iff.mp h
    cases h
    exact ⟨rfl, hps, text, htext, htype⟩
  · rintro ⟨rfl, hps, text, htext, htype⟩
    refine Except.bind_eq_ok_iff.mpr ⟨_, hps, Except.bind_eq_ok_iff.mpr ⟨_, htext, ?_⟩⟩
    exact Except.bind_eq_ok_iff.mpr ⟨_, htype, rfl⟩

/-- The part that declared items stand for. -/
def partOfItems? : Option Json → Option Part
  | some (.str s) => some (.ofExpression (.str s))
  | some (.arr js) => some (.ofExpression (.arr js))
  | some (.obj ms) => some (.node (.obj ms))
  | _ => none

/-- Without an array expression, declared items are what counts. -/
theorem itemPart?_of_items (h : ∀ element, n.type ≠ some (.arrayOf element)) :
    n.itemPart? = partOfItems? n.items? := by
  unfold itemPart?
  split
  · exact absurd (by assumption) (h _)
  · rfl

/-- Items that pass the check stand for a part. -/
theorem isSome_itemPart? (h : ∀ element, n.type ≠ some (.arrayOf element))
    (hcheck : n.checkItems = .ok ()) {j : Json} (hj : n.items? = some j) :
    n.itemPart?.isSome = true := by
  rw [itemPart?_of_items h, hj]
  unfold checkItems at hcheck
  split at hcheck
  · exact absurd (by assumption) (h _)
  · rw [hj] at hcheck
    cases j <;> first | rfl | cases hcheck

theorem mem_flagged {ps : Members Json} (hnodup : ps.keys.Nodup) {name : String} :
    name ∈ flagged ps ↔ ∃ j, ps.get? name = some j ∧ isFlagged j = true := by
  simp only [flagged, Members.keys, List.mem_map, List.mem_filter,
    Members.get?_eq_some_iff_mem hnodup]
  constructor
  · rintro ⟨⟨_, j⟩, ⟨hmem, hflag⟩, rfl⟩
    exact ⟨j, hmem, hflag⟩
  · rintro ⟨j, hmem, hflag⟩
    exact ⟨(name, j), ⟨hmem, hflag⟩, rfl⟩

theorem nodup_flagged {ps : Members Json} (hnodup : ps.keys.Nodup) : (flagged ps).Nodup :=
  (List.filter_sublist.map Prod.fst).nodup hnodup

/-- The properties of a node repeat no name unless the node does. -/
theorem nodup_properties (hwf : raw.WellFormed) (hn : ofJson raw = .ok n) :
    (Members.keys (n.properties.getD [])).Nodup := by
  obtain ⟨rfl, -⟩ := of_ofJson hn
  rcases hps : n.properties with - | ps
  · exact List.nodup_nil
  · have hmem := Members.mem_of_get? (properties_of_ofJson hn hps)
    have hps' : (Json.obj ps).WellFormed := Json.wellFormedMembers_iff.mp hwf.2 _ hmem
    exact hps'.1

end NodeShape

/-! ### Bases -/

/-- `ms` are members of a node and, below them, those of its base; and `ms'` are those of
a node that gives the name `N` of its base instead.  What they may both say is told by
facets only. -/
structure Rebased (N : String) (base ms ms' : Members Json) : Prop where
  named : ms'.get? "type" = some (.arr [.str N])
  type : ms.get? "type" = base.get? "type"
  get? : ∀ key, key ≠ "type" → key ∉ NodeShape.authoringKeys →
    ms.get? key = (ms'.get? key).or (base.get? key)
  /-- With properties, the node is told what it is by its base. -/
  properties : (ms'.get? "properties").isSome → base.get? "properties" = none ∧
    NodeShape.typeText (base.get? "type") ≠ .ok none
  /-- With items, the node does not have them from the type expression of its base. -/
  items : (ms'.get? "items").isSome → ms'.get? "items" ≠ some .null ∧
    ∀ n element, NodeShape.ofJson (.obj base) = .ok n → n.type ≠ some (.arrayOf element)
  /-- The base does not say what is required, and the node says nothing twice. -/
  required : base.get? "required" = none
  nodup : ∀ names, NodeShape.listed (ms'.get? "required") = .ok names → names.Nodup
  reference : ms'.get? "$ref" = none

mutual

/-- Two trees are the same but for nodes with bases. -/
inductive Json.Moved (N : String) (base : Members Json) : Json → Json → Prop
  | refl (raw) : Json.Moved N base raw raw
  | base {ms ms'} : Rebased N base ms ms' → Json.Moved N base (.obj ms) (.obj ms')
  | deeper {ms ms'} : Json.MovedBelow N base ms ms' → Json.Moved N base (.obj ms) (.obj ms')

/-- Two nodes say the same, and their properties or their items are the same but for
nodes with bases. -/
inductive Json.MovedBelow (N : String) (base : Members Json) : Members Json → Members Json → Prop
  | same {ms ms'} :
      (∀ key, Members.get? ms key = Members.get? ms' key) → Json.MovedBelow N base ms ms'
  | properties {ms ms' ps ps'} :
      (∀ key, key ≠ "properties" → Members.get? ms key = Members.get? ms' key) →
      Members.get? ms "properties" = some (.obj ps) →
      Members.get? ms' "properties" = some (.obj ps') → Members.keys ps = Members.keys ps' →
      (∀ name j j', Members.get? ps name = some j → Members.get? ps' name = some j' →
        Json.Moved N base j j') → Json.MovedBelow N base ms ms'
  | items {ms ms' j j'} :
      (∀ key, key ≠ "items" → Members.get? ms key = Members.get? ms' key) →
      Members.get? ms "items" = some j → Members.get? ms' "items" = some j' →
      Json.Moved N base j j' → Json.MovedBelow N base ms ms'

end

/-- Two parts are the same but for nodes with bases. -/
inductive Part.Moved (N : String) (base : Members Json) : Part → Part → Prop
  | written (element) : Moved N base (.written element) (.written element)
  | node {raw raw'} : raw.Moved N base raw' → Moved N base (.node raw) (.node raw')

theorem Part.Moved.refl {N : String} {base : Members Json} (part : Part) :
    part.Moved N base part := by
  cases part with
  | node raw => exact .node (.refl raw)
  | written element => exact .written element

variable {N : String} {base : Members Json}

namespace Rebased

variable {ms ms' : Members Json} {n own b : NodeShape} (h : Rebased N base ms ms')
include h

theorem type_own (hN : TypeExpr.Plain N) (hown : NodeShape.ofJson (.obj ms') = .ok own) :
    own.type = some (.named N) := by
  obtain ⟨-, -, text, htext, htype⟩ := NodeShape.ofJson_obj_iff.mp hown
  have hnonblank : (NodeShape.nonblank N).map some = .ok text := by rwa [h.named] at htext
  rw [hN.trimmed] at hnonblank
  cases hnonblank
  have hparse : some <$> NodeShape.typeOf N = Except.ok own.type := htype
  rw [NodeShape.typeOf, hN.named] at hparse
  exact (Except.ok.inj hparse).symm

section

variable (hn : NodeShape.ofJson (.obj ms) = .ok n) (hown : NodeShape.ofJson (.obj ms') = .ok own)
  (hb : NodeShape.ofJson (.obj base) = .ok b)
include hn hown hb

/-- The properties are those of the one or of the other. -/
theorem properties_cases : own.properties = none ∧ n.properties = b.properties ∨
    b.properties = none ∧ n.properties = own.properties ∧
      NodeShape.typeText (base.get? "type") ≠ .ok none := by
  obtain ⟨-, hps, -⟩ := NodeShape.ofJson_obj_iff.mp hn
  obtain ⟨-, hpsOwn, -⟩ := NodeShape.ofJson_obj_iff.mp hown
  obtain ⟨-, hpsBase, -⟩ := NodeShape.ofJson_obj_iff.mp hb
  rw [h.get? "properties" (by decide) (by decide)] at hps
  rcases hget : ms'.get? "properties" with - | j
  · rw [hget] at hps hpsOwn
    rw [Option.none_or, hpsBase] at hps
    exact .inl ⟨(Except.ok.inj hpsOwn).symm, (Except.ok.inj hps).symm⟩
  · obtain ⟨hnone, htype⟩ := h.properties (by rw [hget]; rfl)
    rw [hget] at hps hpsOwn
    rw [Option.some_or, hpsOwn] at hps
    rw [hnone] at hpsBase
    exact .inr ⟨(Except.ok.inj hpsBase).symm, (Except.ok.inj hps).symm, htype⟩

theorem type_eq : n.type = b.type := by
  have hcases := h.properties_cases hn hown hb
  obtain ⟨-, -, text, htext, htype⟩ := NodeShape.ofJson_obj_iff.mp hn
  obtain ⟨-, -, textBase, htextBase, htypeBase⟩ := NodeShape.ofJson_obj_iff.mp hb
  rw [h.type, htextBase] at htext
  obtain rfl := Except.ok.inj htext
  rcases textBase with - | text
  · -- for want of a type it counts whether there are properties
    obtain ⟨-, hps⟩ | ⟨-, -, hne⟩ := hcases
    · rw [hps, htypeBase] at htype
      exact (Except.ok.inj htype).symm
    · exact absurd htextBase hne
  · exact (Except.ok.inj (htypeBase.symm.trans htype)).symm

theorem itemPart?_eq (hN : TypeExpr.Plain N) (hitems : own.checkItems = .ok ()) :
    n.itemPart? = own.itemPart?.or b.itemPart? := by
  have hget := h.get? "items" (by decide) (by decide)
  have hgetOwn : own.members.get? "items" = ms'.get? "items" := by
    rw [(NodeShape.ofJson_obj_iff.mp hown).1]
  have harrayOwn : ∀ element, own.type ≠ some (.arrayOf element) := by
    simp [h.type_own hN hown]
  rw [← (NodeShape.ofJson_obj_iff.mp hn).1, ← (NodeShape.ofJson_obj_iff.mp hb).1] at hget
  rcases hj : ms'.get? "items" with - | j <;> rw [hj] at hget hgetOwn
  · have hnone : own.itemPart? = none := by
      simp [NodeShape.itemPart?_of_items harrayOwn, NodeShape.items?, hgetOwn,
        NodeShape.partOfItems?]
    rw [Option.none_or] at hget
    rw [hnone, Option.none_or]
    simp only [NodeShape.itemPart?, NodeShape.items?, h.type_eq hn hown hb, hget]
  · obtain ⟨hnull, harray⟩ := h.items (by rw [hj]; rfl)
    rw [Option.some_or] at hget
    have heq : n.items? = own.items? := by simp only [NodeShape.items?, hget, hgetOwn]
    have hsome : own.items? = some j := by
      rw [hj] at hnull
      cases j <;> first | exact absurd rfl hnull | simp [NodeShape.items?, hgetOwn]
    have hpart : n.itemPart? = own.itemPart? := by
      rw [NodeShape.itemPart?_of_items harrayOwn, NodeShape.itemPart?_of_items, heq]
      exact fun element => h.type_eq hn hown hb ▸ harray b element hb
    obtain ⟨part, hsomePart⟩ := Option.isSome_iff_exists.mp
      (NodeShape.isSome_itemPart? harrayOwn hitems hsome)
    rw [hpart, hsomePart, Option.some_or]

/-- The required names are those of both. -/
theorem perm_requiredNames (hrequired : own.checkRequired = .ok ()) :
    n.requiredNames.Perm (Names.addAll b.requiredNames own.requiredNames) := by
  obtain ⟨names, hlisted, -⟩ := Except.map_eq_ok_iff.mp hrequired
  have hget := h.get? "required" (by decide) (by decide)
  rw [h.required, Option.or_none] at hget
  have hnames : n.requiredNames
      = Names.addAll names (NodeShape.flagged (n.properties.getD [])) := by
    rw [(NodeShape.ofJson_obj_iff.mp hown).1] at hlisted
    rw [NodeShape.requiredNames, (NodeShape.ofJson_obj_iff.mp hn).1, hget, hlisted]
  have hnamesOwn : own.requiredNames
      = Names.addAll names (NodeShape.flagged (own.properties.getD [])) := by
    rw [NodeShape.requiredNames, hlisted]
  have hnamesBase : b.requiredNames
      = Names.addAll [] (NodeShape.flagged (b.properties.getD [])) := by
    rw [NodeShape.requiredNames, (NodeShape.ofJson_obj_iff.mp hb).1, h.required]
    rfl
  have hnodup : names.Nodup := by
    rw [(NodeShape.ofJson_obj_iff.mp hown).1] at hlisted
    exact h.nodup names hlisted
  have hleft : n.requiredNames.Nodup := hnames ▸ Names.nodup_addAll hnodup _
  have hright : (Names.addAll b.requiredNames own.requiredNames).Nodup := by
    rw [hnamesBase]
    exact Names.nodup_addAll (Names.nodup_addAll List.nodup_nil _) _
  refine (List.perm_ext_iff_of_nodup hleft hright).mpr fun name => ?_
  simp only [hnames, hnamesOwn, hnamesBase, Names.mem_addAll]
  obtain ⟨hps, hps'⟩ | ⟨hps, hps', -⟩ := h.properties_cases hn hown hb
  · simp [hps, hps', NodeShape.flagged, Members.keys, or_comm]
  · simp [hps, hps', NodeShape.flagged, Members.keys]

theorem get?_facets (key : String) : Members.get? n.facets key
    = (Members.get? own.facets key).or (Members.get? b.facets key) := by
  rw [NodeShape.get?_facets, NodeShape.get?_facets, NodeShape.get?_facets,
    (NodeShape.ofJson_obj_iff.mp hn).1, (NodeShape.ofJson_obj_iff.mp hown).1,
    (NodeShape.ofJson_obj_iff.mp hb).1]
  split
  · rename_i hkey
    apply h.get? key _ hkey.1
    rintro rfl
    simp [NodeShape.keywords] at hkey
  · rfl

/-- **A node with its base in it** says what the node that gives the name of the base
says, and what the base says. -/
theorem splits (hN : TypeExpr.Plain N) (hitems : own.checkItems = .ok ())
    (hrequired : own.checkRequired = .ok ()) : n.Splits own b where
  type := h.type_eq hn hown hb
  properties := by
    obtain ⟨hown, hps⟩ | ⟨hbase, hps, -⟩ := h.properties_cases hn hown hb
    · simp [hown, hps]
    · simp [hbase, hps]
  at? step := by
    cases step with
    | items => exact h.itemPart?_eq hn hown hb hN hitems
    | property name =>
      obtain ⟨hown, hps⟩ | ⟨hbase, hps, -⟩ := h.properties_cases hn hown hb
      · simp [NodeShape.at?, hown, hps, Members.get?]
      · simp [NodeShape.at?, hbase, hps, Members.get?]
  reference := by
    have hget := h.get? "$ref" (by decide) (by decide)
    rw [h.reference, Option.none_or] at hget
    simp only [NodeShape.reference?, (NodeShape.ofJson_obj_iff.mp hn).1,
      (NodeShape.ofJson_obj_iff.mp hb).1, hget]
  required := h.perm_requiredNames hn hown hb hrequired
  facets := h.get?_facets hn hown hb

end

end Rebased

/-! ### Nodes that are the same but for what is below -/

namespace NodeShape

variable {ms ms' : Members Json} {n n' : NodeShape} (hn : ofJson (.obj ms) = .ok n)
  (hn' : ofJson (.obj ms') = .ok n')
include hn hn'

theorem type_congr (htype : ms.get? "type" = ms'.get? "type")
    (hps : n.properties.isSome = n'.properties.isSome) : n.type = n'.type := by
  obtain ⟨-, -, text, htext, hparse⟩ := ofJson_obj_iff.mp hn
  obtain ⟨-, -, text', htext', hparse'⟩ := ofJson_obj_iff.mp hn'
  obtain rfl : text = text' := Except.ok.inj (htext.symm.trans (htype ▸ htext'))
  have hobject : (n.properties.map fun _ => "object") = n'.properties.map fun _ => "object" := by
    rcases hp : n.properties with - | ps <;> rcases hp' : n'.properties with - | ps'
    all_goals simp [hp, hp'] at hps ⊢
  rw [hobject, hparse'] at hparse
  exact (Except.ok.inj hparse).symm

/-- Nodes that differ in their properties and items only say the same, if both have
properties or neither, with the same ones flagged, and the same steps lead on. -/
theorem resembles_of_get? (hget : ∀ key, key ≠ "properties" → key ≠ "items" →
      ms.get? key = ms'.get? key) (hps : n.properties.isSome = n'.properties.isSome)
    (hflagged : (flagged (n.properties.getD [])).Perm (flagged (n'.properties.getD [])))
    (hsteps : ∀ step, (n.at? step).isSome = (n'.at? step).isSome) : n.Resembles n' where
  type := type_congr hn hn' (hget "type" (by decide) (by decide)) hps
  properties := hps
  steps := hsteps
  reference := by
    rw [reference?, reference?, (ofJson_obj_iff.mp hn).1, (ofJson_obj_iff.mp hn').1,
      hget "$ref" (by decide) (by decide)]
  required := by
    rw [requiredNames, requiredNames, (ofJson_obj_iff.mp hn).1, (ofJson_obj_iff.mp hn').1,
      hget "required" (by decide) (by decide)]
    split
    · exact .refl _
    · exact Names.perm_addAll_right _ hflagged
  facets key := by
    rw [get?_facets, get?_facets, (ofJson_obj_iff.mp hn).1, (ofJson_obj_iff.mp hn').1]
    split
    · rename_i hkey
      apply hget key <;> rintro rfl <;> simp [keywords] at hkey
    · rfl

end NodeShape

namespace Json.Moved

variable {raw raw' : Json} {n n' : NodeShape}

theorem isFlagged_eq (h : raw.Moved N base raw') :
    NodeShape.isFlagged raw = NodeShape.isFlagged raw' := by
  have hcongr : ∀ ms ms', Members.get? ms "required" = Members.get? ms' "required" →
      NodeShape.isFlagged (.obj ms) = NodeShape.isFlagged (.obj ms') := fun ms ms' heq => by
    show decide ((Members.get? ms "required").bind bool? = some true) = _
    rw [heq]
    rfl
  cases h with
  | refl => rfl
  | base h =>
    have hget := h.get? "required" (by decide) (by decide)
    rw [h.required, Option.or_none] at hget
    exact hcongr _ _ hget
  | deeper h =>
    cases h with
    | same hget => exact hcongr _ _ (hget "required")
    | properties hget => exact hcongr _ _ (hget "required" (by decide))
    | items hget => exact hcongr _ _ (hget "required" (by decide))

/-- What two nodes have to do with each other that are the same but for nodes with
bases below them. -/
def Below (N : String) (base : Members Json) (n n' : NodeShape) : Prop :=
  n.Resembles n' ∧ ∀ step part part', n.at? step = some part → n'.at? step = some part' →
    part.Moved N base part'

theorem below_refl (n : NodeShape) : Below N base n n := by
  refine ⟨⟨rfl, rfl, fun _ => rfl, rfl, .refl _, fun _ => rfl⟩, ?_⟩
  intro step part part' hpart hpart'
  obtain rfl := Option.some.inj (hpart.symm.trans hpart')
  exact .refl part

section

variable {ms ms' : Members Json} (hn : NodeShape.ofJson (.obj ms) = .ok n)
  (hn' : NodeShape.ofJson (.obj ms') = .ok n')
include hn hn'

theorem below_same (hget : ∀ key, ms.get? key = ms'.get? key) : Below N base n n' := by
  obtain ⟨hms, hproperties, -⟩ := NodeShape.ofJson_obj_iff.mp hn
  obtain ⟨hms', hproperties', -⟩ := NodeShape.ofJson_obj_iff.mp hn'
  have hps : n.properties = n'.properties := by
    rw [hget "properties", hproperties'] at hproperties
    exact (Except.ok.inj hproperties).symm
  have htype := NodeShape.type_congr hn hn' (hget "type") (by rw [hps])
  have hat : ∀ step, n.at? step = n'.at? step := fun step => by
    cases step with
    | items =>
      simp only [NodeShape.at?, NodeShape.itemPart?, NodeShape.items?, htype, hms, hms', hget]
    | property name => simp only [NodeShape.at?, hps]
  refine ⟨NodeShape.resembles_of_get? hn hn' (fun key _ _ => hget key) (by rw [hps]) (by rw [hps])
    (fun step => by rw [hat]), ?_⟩
  intro step part part' hpart hpart'
  obtain rfl := Option.some.inj (hpart.symm.trans ((hat step).trans hpart'))
  exact .refl part

theorem below_properties {ps ps' : Members Json} (hnodup : ps.keys.Nodup)
    (hget : ∀ key, key ≠ "properties" → ms.get? key = ms'.get? key)
    (hps : ms.get? "properties" = some (.obj ps)) (hps' : ms'.get? "properties" = some (.obj ps'))
    (hkeys : ps.keys = ps'.keys)
    (heach : ∀ name j j', ps.get? name = some j → ps'.get? name = some j' → j.Moved N base j') :
    Below N base n n' := by
  have hnodup' : ps'.keys.Nodup := hkeys ▸ hnodup
  obtain ⟨hms, hproperties, -⟩ := NodeShape.ofJson_obj_iff.mp hn
  obtain ⟨hms', hproperties', -⟩ := NodeShape.ofJson_obj_iff.mp hn'
  rw [hps] at hproperties
  rw [hps'] at hproperties'
  have hsome : n.properties = some ps := (Except.ok.inj hproperties).symm
  have hsome' : n'.properties = some ps' := (Except.ok.inj hproperties').symm
  have hboth : n.properties.isSome = n'.properties.isSome := by
    rw [hsome, hsome', Option.isSome_some, Option.isSome_some]
  have htype := NodeShape.type_congr hn hn' (hget "type" (by decide)) hboth
  have hitems : n.itemPart? = n'.itemPart? := by
    simp only [NodeShape.itemPart?, NodeShape.items?, htype, hms, hms', hget "items" (by decide)]
  have hisSome : ∀ name, (ps.get? name).isSome = (ps'.get? name).isSome := fun name => by
    rw [Bool.eq_iff_iff]
    show ps.contains name = true ↔ ps'.contains name = true
    rw [Members.contains_iff_mem_keys, Members.contains_iff_mem_keys, hkeys]
  refine ⟨NodeShape.resembles_of_get? hn hn' (fun key hkey _ => hget key hkey) hboth ?_ ?_, ?_⟩
  · rw [hsome, hsome', Option.getD_some, Option.getD_some]
    refine (List.perm_ext_iff_of_nodup (NodeShape.nodup_flagged hnodup)
      (NodeShape.nodup_flagged hnodup')).mpr fun name => ?_
    rw [NodeShape.mem_flagged hnodup, NodeShape.mem_flagged hnodup']
    have hsteps := hisSome name
    rcases hj : ps.get? name with - | j <;> rcases hj' : ps'.get? name with - | j'
    all_goals simp [hj, hj'] at hsteps ⊢
    rw [(heach name j j' hj hj').isFlagged_eq]
  · intro step
    cases step with
    | items => exact congrArg Option.isSome hitems
    | property name => simpa [NodeShape.at?, hsome, hsome'] using hisSome name
  · intro step part part' hpart hpart'
    cases step with
    | items =>
      obtain rfl := Option.some.inj (hpart.symm.trans (hitems.trans hpart'))
      exact .refl part
    | property name =>
      simp only [NodeShape.at?, hsome, hsome', Option.getD_some, Option.map_eq_some_iff]
        at hpart hpart'
      obtain ⟨j, hj, rfl⟩ := hpart
      obtain ⟨j', hj', rfl⟩ := hpart'
      exact .node (heach name j j' hj hj')

theorem below_items {j j' : Json} (hget : ∀ key, key ≠ "items" → ms.get? key = ms'.get? key)
    (hj : ms.get? "items" = some j) (hj' : ms'.get? "items" = some j')
    (hmoved : j.Moved N base j') : Below N base n n' := by
  obtain ⟨hms, hproperties, -⟩ := NodeShape.ofJson_obj_iff.mp hn
  obtain ⟨hms', hproperties', -⟩ := NodeShape.ofJson_obj_iff.mp hn'
  have hps : n.properties = n'.properties := by
    rw [hget "properties" (by decide), hproperties'] at hproperties
    exact (Except.ok.inj hproperties).symm
  have htype := NodeShape.type_congr hn hn' (hget "type" (by decide)) (by rw [hps])
  have hitems : Option.Rel (Part.Moved N base) n.itemPart? n'.itemPart? := by
    have hrefl : ∀ part : Option Part, Option.Rel (Part.Moved N base) part part := fun part => by
      cases part with
      | none => exact .none
      | some part => exact .some (.refl part)
    by_cases harray : ∃ element, n.type = some (.arrayOf element)
    · -- the element of the expression counts, and the items do not
      obtain ⟨element, helement⟩ := harray
      have heq : n.itemPart? = n'.itemPart? := by
        simp only [NodeShape.itemPart?, ← htype, helement]
      exact heq ▸ hrefl _
    · have hnone : ∀ element, n.type ≠ some (.arrayOf element) := not_exists.mp harray
      rw [NodeShape.itemPart?_of_items hnone,
        NodeShape.itemPart?_of_items (n := n') (htype ▸ hnone)]
      simp only [NodeShape.items?, hms, hms', hj, hj']
      cases hmoved with
      | refl => exact hrefl _
      | base h => exact .some (.node (.base h))
      | deeper h => exact .some (.node (.deeper h))
  refine ⟨NodeShape.resembles_of_get? hn hn' (fun key _ hkey => hget key hkey) (by rw [hps])
    (by rw [hps]) ?_, ?_⟩
  · intro step
    cases step with
    | items => exact isSome_eq_of_rel hitems
    | property name => simp only [NodeShape.at?, hps]
  · intro step part part' hpart hpart'
    cases step with
    | items =>
      have hpart : n.itemPart? = some part := hpart
      have hpart' : n'.itemPart? = some part' := hpart'
      rw [hpart, hpart'] at hitems
      cases hitems with
      | some h => exact h
    | property name =>
      have heq : n.at? (.property name) = n'.at? (.property name) := by
        simp only [NodeShape.at?, hps]
      obtain rfl := Option.some.inj (hpart.symm.trans (heq.trans hpart'))
      exact .refl part

end

/-- **Of two nodes with shapes**, one has its base in it and the other names it, or both
say the same and their parts are the same but for such nodes. -/
theorem shapes (h : raw.Moved N base raw') (hn : NodeShape.ofJson raw = .ok n)
    (hn' : NodeShape.ofJson raw' = .ok n') (hwf : raw.WellFormed) :
    (∃ ms ms', raw = .obj ms ∧ raw' = .obj ms' ∧ Rebased N base ms ms') ∨ Below N base n n' := by
  cases h with
  | refl =>
    obtain rfl := Except.ok.inj (hn.symm.trans hn')
    exact .inr (below_refl n)
  | base h => exact .inl ⟨_, _, rfl, rfl, h⟩
  | deeper h =>
    refine .inr ?_
    cases h with
    | same hget => exact below_same hn hn' hget
    | @properties _ _ ps ps' hget hps hps' hkeys heach =>
      have hmem : (Json.obj ps).WellFormed :=
        Json.wellFormedMembers_iff.mp hwf.2 _ (Members.mem_of_get? hps)
      exact below_properties hn hn' hmem.1 hget hps hps' hkeys heach
    | items hget hj hj' hmoved => exact below_items hn hn' hget hj hj' hmoved

end Json.Moved

end RamlSchema
