/-
RamlSchema/Proofs/Normalize/Keywords.lean

Which nodes bear the keywords of objects.

Properties and required names belong on an object, or beside a reference to one.
Whether a node gets them can be told from the node and from what is put in the place
of its type.  But the type with which it ends is that of the last of the types from
which it derives, one after the other, which has no declared type itself: this is the
*ground* of the node, and only an object there, or a reference, makes what is laid over
it fit.  The check of properties looks no further than at the name of the type.

Main results: `Progress.Valid.bears` and `Progress.Clean.grounded`, by which the ground of
a type decides what its schema can bear; and `keywords_fit`.
-/
import RamlSchema.Proofs.Normalize.Invariants
import RamlSchema.Proofs.Normalize.Nodes
import RamlSchema.Proofs.Normalize.TopLevel
import RamlSchema.Proofs.Normalize.WellShaped

namespace RamlSchema

open Relation SchemaNode

/-! ### Schemas -/

namespace SchemaNode

/-- The node has properties or required names. -/
def Asks (n : SchemaNode) : Prop :=
  n.properties.getD [] ≠ [] ∨ n.required.isSome = true

/-- The node is an object, or carries a reference. -/
def Bears (n : SchemaNode) : Prop :=
  n.isObject = true ∨ n.reference.isSome = true

/-- The keywords of objects stand only where they belong. -/
def Fits (n : SchemaNode) : Prop :=
  n.Asks → n.Bears

instance : DecidablePred Asks := fun n =>
  inferInstanceAs (Decidable (n.properties.getD [] ≠ [] ∨ n.required.isSome = true))

instance : DecidablePred Bears := fun n =>
  inferInstanceAs (Decidable (n.isObject = true ∨ n.reference.isSome = true))

instance : DecidablePred Fits := fun n =>
  inferInstanceAs (Decidable (n.Asks → n.Bears))

variable {base site : SchemaNode}

theorem asks_overlay : (base.overlay site).Asks ↔ base.Asks ∨ site.Asks := by
  have hproperties : (base.overlay site).properties.getD [] ≠ []
      ↔ base.properties.getD [] ≠ [] ∨ site.properties.getD [] ≠ [] := by
    rcases hsite : site.properties with - | ps
    · simp [overlay, overlayProperties, hsite]
    · simp only [overlay, overlayProperties, hsite, Option.getD_some, ne_eq,
        Members.insertMany_eq_nil_iff]
      tauto
  have hrequired : (base.overlay site).required.isSome = true
      ↔ base.required.isSome = true ∨ site.required.isSome = true := by
    rcases hsite : site.required with - | names <;> simp [overlay, overlayRequired, hsite]
  unfold Asks
  rw [hproperties, hrequired]
  tauto

/-- What is laid over a node fits if the node can bear it. -/
theorem fits_overlay (h : base.Fits) : (base.overlay site).Fits ↔ (site.Asks → base.Bears) := by
  have hbears : (base.overlay site).Bears ↔ base.Bears := Iff.rfl
  rw [Fits, asks_overlay, hbears, or_imp]
  exact and_iff_right h

theorem fits_referenceTo (T : String) : (referenceTo T).Fits :=
  fun _ => .inr rfl

theorem fits_ofType (name : String) : (ofType name).Fits := by
  rintro (h | h)
  · exact absurd rfl h
  · cases h

theorem Fits.schema {n : SchemaNode} (h : n.Fits) (uri : Option String) :
    Fits { n with schema := uri } :=
  h

end SchemaNode

/-! ### Shapes -/

namespace NodeShape

/-- The node declares properties, or names that are required. -/
def Asks (n : NodeShape) : Prop :=
  n.properties.getD [] ≠ [] ∨ n.requiredNames ≠ []

/-- The node is an object, or carries a reference already. -/
def Bears (n : NodeShape) : Prop :=
  n.typeName? = some "object" ∨ n.reference?.isSome = true

instance : DecidablePred Asks := fun n =>
  inferInstanceAs (Decidable (n.properties.getD [] ≠ [] ∨ n.requiredNames ≠ []))

instance : DecidablePred Bears := fun n =>
  inferInstanceAs (Decidable (n.typeName? = some "object" ∨ n.reference?.isSome = true))

variable {n : NodeShape} {done : List (Step × SchemaNode)}

theorem bears_assemble : (n.assemble done).Bears ↔ n.Bears := by
  have htype : (n.assemble done).typeName? = n.typeName? := rfl
  have hreference : (n.assemble done).reference = n.reference? := rfl
  simp [SchemaNode.Bears, Bears, isObject, htype, hreference]

/-- With its parts converted, a node has the properties that it declares. -/
theorem asks_assemble (hsteps : done.map Prod.fst = n.parts.map Prod.fst) :
    (n.assemble done).Asks ↔ n.Asks := by
  have hkeys : Members.keys (propertiesIn done) = Members.keys (n.properties.getD []) := by
    rw [keys_propertiesIn, hsteps, names_parts]
  refine or_congr ?_ ?_
  · rcases hps : n.properties with - | ps
    · simp [assemble, frame, fill, hps]
    · have hnil : propertiesIn done = [] ↔ ps = [] := by
        rw [hps, Option.getD_some, Members.keys, Members.keys] at hkeys
        rw [← List.map_eq_nil_iff (f := Prod.fst), hkeys, List.map_eq_nil_iff]
      simp [assemble, frame, fill, hps, hnil]
  · show (if n.requiredNames.isEmpty then none else some n.requiredNames).isSome = true ↔ _
    rcases n.requiredNames with - | ⟨name, names⟩ <;> simp

theorem asks_site (hsteps : done.map Prod.fst = n.parts.map Prod.fst) :
    (n.site done).Asks ↔ n.Asks :=
  asks_assemble hsteps

end NodeShape

/-! ### Grounds -/

variable {g : TypeGraph} {o : Options} {p : Progress}

/-- The last of the nodes to which a node leads through declared types, one after the
other. -/
inductive NodeShape.Ground (g : TypeGraph) : NodeShape → NodeShape → Prop
  | self {n} : n.declared? g = none → Ground g n n
  | next {n m T tree s} : n.declared? g = some T → g.tree? T = some tree →
      NodeShape.ofJson tree = .ok s → Ground g s m → Ground g n m

/-- The ground of a node, if there is one, can bear the keywords of objects. -/
def NodeShape.Grounded (g : TypeGraph) (n : NodeShape) : Prop :=
  ∀ m, n.Ground g m → m.Bears

/-- So can the ground of a type. -/
def TypeGraph.Grounded (g : TypeGraph) (T : String) : Prop :=
  ∀ tree s, g.tree? T = some tree → NodeShape.ofJson tree = .ok s → s.Grounded g

/-- Wherever a type declares properties or required names, the ground can bear them. -/
def TypeGraph.Fits (g : TypeGraph) (T : String) : Prop :=
  ∀ raw s, g.HasNode T raw → NodeShape.ofJson raw = .ok s → s.Asks → s.Grounded g

namespace NodeShape

variable {n : NodeShape} {T : String}

theorem grounded_of_none (hT : n.declared? g = none) : n.Grounded g ↔ n.Bears := by
  constructor
  · exact fun h => h n (.self hT)
  · rintro h m (_ | ⟨hU, -, -, -⟩)
    · exact h
    · cases hT.symm.trans hU

theorem grounded_of_some (hT : n.declared? g = some T) : n.Grounded g ↔ g.Grounded T := by
  constructor
  · exact fun h tree s htree hs m hm => h m (.next hT htree hs hm)
  · rintro h m (hnone | ⟨hU, htree, hs, hm⟩)
    · cases hnone.symm.trans hT
    · obtain rfl := Option.some.inj (hT.symm.trans hU)
      exact h _ _ htree hs m hm

end NodeShape

section

variable {base : String → SchemaNode → Prop} {raw : Json} {n : SchemaNode} {s : NodeShape}

/-- A node with a ground that bears something bears it too, if this is so of what is put
in the places of types. -/
theorem Renders.bears (hbase : ∀ T b, base T b → g.Grounded T → b.Bears)
    (h : Renders g base (.node raw) n) (hs : NodeShape.ofJson raw = .ok s) (hg : s.Grounded g) :
    n.Bears := by
  obtain ⟨-, done, -, ⟨hT, rfl⟩ | ⟨T, b, hT, hb, rfl⟩⟩ := h.of_shape ⟨"", []⟩ hs
  · exact NodeShape.bears_assemble.mpr ((NodeShape.grounded_of_none hT).mp hg)
  · exact hbase T b hb ((NodeShape.grounded_of_some hT).mp hg)

/-- And the other way round. -/
theorem Renders.grounded (hbase : ∀ T b, base T b → b.Bears → g.Grounded T)
    (h : Renders g base (.node raw) n) (hs : NodeShape.ofJson raw = .ok s) (hn : n.Bears) :
    s.Grounded g := by
  obtain ⟨-, done, -, ⟨hT, rfl⟩ | ⟨T, b, hT, hb, rfl⟩⟩ := h.of_shape ⟨"", []⟩ hs
  · exact (NodeShape.grounded_of_none hT).mpr (NodeShape.bears_assemble.mp hn)
  · exact (NodeShape.grounded_of_some hT).mpr (hbase T b hb hn)

/-- What a node declares it asks for. -/
theorem Renders.asks (h : Renders g base (.node raw) n) (hs : NodeShape.ofJson raw = .ok s)
    (hask : s.Asks) : n.Asks := by
  obtain ⟨-, done, hparts, ⟨-, rfl⟩ | ⟨T, b, -, -, rfl⟩⟩ := h.of_shape ⟨"", []⟩ hs
  all_goals rw [NodeShape.part?_tasks] at hparts
  · exact (NodeShape.asks_assemble hparts.steps).mpr hask
  · exact asks_overlay.mpr (.inr ((NodeShape.asks_site hparts.steps).mpr hask))

theorem Renders.fits (hbase : ∀ T b, base T b → s.declared? g = some T → b.Fits)
    (h : Renders g base (.node raw) n) (hs : NodeShape.ofJson raw = .ok s)
    (hn : s.Asks → n.Bears) : n.Fits := by
  obtain ⟨-, done, hparts, ⟨-, rfl⟩ | ⟨T, b, hT, hb, rfl⟩⟩ := h.of_shape ⟨"", []⟩ hs
  all_goals rw [NodeShape.part?_tasks] at hparts
  · exact fun hask => hn ((NodeShape.asks_assemble hparts.steps).mp hask)
  · rw [fits_overlay (hbase T b hb hT)]
    exact fun hask => hn ((NodeShape.asks_site hparts.steps).mp hask)

/-- In a node in which something holds everywhere, each node of the tree has been rendered
to one in which it does. -/
theorem Renders.exists_everywhere {P : SchemaNode → Prop} {T : String} {tree : Json}
    (hwf : g.WellFormed) (h : Renders g base (.node tree) n) (htree : g.tree? T = some tree)
    (hn : n.Everywhere P) (hraw : g.HasNode T raw) :
    ∃ m, Renders g base (.node raw) m ∧ m.Everywhere P := by
  induction hraw with
  | root htree' =>
    obtain rfl := Option.some.inj (htree.symm.trans htree')
    exact ⟨n, h, hn⟩
  | part hparent hs hpart ih =>
    obtain ⟨m, hm, hall⟩ := ih
    obtain ⟨-, done, hparts, hshape⟩ := hm.of_shape ⟨T, []⟩ hs
    rw [NodeShape.part?_tasks] at hparts
    obtain ⟨c, hmem, hc⟩ := hparts.exists_renders hpart
    have hchild := NodeShape.child_assemble hparts.steps hmem
    refine ⟨c, hc, hall.child c ?_⟩
    rcases hshape with ⟨-, rfl⟩ | ⟨U, b, -, -, rfl⟩
    · exact hchild
    · exact NodeShape.child_overlay_site b
        (distinct_assemble (hwf.hasNode hparent) hs hparts) hchild

end

/-! ### What is done -/

namespace Progress

variable {T : String} {d : SchemaNode}

/-- The schema of a type bears what its ground does. -/
theorem Valid.bears (hp : p.Valid g) (hd : p.definition? T = some d) : g.Grounded T → d.Bears := by
  refine hp.definition_induction (Q := fun T d => g.Grounded T → d.Bears)
    (fun D T tree d _ hbefore htree hrenders hT => ?_) T d hd
  obtain ⟨s, hs⟩ := hrenders.shape
  refine hrenders.bears (fun U b hb hU => ?_) hs (hT tree s htree hs)
  rcases hb with ⟨hget, -⟩ | ⟨rfl, -⟩
  · exact hbefore U b hget hU
  · exact .inr rfl

/-- Without references, it bears nothing else. -/
theorem Clean.grounded (hp : p.Clean g) (hd : p.definition? T = some d) :
    d.Bears → g.Grounded T := by
  refine hp.valid.definition_induction (Q := fun T d => d.Bears → g.Grounded T)
    (fun D T tree d _ hbefore htree hrenders hbears => ?_) T d hd
  intro tree' s htree' hs
  obtain rfl := Option.some.inj (htree.symm.trans htree')
  refine hrenders.grounded (fun U b hb => ?_) hs hbears
  exact hbefore U b (base_of_untargeted hp.untargeted hb).1

/-- **The schema of a type fits everywhere**, if the types to which it leads do. -/
theorem Valid.fits (hp : p.Valid g) (hd : p.definition? T = some d)
    (hfits : ∀ U, ReflTransGen (References g) T U → U ∈ p.definitions.keys → g.Fits U) :
    d.Everywhere SchemaNode.Fits := by
  refine hp.definition_induction (Q := fun T d =>
      (∀ U, ReflTransGen (References g) T U → U ∈ p.definitions.keys → g.Fits U) →
        d.Everywhere SchemaNode.Fits)
    (fun D T tree d hD hbefore htree hrenders hfits => ?_) T d hd hfits
  have hdone : T ∈ p.definitions.keys :=
    List.mem_map.mpr ⟨(T, d), hD.subset (by simp), rfl⟩
  have hroot : (Part.node tree).Placed g T := .root htree
  have hbase : ∀ U b, References g T U → p.base D U b → b.Everywhere SchemaNode.Fits := by
    intro U b href hb
    rcases hb with ⟨hget, -⟩ | ⟨rfl, -⟩
    · exact hbefore U b hget fun V hpath => hfits V (.head href hpath)
    · exact everywhere_referenceTo (fits_referenceTo U)
  refine hrenders.everywhere_of (fun _ _ _ element _ _ _ => fits_ofType element)
    (fun raw n hraw hn => ?_) hbase hroot
  obtain ⟨s, hs⟩ := hn.shape
  refine hn.fits (fun U b hb hU => (hbase U b ⟨raw, s, hraw, hs, hU⟩ hb).here) hs fun hask => ?_
  refine hn.bears (fun U b hb hU => ?_) hs (hfits T .refl hdone raw s hraw hs hask)
  rcases hb with ⟨hget, -⟩ | ⟨rfl, -⟩
  · exact hp.bears (Members.get?_of_prefix ((List.prefix_append D _).trans hD) hget) hU
  · exact .inr rfl

/-- Without references, it fits nowhere else. -/
theorem Clean.fits (hp : p.Clean g) (hwf : g.WellFormed) (hd : p.definition? T = some d)
    (hall : d.Everywhere SchemaNode.Fits) : g.Fits T := by
  intro raw s hraw hs hask
  obtain ⟨tree, htree, hrenders⟩ := hp.valid.renders hd
  obtain ⟨n, hn, hfits⟩ := hrenders.exists_everywhere hwf htree hall hraw
  refine hn.grounded (fun U b hb => ?_) hs (hfits.here (hn.asks hs hask))
  exact hp.grounded (base_of_untargeted hp.untargeted hb).1

end Progress

/-! ### Documents -/

/-- Some node of the tree of a type declares properties on a type that is neither `object`
nor declared. -/
def TypeGraph.Misplaces (g : TypeGraph) (T : String) : Prop :=
  ∃ raw n, g.HasNode T raw ∧ NodeShape.ofJson raw = .ok n ∧ n.properties.getD [] ≠ [] ∧
    ∀ name, n.typeName? = some name → name ≠ "object" ∧ name ∉ g.names

theorem TypeGraph.Misplaces.faulty {T : String} (h : g.Misplaces T) : g.Faulty T := by
  obtain ⟨raw, n, hraw, hn, hps, htype⟩ := h
  refine ⟨raw, hraw, fun m hm hsound => ?_⟩
  obtain rfl := Except.ok.inj (hn.symm.trans hm)
  have hmay : mayHaveProperties g n.schemaType = false := by
    rw [Bool.eq_false_iff]
    intro hmay
    obtain ⟨name, hname, hobject | hdeclared⟩ := NodeShape.mayHaveProperties_iff.mp hmay
    · exact (htype name hname).1 hobject
    · exact (htype name hname).2 hdeclared
  have hcheck := hsound.properties
  rw [NodeShape.checkProperties, hmay] at hcheck
  rcases hlist : n.properties.getD [] with - | ⟨e, es⟩
  · exact hps hlist
  · simp [hlist] at hcheck

/-- **The keywords of objects stand on objects and beside references**, if this is so
wherever the declared trees ask for them: on the ground of the node, be it the node
itself.  Where no cycle is broken, it is so only then.  Properties on a type that is
neither `object` nor declared are refused. -/
theorem keywords_fit (hwf : g.WellFormed) (o : Options) :
    (∀ T doc, (T, doc) ∈ (normalize g o).documents →
      (∀ U, ReflTransGen (References g) T U → U ∈ (converted g o).1.definitions.keys →
        g.Fits U) → doc.Everywhere SchemaNode.Fits) ∧
    (Unbroken g o →
      ((∀ T d, (converted g o).1.definition? T = some d → d.Everywhere SchemaNode.Fits) ↔
        ∀ T ∈ (converted g o).1.definitions.keys, g.Fits T)) ∧
    ∀ T, g.Misplaces T → T ∈ (normalize g o).failed ∧ T ∉ (normalize g o).documents.keys ∧
      (o.onCycle = .reference → o.Suffice g → ∀ f ∈ (normalize g o).failures, f.name = T →
        ∃ l cause, f.error = .malformed l cause) := by
  have hvalid := (idle_converted (g := g) (o := o)).valid
  refine ⟨fun T doc hdoc hfits => ?_, fun ho => ⟨fun hall T hT => ?_, fun hfits T d hd => ?_⟩,
    fun T hT => ⟨failed_of_faulty hT.faulty, fun hkey => ?_, fun ho hlimit f hf _ => ?_⟩⟩
  · obtain ⟨-, -, d, hd, rfl⟩ := mem_documents.mp hdoc
    have hall := hvalid.fits hd hfits
    exact hall.of_child (hall.here.schema _) fun c hc => child_schema.mp hc
  · obtain ⟨d, hd⟩ := Members.exists_get?_of_mem_keys hT
    exact (clean_converted ho).fits hwf hd (hall T d hd)
  · exact hvalid.fits hd fun U _ hU => hfits U hU
  · exact hvalid.not_faulty ((keys_documents hvalid).mp hkey).1 hT.faulty
  · obtain ⟨l, cause, he, -, -⟩ := failure_malformed ho hlimit hf
    exact ⟨l, cause, he⟩

/-- A type with properties whose base is a string, and a string with required names. -/
def groundlessGraph : TypeGraph :=
  .ofList
    [("Base", .ofType (.str "string")),
      ("Label", .obj
        [("type", .str "Base"), ("properties", .obj [("size", .ofType (.str "integer"))])]),
      ("Code", .obj [("type", .str "string"), ("required", .arr [.str "digits"])])]

/-- Both are written as they are, and nothing is refused. -/
theorem keywords_misplaced :
    (normalize groundlessGraph {}).failures = [] ∧
    (∃ doc, ("Label", doc) ∈ (normalize groundlessGraph {}).documents ∧
      doc.type = some (.single "string") ∧ doc.reference = none ∧
      doc.properties.getD [] ≠ []) ∧
    ∃ doc, ("Code", doc) ∈ (normalize groundlessGraph {}).documents ∧
      doc.type = some (.single "string") ∧ doc.reference = none ∧ doc.required.isSome = true :=
  ⟨rfl, ⟨_, .head _, rfl, rfl, by decide⟩, _, .tail _ (.head _), rfl, rfl, rfl⟩

/-! ### Looking for grounds -/

/-- Whether the ground of a node is found within some steps and can bear the keywords of
objects. -/
def NodeShape.isGrounded (g : TypeGraph) : Nat → NodeShape → Bool
  | 0, _ => false
  | steps + 1, n =>
    match n.declared? g with
    | none => decide n.Bears
    | some T =>
      match (g.tree? T).map NodeShape.ofJson with
      | some (.ok s) => s.isGrounded g steps
      | _ => true

theorem NodeShape.grounded_of_isGrounded {steps : Nat} {n : NodeShape}
    (h : n.isGrounded g steps = true) : n.Grounded g := by
  induction steps generalizing n with
  | zero => cases h
  | succ steps ih =>
    rw [isGrounded] at h
    rcases hT : n.declared? g with - | T
    · rw [grounded_of_none hT]
      simpa [hT] using h
    · rw [grounded_of_some hT]
      intro tree s htree hs
      simp only [hT, htree, Option.map_some, hs] at h
      exact ih h

theorem TypeGraph.fits_of_isGrounded {T : String} (steps : Nat)
    (h : ∀ raw ∈ g.nodes T, ∀ s ∈ (NodeShape.ofJson raw).toOption, s.Asks →
      s.isGrounded g steps = true) : g.Fits T := by
  intro raw s hraw hs hask
  refine NodeShape.grounded_of_isGrounded (h raw (mem_nodes_iff.mpr hraw) s ?_ hask)
  rw [hs]
  rfl

/-- A type that derives from an object through another type, and one with properties on
a string. -/
def groundedGraph : TypeGraph :=
  .ofList
    [("Item", .obj [("type", .str "Part"), ("required", .arr [.str "id"])]),
      ("Part", .obj [("type", .str "Thing"), ("properties", .obj [("of", .ofType (.str "Thing"))])]),
      ("Thing", .ofProperties [("id", .ofType (.str "integer"))]),
      ("Bad", .obj
        [("type", .str "string"), ("properties", .obj [("id", .ofType (.str "integer"))])])]

theorem keywords_fit_grounded :
    (∃ doc, ("Item", doc) ∈ (normalize groundedGraph { onCycle := .error }).documents ∧
      doc.Everywhere SchemaNode.Fits) ∧
    (∀ T d, (converted groundedGraph { onCycle := .error }).1.definition? T = some d →
      d.Everywhere SchemaNode.Fits) ∧
    "Bad" ∈ (normalize groundedGraph { onCycle := .error }).failed := by
  have hwf : groundedGraph.WellFormed := TypeGraph.wellFormed_of_all (by decide)
  have h := keywords_fit hwf { onCycle := .error }
  have hfits : ∀ T ∈ (converted groundedGraph { onCycle := .error }).1.definitions.keys,
      groundedGraph.Fits T := by
    have hgrounded : ∀ T ∈ ["Thing", "Part", "Item"], ∀ raw ∈ groundedGraph.nodes T,
        ∀ s ∈ (NodeShape.ofJson raw).toOption, s.Asks → s.isGrounded groundedGraph 3 = true := by
      decide +kernel
    have hkeys : (converted groundedGraph { onCycle := .error }).1.definitions.keys
        = ["Thing", "Part", "Item"] := by decide +kernel
    rw [hkeys]
    exact fun T hT => TypeGraph.fits_of_isGrounded 3 (hgrounded T hT)
  have hbad : groundedGraph.Misplaces "Bad" := by
    refine ⟨_, _, .root rfl, rfl, by decide +kernel, ?_⟩
    intro name hname
    obtain rfl : "string" = name := Option.some.inj hname
    exact ⟨by decide, by decide⟩
  have hkey : "Item" ∈ (normalize groundedGraph { onCycle := .error }).documents.keys := by
    decide +kernel
  obtain ⟨doc, hdoc⟩ := Members.exists_get?_of_mem_keys hkey
  have hmem := Members.mem_of_get? hdoc
  exact ⟨⟨doc, hmem, h.1 "Item" doc hmem fun U _ hU => hfits U hU⟩,
    (h.2.1 (.inl rfl)).mpr hfits, (h.2.2 "Bad" hbad).1⟩

end RamlSchema
