/-
RamlSchema/Proofs/Normalize/Items.lean

The items that nodes declare.

A node gets its items from its type, from the items that it declares, or from what stands
in the place of its type.  They are looked for in this order: declared items replace those
of a type that is put in place, but where the type is an array expression itself they are
not read, whatever they are (`exec_visit_of_erase`).  Everywhere else they count
(`Json.DeclaresItems`): the node has what becomes of them, at its place in every schema
with its tree, and fails if they are neither an expression nor a node.

Main result: `items_declared`.
-/
import RamlSchema.Proofs.Normalize.Bases
import RamlSchema.Proofs.Normalize.Provenance

namespace RamlSchema

open RamlSchema.Convert SchemaNode Json NodeShape

/-! ### Nodes that declare items -/

/-- The node declares items, and its type is no array expression. -/
structure Json.DeclaresItems (ms : Members Json) (v : Json) : Prop where
  items : ms.get? "items" = some v
  ne_null : v ≠ .null
  type : ∀ e, ¬ WritesType ms (some (.arrayOf e))

variable {g : TypeGraph} {o : Options} {deeper : Visitor} {k : Nat} {l : Location}
  {p p' : Progress} {ms ms' : Members Json} {v c : Json} {s : NodeShape}

namespace Json.DeclaresItems

variable (h : DeclaresItems ms v) (hs : ofJson (.obj ms) = .ok s)
include h hs

theorem items? : s.items? = some v :=
  items?_eq_some_iff.mpr ⟨members_of_ofJson hs ▸ h.items, h.ne_null⟩

theorem itemPart? (hc : ItemsNode v c) : s.itemPart? = some (.node c) :=
  itemPart?_eq_node_iff.mpr (.inr ⟨fun e he => h.type e ((writesType_arrayOf_iff hs).mpr he),
    v, h.items? hs, hc⟩)

theorem checkItems : s.checkItems = .ok () ↔ ∃ c, ItemsNode v c := by
  rw [checkItems_eq_ok_iff hs, or_iff_right fun ⟨e, he⟩ => h.type e he]
  constructor
  · exact fun hall => (hall v h.items).resolve_left h.ne_null
  · intro hc v' hv'
    obtain rfl := Option.some.inj (h.items.symm.trans hv')
    exact .inr hc

end Json.DeclaresItems

/-- A check of items that does not pass tells their kind. -/
theorem NodeShape.checkItems_eq_error (hv : s.items? = some v) {cause : Malformation}
    (h : s.checkItems = .error cause) : cause = .itemsNotType v.kind := by
  unfold checkItems at h
  split at h
  · cases h
  · split at h
    · cases h
    · cases h
    · cases h
    · cases h
    · rename_i j hj
      obtain rfl := Option.some.inj (hv.symm.trans hj)
      exact (Except.error.inj h).symm

/-! ### One level -/

theorem NodeShape.reports_eq_report (s : NodeShape) (l : Location) :
    ∀ t ∈ s.reports l, ∃ e, t = .report e := by
  unfold reports
  split
  · intro t ht
    obtain ⟨m, -, rfl⟩ := List.mem_map.mp ht
    exact ⟨_, rfl⟩
  · exact fun t ht => nomatch ht

/-- Reports change nothing but the trace. -/
theorem Performs.of_reports {ts us : List Task} (hts : ∀ t ∈ ts, ∃ e, t = .report e)
    {r : Except ConvertError (List (Step × SchemaNode))}
    (h : Performs g o k l (ts ++ us) p r p') :
    ∃ events, Performs g o k l us { p with trace := p.trace ++ events } r p' := by
  induction ts generalizing p with
  | nil => exact ⟨[], by simpa using h⟩
  | cons t ts ih =>
    obtain ⟨e, rfl⟩ := hts t List.mem_cons_self
    cases h with
    | report h =>
      obtain ⟨events, h⟩ := ih (fun t ht => hts t (List.mem_cons_of_mem _ ht)) h
      exact ⟨e :: events, by simpa [Progress.emit] using h⟩

/-- Behind the reports, the items are converted first. -/
theorem Performs.items (hcheck : s.checkItems = .ok ()) (hpart : s.itemPart? = some (.node c))
    {done : List (Step × SchemaNode)} (h : Performs g o k l (s.tasks g l) p (.ok done) p') :
    ∃ events i q, Converts g o k (.node c) (l.descend ["items"])
        { p with trace := p.trace ++ events } (.ok i) q ∧ itemsIn done = some i := by
  obtain ⟨rest, htasks⟩ : ∃ rest, s.tasks g l
      = s.reports l ++ .convert .items (.node c) :: rest :=
    ⟨_, by simp [NodeShape.tasks, hcheck, Task.check, itemParts, hpart, Task.ofPart]; rfl⟩
  rw [htasks] at h
  obtain ⟨events, h⟩ := Performs.of_reports (s.reports_eq_report l) h
  cases h with
  | convert hn _ => exact ⟨events, _, _, hn, rfl⟩

/-- A check of items that does not pass comes before all parts. -/
theorem Performs.items_malformed {cause : Malformation} (hcheck : s.checkItems = .error cause)
    {r : Except ConvertError (List (Step × SchemaNode))}
    (h : Performs g o k l (s.tasks g l) p r p') :
    r = .error (.malformed (l.descend ["items"]) cause) := by
  obtain ⟨rest, htasks⟩ : ∃ rest, s.tasks g l
      = s.reports l ++ .fail (.malformed (l.descend ["items"]) cause) :: rest :=
    ⟨_, by simp [NodeShape.tasks, hcheck, Task.check]; rfl⟩
  rw [htasks] at h
  obtain ⟨events, h⟩ := Performs.of_reports (s.reports_eq_report l) h
  cases h
  rfl

theorem NodeShape.items_site (base : SchemaNode) {done : List (Step × SchemaNode)} {i : SchemaNode}
    (h : itemsIn done = some i) : (base.overlay (s.site done)).items = some i := by
  simp [SchemaNode.overlay, site, assemble, fill, h]

/-- **A node that is converted has what becomes of its items.** -/
theorem Converts.items {n : SchemaNode} (hms : DeclaresItems ms v)
    (h : Converts g o (k + 1) (.node (.obj ms)) l p (.ok n) p') :
    ∃ c events i q, ItemsNode v c ∧ Converts g o k (.node c) (l.descend ["items"])
      { p with trace := p.trace ++ events } (.ok i) q ∧ n.items = some i := by
  have hperform : ∃ s done p₁, ofJson (.obj ms) = .ok s ∧
      Performs g o k l (s.tasks g l) p (.ok done) p₁ ∧
      ∀ i, itemsIn done = some i → n.items = some i := by
    cases h with
    | plain hs htasks _ => exact ⟨_, _, _, hs, htasks, fun i hi => hi⟩
    | cycle hs htasks _ _ _ => exact ⟨_, _, _, hs, htasks, fun i => items_site _⟩
    | inlined hs htasks _ _ _ => exact ⟨_, _, _, hs, htasks, fun i => items_site _⟩
  obtain ⟨s, done, p₁, hs, htasks, hitems⟩ := hperform
  obtain ⟨c, hc⟩ : ∃ c, ItemsNode v c := by
    rw [← hms.checkItems hs]
    rcases hcheck : s.checkItems with cause | ⟨⟩
    · cases htasks.items_malformed hcheck
    · rfl
  obtain ⟨events, i, q, hi, hdone⟩ :=
    htasks.items ((hms.checkItems hs).mpr ⟨c, hc⟩) (hms.itemPart? hs hc)
  exact ⟨c, events, i, q, hc, hi, hitems i hdone⟩

/-- A node with items that are neither an expression nor a node is malformed. -/
theorem Converts.malformed_of_items {r : Except ConvertError SchemaNode} (hms : DeclaresItems ms v)
    (hv : ∀ c, ¬ ItemsNode v c) (h : Converts g o (k + 1) (.node (.obj ms)) l p r p') :
    (∃ cause, r = .error (.malformed l cause)) ∨
      r = .error (.malformed (l.descend ["items"]) (.itemsNotType v.kind)) := by
  -- with a shape, the node comes to this check, and the tasks fail with it
  have hcheck : ∀ s, ofJson (.obj ms) = .ok s → s.checkItems = .error (.itemsNotType v.kind) := by
    intro s hs
    rcases hcheck : s.checkItems with cause | ⟨⟩
    · rw [checkItems_eq_error (hms.items? hs) hcheck]
    · obtain ⟨c, hc⟩ := (hms.checkItems hs).mp hcheck
      exact absurd hc (hv c)
  cases h with
  | malformed _ => exact .inl ⟨_, rfl⟩
  | failed hs htasks =>
    cases htasks.items_malformed (hcheck _ hs)
    exact .inr rfl
  | plain hs htasks _ => cases htasks.items_malformed (hcheck _ hs)
  | cycle hs htasks _ _ _ => cases htasks.items_malformed (hcheck _ hs)
  | cyclic hs htasks _ _ _ => cases htasks.items_malformed (hcheck _ hs)
  | inlined hs htasks _ _ _ => cases htasks.items_malformed (hcheck _ hs)
  | lost hs htasks _ _ _ => cases htasks.items_malformed (hcheck _ hs)

/-! ### Schemas with the tree -/

/-- The steps lead from one node to another one. -/
inductive Json.LeadsTo (raw : Json) : List Step → Json → Prop
  | here : LeadsTo raw [] raw
  | step {steps d n step c} :
      LeadsTo raw steps d → ofJson d = .ok n → (step, .node c) ∈ n.parts →
      LeadsTo raw (steps ++ [step]) c

/-- The node to which the steps lead. -/
def SchemaNode.follow (n : SchemaNode) (steps : List Step) : Option SchemaNode :=
  steps.foldlM SchemaNode.at? n

theorem SchemaNode.follow_append (n : SchemaNode) (steps : List Step) (step : Step) :
    n.follow (steps ++ [step]) = (n.follow steps).bind (SchemaNode.at? · step) := by
  simp [follow, List.foldlM_append]

/-- The dialect of a document does not matter to the items in it. -/
theorem SchemaNode.follow_schema {n m : SchemaNode} {steps : List Step} (uri : Option String)
    (h : n.follow steps = some m) :
    ∃ m', SchemaNode.follow { n with schema := uri } steps = some m' ∧ m'.items = m.items := by
  cases steps with
  | nil =>
    obtain rfl := Option.some.inj h
    exact ⟨_, rfl, rfl⟩
  | cons step steps =>
    refine ⟨m, ?_, rfl⟩
    rwa [follow, List.foldlM_cons, at?_relabel, ← List.foldlM_cons, ← follow]

section

variable {base : String → SchemaNode → Prop} {raw d : Json} {n : SchemaNode} {steps : List Step}
  {T : String}

theorem RendersAll.related {parts : List (Step × Part)} {done : List (Step × SchemaNode)}
    (h : RendersAll g base parts done) : List.Forall₂ (Labelled (Renders g base)) parts done := by
  induction parts generalizing done with
  | nil =>
    cases h
    exact .nil
  | cons part parts ih =>
    cases h with
    | cons hn hrest => exact .cons ⟨rfl, hn⟩ (ih hrest)

/-- A step from a node that is rendered leads to what renders the part there. -/
theorem Renders.at? (hwf : raw.WellFormed) (h : Renders g base (.node raw) n)
    (hs : ofJson raw = .ok s) {step : Step} {part : Part} (hpart : (step, part) ∈ s.parts) :
    ∃ m, n.at? step = some m ∧ Renders g base part m := by
  obtain ⟨-, done, hparts, hshape⟩ := h.of_shape ⟨"", []⟩ hs
  rw [NodeShape.part?_tasks] at hparts
  have hstep := at?_site hparts.related step
  rw [at?_of_mem_parts (nodup_properties hwf hs) hpart] at hstep
  rcases cases_of_rel hstep with ⟨hnone, -⟩ | ⟨_, m, hsome, hm, hrenders⟩
  · cases hnone
  · obtain rfl := Option.some.inj hsome
    refine ⟨m, ?_, hrenders⟩
    rcases hshape with ⟨-, rfl⟩ | ⟨T, b, -, -, rfl⟩
    · exact hm
    · rw [at?_overlay b (distinct_site hwf hs hparts.related), hm, Option.some_or]

theorem Json.LeadsTo.hasNode (h : raw.LeadsTo steps c) (htree : g.tree? T = some raw) :
    g.HasNode T c := by
  induction h with
  | here => exact .root htree
  | step _ hs hpart ih => exact .part ih hs hpart

/-- Steps through the tree lead to what renders the node there. -/
theorem Renders.follow (hwf : g.WellFormed) (htree : g.tree? T = some raw)
    (h : Renders g base (.node raw) n) (hc : raw.LeadsTo steps c) :
    ∃ m, n.follow steps = some m ∧ Renders g base (.node c) m := by
  induction hc with
  | here => exact ⟨n, rfl, h⟩
  | step hd hs hpart ih =>
    obtain ⟨m, hm, hrenders⟩ := ih
    obtain ⟨i, hi, hitem⟩ := hrenders.at? (hwf.hasNode (hd.hasNode htree)) hs hpart
    exact ⟨i, by rw [SchemaNode.follow_append, hm, Option.bind_some, hi], hitem⟩

/-- **What is rendered has what renders its items.** -/
theorem Renders.items (hwf : (Json.obj ms).WellFormed) (hms : DeclaresItems ms v)
    (h : Renders g base (.node (.obj ms)) n) :
    ∃ c i, ItemsNode v c ∧ Renders g base (.node c) i ∧ n.items = some i := by
  obtain ⟨s, hs⟩ := h.shape
  have hsound := NodeShape.sound_iff.mpr (h.of_shape ⟨"", []⟩ hs).1
  obtain ⟨c, hc⟩ := (hms.checkItems hs).mp hsound.items
  have hpart : (.items, .node c) ∈ s.parts := mem_parts_of_at? (hms.itemPart? hs hc)
  obtain ⟨i, hi, hrenders⟩ := h.at? hwf hs hpart
  exact ⟨c, i, hc, hrenders, hi⟩

/-- A type with a node whose items are neither an expression nor a node is at fault. -/
theorem Json.DeclaresItems.faulty (hms : DeclaresItems ms v) (hv : ∀ c, ¬ ItemsNode v c)
    (hraw : g.HasNode T (.obj ms)) : g.Faulty T := by
  refine ⟨_, hraw, fun s hs hsound => ?_⟩
  obtain ⟨c, hc⟩ := (hms.checkItems hs).mp hsound.items
  exact hv c hc

end

/-! ### Beside an array expression -/

theorem NodeShape.facets_erase (s : NodeShape) :
    facets { s with members := s.members.erase "items" } = s.facets := by
  rw [facets, facets, Members.erase, List.filter_filter]
  refine List.filter_congr fun m _ => ?_
  rcases eq_or_ne m.1 "items" with hm | hm <;> simp [hm, keywords]

/-- Items that are declared beside an array expression are not read. -/
theorem exec_visit_of_erase {e : String} (he : WritesType ms (some (.arrayOf e)))
    (hms : Members.erase ms' "items" = Members.erase ms "items") :
    exec (visit g o k (.obj ms') l) p = exec (visit g o k (.obj ms) l) p := by
  have hget : ∀ key, key ≠ "items" → Members.get? ms' key = Members.get? ms key := by
    intro key hkey
    have herase : ∀ ns : Members Json, Members.get? (ns.erase "items") key = ns.get? key := by
      intro ns
      rw [Members.erase, Members.get?_filter ns (· ≠ "items") key, if_pos (by simpa using hkey)]
    rw [← herase, hms, herase]
  -- the shapes differ in nothing that is read
  have hshape : ofJson (.obj ms') = (ofJson (.obj ms)).map fun s => { s with members := ms' } := by
    simp only [ofJson, hget "properties" (by decide), hget "type" (by decide)]
    rcases propertiesOf (ms.get? "properties") with cause | ps
    · rfl
    · rcases typeText (ms.get? "type") with cause | text
      · rfl
      · simp only [bind, Except.bind, Except.map]
        rcases (text <|> ps.map fun _ => "object").mapM typeOf with cause | type <;> rfl
  cases k with
  | zero => rfl
  | succ k =>
    rw [visit, visit, exec_visitNode, exec_visitNode, hshape]
    rcases hs : ofJson (.obj ms) with cause | s
    · rfl
    · have htype := (writesType_arrayOf_iff hs).mp he
      obtain rfl := members_of_ofJson hs
      have htasks : NodeShape.tasks g { s with members := ms' } l = s.tasks g l := by
        simp [NodeShape.tasks, reports, NodeShape.checkItems, itemParts, NodeShape.itemPart?,
          propertyParts, checkRequired, checkProperties, schemaType, htype,
          hget "required" (by decide)]
      have hfacets : facets { s with members := ms' } = s.facets := by
        rw [← facets_erase { s with members := ms' }, ← facets_erase s]
        exact congrArg (fun ns => facets { s with members := ns }) hms
      have hrequired : requiredNames { s with members := ms' } = s.requiredNames := by
        simp only [requiredNames, hget "required" (by decide)]
      have hreference : NodeShape.reference? { s with members := ms' } = s.reference? :=
        congrArg (Option.bind · Json.str?) (hget "$ref" (by decide))
      have hframe : NodeShape.frame { s with members := ms' } = s.frame := by
        rw [frame, hfacets, hrequired, hreference]
        rfl
      simp only [Except.map, htasks, NodeShape.site, NodeShape.assemble, hframe]
      rfl

/-! ### Types -/

/-- The steps lead to a node of the schema with what becomes of the items `v`. -/
def SchemaNode.CarriesItems (g : TypeGraph) (p : Progress) (d : SchemaNode) (steps : List Step)
    (v : Json) : Prop :=
  ∃ c i m, ItemsNode v c ∧ Renders g (p.base p.definitions) (.node c) i ∧
    d.follow steps = some m ∧ m.items = some i

theorem SchemaNode.CarriesItems.schema {d : SchemaNode} {steps : List Step} (uri : Option String)
    (h : d.CarriesItems g p steps v) :
    SchemaNode.CarriesItems g p { d with schema := uri } steps v := by
  obtain ⟨c, i, m, hc, hrenders, hm, hi⟩ := h
  obtain ⟨m', hm', hitems⟩ := follow_schema uri hm
  exact ⟨c, i, m', hc, hrenders, hm', hitems.trans hi⟩

/-- A type that is done carries the items of its tree. -/
theorem Progress.Valid.carriesItems (hp : p.Valid g) (hwf : g.WellFormed) (hms : DeclaresItems ms v)
    {T : String} {tree : Json} {steps : List Step} (htree : g.tree? T = some tree)
    (hnode : tree.LeadsTo steps (.obj ms)) {d : SchemaNode} (hd : p.definition? T = some d) :
    d.CarriesItems g p steps v := by
  obtain ⟨tree', htree', hrenders⟩ := hp.renders hd
  obtain rfl := Option.some.inj (htree.symm.trans htree')
  obtain ⟨m, hm, hnodeRenders⟩ := hrenders.follow hwf htree hnode
  obtain ⟨c, i, hc, hi, hitems⟩ :=
    hnodeRenders.items (hwf.hasNode (hnode.hasNode htree)) hms
  exact ⟨c, i, m, hc, hi, hm, hitems⟩

/-- **Declared items count, unless the type is an array expression.**  A node that is
converted has what becomes of its items in the state behind its reports, and every type
that is done at any time of a session has it at each such node of its tree, as its
document does.  If the items are neither an expression nor a node, the node is malformed
in every state, its type is never done, and it fails; where cycles are broken and there
are levels enough, it fails with a malformed node.  Beside an array expression it makes no
difference what items are declared. -/
theorem items_declared (hwf : g.WellFormed) (o : Options) :
    (∀ ms v, DeclaresItems ms v →
      (∀ k l p n p', exec (visit g o (k + 1) (.obj ms) l) p = (.ok n, p') →
        ∃ c events i q, ItemsNode v c ∧ n.items = some i ∧
          exec (visit g o k c (l.descend ["items"])) { p with trace := p.trace ++ events }
            = (.ok i, q)) ∧
      (∀ T tree steps, g.tree? T = some tree → tree.LeadsTo steps (.obj ms) →
        (∀ (p : Progress) (d : SchemaNode), p.Reachable g o → p.definition? T = some d →
          d.CarriesItems g p steps v) ∧
        ∀ doc, (T, doc) ∈ (normalize g o).documents →
          doc.CarriesItems g (converted g o).1 steps v) ∧
      ((∀ c, ¬ ItemsNode v c) →
        (∀ k l p,
          (∃ cause, (exec (visit g o (k + 1) (.obj ms) l) p).1 = .error (.malformed l cause)) ∨
          (exec (visit g o (k + 1) (.obj ms) l) p).1
            = .error (.malformed (l.descend ["items"]) (.itemsNotType v.kind))) ∧
        ∀ T, g.HasNode T (.obj ms) →
          T ∈ (normalize g o).failed ∧
          (∀ p : Progress, p.Reachable g o → p.definition? T = none) ∧
          (o.onCycle = .reference → o.Suffice g → ∀ f ∈ (normalize g o).failures, f.name = T →
            ∃ l cause, f.error = .malformed l cause))) ∧
    ∀ ms ms' e, WritesType ms (some (.arrayOf e)) →
      Members.erase ms' "items" = Members.erase ms "items" → ∀ k l p,
        exec (visit g o k (.obj ms') l) p = exec (visit g o k (.obj ms) l) p := by
  refine ⟨fun ms v hms => ⟨?_, ?_, fun hv => ⟨?_, fun T hT => ⟨?_, ?_, ?_⟩⟩⟩,
    fun ms ms' e he herase k l p => exec_visit_of_erase he herase⟩
  · intro k l p n p' h
    have hconverts : Converts g o (k + 1) (.node (.obj ms)) l p (.ok n) p' := converts_iff.mpr h
    obtain ⟨c, events, i, q, hc, hi, hitems⟩ := hconverts.items hms
    exact ⟨c, events, i, q, hc, hitems, converts_iff.mp hi⟩
  · intro T tree steps htree hnode
    refine ⟨fun p d hp hd => hp.idle.valid.carriesItems hwf hms htree hnode hd, fun doc hdoc => ?_⟩
    obtain ⟨-, -, d, hd, rfl⟩ := mem_documents.mp hdoc
    have hvalid := (idle_converted (g := g) (o := o)).valid
    exact (hvalid.carriesItems hwf hms htree hnode hd).schema _
  · intro k l p
    have hconverts : Converts g o (k + 1) (.node (.obj ms)) l p _ _ := converts_iff.mpr rfl
    exact hconverts.malformed_of_items hms hv
  · exact failed_of_faulty (hms.faulty hv hT)
  · intro p hp
    rw [Progress.definition?_eq_none_iff]
    exact fun hdone => hp.idle.valid.not_faulty hdone (hms.faulty hv hT)
  · intro ho hlimit f hf _
    obtain ⟨l, cause, he, -, -⟩ := failure_malformed ho hlimit hf
    exact ⟨l, cause, he⟩

/-- A list with items of its own, and one whose items are neither an expression nor a
node. -/
def ownItems : Members Json :=
  [("type", .str "List"), ("items", .str "integer")]

def oddItems : Members Json :=
  [("type", .str "List"), ("items", .num (.whole 3))]

def listsGraph : TypeGraph :=
  .ofList
    [("Holder", .ofProperties [("ids", .obj ownItems)]), ("List", .ofType (.str "string[]")),
      ("Odd", .obj oddItems)]

theorem items_declared_lists :
    (∃ n p', exec (visit listsGraph {} 3 (.obj ownItems) ⟨"Holder", []⟩) {} = (.ok n, p') ∧
        ∃ c i, ItemsNode (.str "integer") c ∧ n.items = some i) ∧
      (∃ doc, ("Holder", doc) ∈ (normalize listsGraph {}).documents ∧
        doc.CarriesItems listsGraph (converted listsGraph {}).1 [.property "ids"]
          (.str "integer")) ∧
      (∃ f ∈ (normalize listsGraph {}).failures, f.name = "Odd" ∧
        ∃ l cause, f.error = .malformed l cause) ∧
      exec (visit listsGraph {} 3 (.obj [("type", .str "List[]"), ("items", .null)]) ⟨"T", []⟩) {}
        = exec (visit listsGraph {} 3 (.obj [("type", .str "List[]")]) ⟨"T", []⟩) {} := by
  obtain ⟨hdeclared, hhidden⟩ :=
    items_declared (g := listsGraph) (TypeGraph.wellFormed_of_all (by decide)) {}
  have hown : DeclaresItems ownItems (.str "integer") :=
    ⟨rfl, nofun, fun e he => nomatch (writesType_arrayOf_iff rfl).mp he⟩
  have hodd : DeclaresItems oddItems (.num (.whole 3)) :=
    ⟨rfl, nofun, fun e he => nomatch (writesType_arrayOf_iff rfl).mp he⟩
  have hplace : (Json.ofProperties [("ids", .obj ownItems)]).LeadsTo [.property "ids"]
      (.obj ownItems) := .step .here rfl (.head _)
  obtain ⟨hnode, htype, -⟩ := hdeclared ownItems _ hown
  have hkey : "Holder" ∈ (normalize listsGraph {}).documents.keys := by decide +kernel
  obtain ⟨doc, hget⟩ := Members.exists_get?_of_mem_keys hkey
  have hdoc := Members.mem_of_get? hget
  refine ⟨?_, ⟨doc, hdoc, (htype "Holder" _ _ rfl hplace).2 doc hdoc⟩, ?_, ?_⟩
  · obtain ⟨c, -, i, -, hc, hi, -⟩ := hnode 2 ⟨"Holder", []⟩ {} _ _ rfl
    exact ⟨_, _, rfl, c, i, hc, hi⟩
  · have hlimit : Options.Suffice {} listsGraph := Options.suffice_of_levels (by decide)
    obtain ⟨hfailed, -, hmalformed⟩ := ((hdeclared oddItems _ hodd).2.2 nofun).2 "Odd" (.root rfl)
    obtain ⟨f, hf, hname⟩ := List.mem_map.mp hfailed
    exact ⟨f, hf, hname, hmalformed rfl hlimit f hf hname⟩
  · have he : WritesType [("type", .str "List[]")] (some (.arrayOf "List")) :=
      (writesType_arrayOf_iff rfl).mpr rfl
    exact hhidden _ _ "List" he rfl 3 _ _

/-- A list of texts that also declares items. -/
def hiddenGraph (items : Json) : TypeGraph :=
  .ofList [("T", .obj [("type", .str "string[]"), ("items", items)])]

/-- A number is taken for items there, and other items than the texts are lost. -/
theorem items_hidden :
    ((normalize (hiddenGraph (.num (.whole 3))) {}).failures = [] ∧
      (normalize (hiddenGraph (.num (.whole 3))) {}).documents.keys = ["T"]) ∧
    (normalize (hiddenGraph (.str "integer")) {}).failures = [] ∧
      ∃ doc, ("T", doc) ∈ (normalize (hiddenGraph (.str "integer")) {}).documents ∧
        doc.items = some (.ofType "string") :=
  ⟨⟨rfl, rfl⟩, rfl, _, .head _, rfl⟩

end RamlSchema
