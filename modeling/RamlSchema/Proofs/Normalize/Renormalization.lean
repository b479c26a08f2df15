/-
RamlSchema/Proofs/Normalize/Renormalization.lean

Converting documents once more.

The documents of a run can be declared as types (`Outcome.graph`).  If no type
expression has a bar in it, all of their nodes are legible, and none of them names a
type.  So a second run puts each node together as it was, with one exception: it
looks at properties anew.  Without a type they are given the type `object`, and
beside a type that is no object they are an error.  A first run lets both pass where
a node derives its type from another one, or stands for a cycle; a stable node is one
where neither has happened.

Main result: `normalize_idempotent`.  A second run comes to the same documents, in
the same order and without a failure, if all nodes are stable, and unless `object` is
declared, only then.
-/
import RamlSchema.Proofs.Normalize.Nesting
import RamlSchema.Proofs.Normalize.Rereading
import RamlSchema.Proofs.Normalize.Resolution
import RamlSchema.Proofs.Normalize.TopLevel

namespace RamlSchema

open Relation SchemaNode

variable {g h : TypeGraph} {o : Options}

/-! ### Types without bars -/

/-- The text of the type of a node. -/
def NodeShape.text? (n : NodeShape) : Option String :=
  (typeText (n.members.get? "type")).toOption.join

/-- No type expression of a graph has a bar in it. -/
def TypeGraph.BarlessTypes (g : TypeGraph) : Prop :=
  g.AllShapes fun n => ∀ text ∈ n.text?, TypeExpr.hasBar text = false

instance (g : TypeGraph) : Decidable g.BarlessTypes :=
  inferInstanceAs (Decidable (g.AllShapes _))

namespace NodeShape

/-- A text that is trimmed is not trimmed again. -/
theorem nonblank_of_nonblank {s text : String} (h : nonblank s = .ok text) :
    nonblank text = .ok text := by
  obtain ⟨hblank, rfl⟩ := nonblank_eq_ok_iff.mp h
  refine nonblank_eq_ok_iff.mpr ⟨?_, (Text.trim_trim s).symm⟩
  rw [← TypeExpr.trimChars_eq_nil_iff, Text.trim, String.toList_ofList, Text.trimChars_trimChars,
    TypeExpr.trimChars_eq_nil_iff]
  exact hblank

/-- A type without a bar is a name for itself, or an array with an element without
one. -/
theorem type_of_barless {raw : Json} {n : NodeShape} (hn : ofJson raw = .ok n)
    (hbar : ∀ text ∈ n.text?, TypeExpr.hasBar text = false) {t : TypeExpr} (ht : n.type = some t) :
    (∃ name, t = .named name ∧ TypeExpr.Plain name) ∨
      ∃ element, t = .arrayOf element ∧ TypeExpr.hasBar element = false := by
  obtain ⟨ms, rfl⟩ : ∃ ms, raw = .obj ms := ⟨n.members, (of_ofJson hn).1⟩
  obtain ⟨rfl, -, t', ht', htype⟩ := ofJson_eq_ok_iff.mp hn
  rw [ht] at htype
  rcases t' with - | t'
  · -- the type is `object`, for want of one
    obtain ⟨ps, -, rfl⟩ := Option.map_eq_some_iff.mp htype.symm
    exact .inl ⟨"object", rfl, rfl, rfl⟩
  · cases htype
    obtain ⟨text, htext, hparse⟩ := writesType_some_iff.mp ht'
    have hmem : text ∈ n.text? := by
      rw [text?, htext]
      rfl
    rw [typeOf_eq_ok_iff] at hparse
    rcases TypeExpr.of_parse?_of_hasBar (hbar text hmem) hparse with rfl | helement
    · obtain ⟨s, j, hj, hsays, rfl⟩ := says_of_typeText htext
      rw [hj, hsays.typeText_eq] at htext
      rcases hs : nonblank s with cause | text
      · rw [hs] at htext
        cases htext
      · obtain rfl : text = Text.trim s := (nonblank_eq_ok_iff.mp hs).2
        exact .inl ⟨_, rfl, nonblank_of_nonblank hs, hparse⟩
    · exact .inr helement

end NodeShape

/-- Without bars, no element is left as it is written. -/
theorem TypeGraph.BarlessTypes.not_written (hg : g.BarlessTypes) {U : String} {raw : Json}
    {n : NodeShape} {step : Step} {element : String} (hraw : g.HasNode U raw)
    (hn : NodeShape.ofJson raw = .ok n) : (step, .written element) ∉ n.parts := by
  intro hpart
  obtain ⟨htype, hbar⟩ := NodeShape.of_written hpart
  rcases NodeShape.type_of_barless hn (hg U raw n hraw hn) htype with ⟨name, hname, -⟩ | ⟨e, he, hnot⟩
  · cases hname
  · cases he
    cases hnot.symm.trans hbar

/-- Each way of making a node makes one whose type, if it has one, is a name for
itself. -/
theorem upholds_plain (hg : g.BarlessTypes) :
    g.Upholds fun n => ∀ t, n.type = some t → ∃ name, t = .single name ∧ TypeExpr.Plain name where
  written hraw hn hpart := absurd hpart (hg.not_written hraw hn)
  referenceTo _ := nofun
  assemble {U raw n done} hraw hn _ _ := by
    intro t ht
    obtain ⟨e, he, rfl⟩ := Option.map_eq_some_iff.mp (show n.schemaType = some t from ht)
    rcases NodeShape.type_of_barless hn (hg U raw n hraw hn) he with
      ⟨name, rfl, hname⟩ | ⟨element, rfl, -⟩
    · exact ⟨name, rfl, hname⟩
    · exact ⟨"array", rfl, rfl, rfl⟩
  overlay _ _ _ hb := hb

/-! ### Nodes that are read again -/

namespace SchemaNode

/-- A node that can be read again, without a declared name and with no dialect below
it. -/
structure Finished (g : TypeGraph) (n : SchemaNode) : Prop where
  legible : n.Legible
  resolved : n.Resolved g
  below : ∀ c, n.Child c → c.schema = none

/-- A node to which a second run adds no type and makes no objection: its properties
stand beside the type `object`, or there are none of them and some type. -/
def Stable (n : SchemaNode) : Prop :=
  ∀ ps ∈ n.properties, n.isObject = true ∨ (ps.isEmpty = true ∧ n.type.isSome = true)

instance : DecidablePred Stable := fun n =>
  inferInstanceAs (Decidable (∀ ps ∈ n.properties, _))

variable {n m : SchemaNode} {base : String → SchemaNode → Prop}

/-- The name of the type with which a stable node is read is its own. -/
theorem Stable.typeName?_shape (hs : n.Stable) (hn : n.Legible) :
    n.shape.typeName? = n.typeName? := by
  rw [SchemaNode.typeName?_shape]
  rcases hps : n.properties with - | ps
  · exact Option.or_none
  · rcases hs ps hps with hobject | ⟨-, htype⟩
    · rw [of_decide_eq_true hobject, Option.some_or]
    · rw [hn.type_eq, Option.isSome_map] at htype
      obtain ⟨name, hname⟩ := Option.isSome_iff_exists.mp htype
      rw [hname, Option.some_or]

theorem Stable.sound (hs : n.Stable) (hn : n.Legible) : n.shape.Sound h := by
  rw [sound_shape_iff hn]
  intro ps hps hne
  rcases hs ps hps with hobject | ⟨hempty, -⟩
  · rw [NodeShape.mayHaveProperties_iff]
    refine ⟨"object", ?_, .inl rfl⟩
    rw [hs.typeName?_shape hn, of_decide_eq_true hobject]
  · exact absurd (List.isEmpty_iff.mp hempty) hne

/-- A node that keeps its type and passes the check of its properties is stable. -/
theorem Finished.stable (hn : n.Finished h) (hsound : n.shape.Sound h)
    (htype : n.shape.schemaType = n.type) : n.Stable := by
  intro ps hps
  have hsome : n.type.isSome = true := by
    rw [← htype, schemaType_shape, Option.isSome_map, typeName?_shape, hps]
    cases n.typeName? <;> rfl
  rcases ps with - | ⟨p, ps⟩
  · exact .inr ⟨rfl, hsome⟩
  · left
    have hmay := (sound_shape_iff hn.legible).mp hsound _ hps nofun
    obtain ⟨name, hname, hobject⟩ := NodeShape.mayHaveProperties_iff.mp hmay
    have hown : n.typeName? = some name := by
      rw [← hname, NodeShape.typeName?, htype]
      rfl
    -- the name of a declared type is not left in a node that is finished
    have hnot := hn.resolved name hown
    rw [isObject, hown, hobject.resolve_right hnot]
    rfl

/-! ### One level of the second run -/

/-- A finished node refers to no type, unless it is given the type `object` and that
is declared. -/
theorem Finished.declared?_eq_none (hn : n.Finished h)
    (hobject : "object" ∉ h.names ∨ n.Stable) : n.shape.declared? h = none := by
  rw [Option.eq_none_iff_forall_ne_some]
  intro T hT
  obtain ⟨hname, hmem⟩ := NodeShape.declared?_eq_some_iff.mp hT
  rcases hobject with hobject | hs
  · rw [typeName?_shape, Option.or_eq_some_iff] at hname
    rcases hname with hname | ⟨-, hname⟩
    · exact hn.resolved T hname hmem
    · obtain ⟨ps, -, rfl⟩ := Option.map_eq_some_iff.mp hname
      exact hobject hmem
  · rw [hs.typeName?_shape hn.legible] at hname
    exact hn.resolved T hname hmem

/-- A node that refers to no type is put together from what is rendered of the nodes
below it. -/
theorem Finished.of_renders (hn : n.Finished h) (hT : n.shape.declared? h = none)
    (hm : Renders h base (.node n.written) m) :
    n.shape.Sound h ∧ ∃ done, m = n.shape.assemble done ∧ RendersAll h base n.shape.parts done := by
  cases hm with
  | plain hs hsound hparts _ =>
    obtain rfl := hn.legible.shape_eq hs
    exact ⟨hsound, _, rfl, hparts⟩
  | reference hs _ _ hU _ =>
    obtain rfl := hn.legible.shape_eq hs
    cases hT.symm.trans hU

/-- If each of some nodes is rendered as it is, all of them are. -/
theorem eq_of_rendersAll {cs done : List (Step × SchemaNode)}
    (hcs : ∀ step c, (step, c) ∈ cs → ∀ m, Renders h base (.node c.written) m → m = c)
    (hdone : RendersAll h base (cs.map fun p => (p.1, .node p.2.written)) done) : done = cs := by
  induction cs generalizing done with
  | nil =>
    cases hdone
    rfl
  | cons p cs ih =>
    obtain ⟨step, c⟩ := p
    cases hdone with
    | cons hm hrest =>
      rw [hcs step c List.mem_cons_self _ hm,
        ih (fun s d hd => hcs s d (List.mem_cons_of_mem _ hd)) hrest]

theorem schema_eq_self {uri : Option String} (hn : n.schema = uri) :
    { n with schema := uri } = n := by
  obtain ⟨schema, reference, type, properties, items, required, extra⟩ := n
  cases hn
  rfl

/-- **A schema whose nodes are stable is rendered as it is**, less its dialect. -/
theorem eq_of_renders (hn : n.Everywhere (Finished h)) (hs : n.Everywhere Stable)
    (hm : Renders h base (.node n.written) m) : m = { n with schema := none } := by
  induction n using child_induction generalizing m with
  | next n ih =>
    have hfinished := hn.here
    obtain ⟨-, done, rfl, hdone⟩ :=
      hfinished.of_renders (hfinished.declared?_eq_none (.inr hs.here)) hm
    rw [parts_shape hfinished.legible.writable] at hdone
    have hparts : done = n.parts := by
      apply eq_of_rendersAll _ hdone
      intro step c hc m hm
      have hchild := child_of_mem_parts hc
      rw [ih c hchild (hn.child c hchild) (hs.child c hchild) hm]
      exact schema_eq_self (hfinished.below c hchild)
    have htype : n.shape.schemaType = n.type := by
      rw [schemaType_shape, hs.here.typeName?_shape hfinished.legible, ← hfinished.legible.type_eq]
    have hbelow : ∀ c, n.Child c → c.Writable :=
      fun c hc => (hn.child c hc).here.legible.writable
    rw [hparts, assemble_shape hfinished.legible hbelow, htype]

/-- If a node is put together as it was, so is each node right below it. -/
theorem Finished.renders_child (hn : n.Finished h) {done : List (Step × SchemaNode)}
    (hdone : RendersAll h base n.shape.parts done)
    (heq : { n with schema := none } = n.shape.assemble done) {c : SchemaNode} (hc : n.Child c) :
    Renders h base (.node c.written) c := by
  have hpart : ∀ step, (step, c) ∈ n.parts → ∃ m, (step, m) ∈ done ∧
      Renders h base (.node c.written) m := by
    intro step hmem
    apply hdone.exists_renders
    rw [parts_shape hn.legible.writable]
    exact List.mem_map.mpr ⟨(step, c), hmem, rfl⟩
  rcases hc with hitems | @⟨ps, name, hps, hmem⟩
  · obtain ⟨m, hm, hrenders⟩ := hpart .items (by simp [parts, hitems])
    have hsame : n.items = some m :=
      (congrArg SchemaNode.items heq).trans (NodeShape.itemsIn_of_mem hdone.steps hm)
    obtain rfl := Option.some.inj (hitems.symm.trans hsame)
    exact hrenders
  · obtain ⟨m, hm, hrenders⟩ := hpart (.property name) (by simp [parts, hps, hmem])
    have hsame : ps = propertiesIn done := by
      have hproperties := congrArg SchemaNode.properties heq
      simpa [NodeShape.assemble, NodeShape.frame, fill, shape, hps] using hproperties
    have hmem' : (name, m) ∈ ps := by
      rw [hsame]
      exact List.mem_filterMap.mpr ⟨_, hm, rfl⟩
    -- no two properties have one name
    have hnodup := hn.legible.writable.distinct.properties ps hps
    rw [← Members.get?_eq_some_iff_mem hnodup] at hmem hmem'
    obtain rfl := Option.some.inj (hmem.symm.trans hmem')
    exact hrenders

/-- **Only a schema whose nodes are stable is rendered as it is**, where `object` is
not declared. -/
theorem stable_of_renders (hobject : "object" ∉ h.names) (hn : n.Everywhere (Finished h))
    (hm : Renders h base (.node n.written) { n with schema := none }) : n.Everywhere Stable := by
  induction n using child_induction with
  | next n ih =>
    have hfinished := hn.here
    obtain ⟨hsound, done, heq, hdone⟩ :=
      hfinished.of_renders (hfinished.declared?_eq_none (.inl hobject)) hm
    have htype : n.shape.schemaType = n.type := (congrArg SchemaNode.type heq).symm
    apply Everywhere.intro (hfinished.stable hsound htype)
    intro c hc
    apply ih c hc (hn.child c hc)
    rw [schema_eq_self (hfinished.below c hc)]
    exact hfinished.renders_child hdone heq hc

end SchemaNode

/-! ### Levels of the second run -/

/-- If performing tasks fails, one of them is a failure, or one of the parts fails. -/
theorem Performs.exists_error {k : Nat} {l : Location} {ts : List Task} {p p' : Progress}
    {e : ConvertError} :
    Performs g o k l ts p (.error e) p' →
      .fail e ∈ ts ∨ ∃ step part l' q q', (step, part) ∈ ts.filterMap Task.part? ∧
        Converts g o k part l' q (.error e) q'
  | .report hts => hts.exists_error.imp_left (List.mem_cons_of_mem _)
  | .fail => .inl List.mem_cons_self
  | .stop hn => .inr ⟨_, _, _, _, _, List.mem_cons_self, hn⟩
  | .later hn hts => by
    refine hts.exists_error.imp (List.mem_cons_of_mem _) ?_
    rintro ⟨step, part, l', q, q', hpart, hc⟩
    exact ⟨step, part, l', q, q', List.mem_cons_of_mem _ hpart, hc⟩

/-- A schema that is read again takes a level for each step down. -/
theorem SchemaNode.not_exhausted {n : SchemaNode} (hn : n.Everywhere (Finished h))
    (hs : n.Everywhere Stable) {k : Nat} (hk : n.nesting < k) {l : Location} {p p' : Progress}
    {e : ConvertError} (hc : Converts h o k (.node n.written) l p (.error e) p') :
    ¬ Exhausted (.error e : Except ConvertError SchemaNode) := by
  induction n using child_induction generalizing k l p p' with
  | next n ih =>
    have hfinished := hn.here
    cases hc with
    | tooDeep => exact absurd hk (Nat.not_lt_zero _)
    | malformed _ => exact not_exhausted_malformed
    | failed hshape htasks =>
      obtain rfl := hfinished.legible.shape_eq hshape
      rcases htasks.exists_error with hfail | ⟨step, part, l', q, q', hpart, hc⟩
      · exact NodeShape.not_exhausted_of_fail hfail
      · -- a node right below nests less deep, and has a level less
        rw [NodeShape.part?_tasks] at hpart
        obtain ⟨c, hchild, rfl⟩ := hfinished.legible.writable.child_of_mem_shape hpart
        have hlt : c.nesting < n.nesting := nesting_le_iff.mp le_rfl c hchild
        exact ih c hchild (hn.child c hchild) (hs.child c hchild) (by omega) hc
    | cyclic _ _ _ _ _ => exact not_exhausted_cyclic
    | lost hshape _ hT _ _ =>
      obtain rfl := hfinished.legible.shape_eq hshape
      cases (hfinished.declared?_eq_none (.inr hs.here)).symm.trans hT

/-! ### Graphs of schemas -/

/-- The trees of a graph are schemas that can be read again. -/
structure TypeGraph.Declares (h : TypeGraph) (docs : Members SchemaNode) : Prop where
  trees : h.trees = docs.map fun e => (e.1, e.2.written)
  finished : ∀ e ∈ docs, e.2.Everywhere (Finished h)

namespace TypeGraph.Declares

variable {docs : Members SchemaNode} {T U : String} {tree raw : Json} {d doc : SchemaNode}

theorem names (hd : h.Declares docs) : h.names = docs.keys := by
  rw [TypeGraph.names, hd.trees, Members.keys, Members.keys, List.map_map]
  rfl

theorem tree? (hd : h.Declares docs) (hdoc : (T, doc) ∈ docs) : h.tree? T = some doc.written := by
  show h.trees.get? T = some doc.written
  rw [Members.get?_eq_some_iff_mem h.nodup_names, hd.trees]
  exact List.mem_map.mpr ⟨(T, doc), hdoc, rfl⟩

theorem of_tree? (hd : h.Declares docs) (htree : h.tree? T = some tree) :
    ∃ doc, (T, doc) ∈ docs ∧ tree = doc.written := by
  have hmem := Members.mem_of_get? htree
  rw [hd.trees] at hmem
  obtain ⟨⟨T, doc⟩, hdoc, heq⟩ := List.mem_map.mp hmem
  cases heq
  exact ⟨doc, hdoc, rfl⟩

/-- The documents of a second run are rendered from those of the first. -/
theorem renders (hd : h.Declares docs) (hdoc : (T, doc) ∈ docs)
    (hT : (converted h o).1.definition? T = some d) :
    ∃ base, Renders h base (.node doc.written) d := by
  obtain ⟨tree, htree, hrenders⟩ := (idle_converted (g := h) (o := o)).valid.renders hT
  obtain rfl := Option.some.inj ((hd.tree? hdoc).symm.trans htree)
  exact ⟨_, hrenders⟩

section

variable (hd : h.Declares docs) (hs : ∀ e ∈ docs, e.2.Everywhere Stable)
include hd hs

/-- The nodes of the trees are those of the schemas. -/
theorem hasNode (hraw : h.HasNode T raw) :
    ∃ n : SchemaNode, raw = n.written ∧ n.Everywhere (Finished h) ∧ n.Everywhere Stable := by
  induction hraw with
  | root htree =>
    obtain ⟨doc, hdoc, rfl⟩ := hd.of_tree? htree
    exact ⟨doc, rfl, hd.finished _ hdoc, hs _ hdoc⟩
  | part _ hshape hpart ih =>
    obtain ⟨n, rfl, hn, hstable⟩ := ih
    obtain rfl := hn.here.legible.shape_eq hshape
    obtain ⟨c, hchild, heq⟩ := hn.here.legible.writable.child_of_mem_shape hpart
    cases heq
    exact ⟨c, rfl, hn.child c hchild, hstable.child c hchild⟩

theorem not_references : ¬ References h U T := by
  rintro ⟨raw, s, hraw, hshape, hT⟩
  obtain ⟨n, rfl, hn, hstable⟩ := hd.hasNode hs hraw
  obtain rfl := hn.here.legible.shape_eq hshape
  cases (hn.here.declared?_eq_none (.inr hstable.here)).symm.trans hT

theorem not_faulty : ¬ h.Faulty T := by
  rintro ⟨raw, hraw, hfault⟩
  obtain ⟨n, rfl, hn, hstable⟩ := hd.hasNode hs hraw
  exact hfault n.shape (ofJson_written hn.here.legible) (hstable.here.sound hn.here.legible)

theorem failures_eq_nil (hlimit : o.Suffice h) : (normalize h o).failures = [] := by
  rw [List.eq_nil_iff_forall_not_mem]
  intro f hf
  have hdeep := hlimit f hf
  obtain ⟨name, error⟩ := f
  cases failure_blames hf with
  | malformed _ hfault => exact hd.not_faulty hs hfault
  | cyclic _ _ hcycle =>
    obtain ⟨U, href, -⟩ := TransGen.head'_iff.mp hcycle
    exact hd.not_references hs href
  | tooDeep => exact hdeep _ _ rfl

/-- All schemas are documents again, in the same order. -/
theorem documents_eq (hlimit : o.Suffice h) (hschema : ∀ e ∈ docs, e.2.schema = some o.schemaUri) :
    (normalize h o).documents = docs := by
  have hok := hd.failures_eq_nil hs hlimit
  rw [documents_normalize, Progress.documents, hd.names, Members.keys, List.filterMap_map]
  conv_rhs => rw [← List.filterMap_some (l := docs)]
  apply List.filterMap_congr
  rintro ⟨T, doc⟩ he
  have hT : T ∈ h.names := by
    rw [hd.names]
    exact List.mem_map_of_mem he
  have htop : (converted h o).1.isTopLevel T = true :=
    (isTopLevel_iff_of_ok hok hT).mpr (.inl fun U => hd.not_references hs)
  obtain ⟨d, hdef⟩ := Members.exists_get?_of_mem_keys (defined_of_names hok hT)
  obtain ⟨base, hrenders⟩ := hd.renders he hdef
  obtain rfl := eq_of_renders (hd.finished _ he) (hs _ he) hrenders
  have hdefinition : (converted h o).1.definition? T = some { doc with schema := none } := hdef
  have hdoc : { doc with schema := some o.schemaUri } = doc := schema_eq_self (hschema _ he)
  simp only [Function.comp_apply, htop, if_true, hdefinition, Option.map_some, hdoc]

/-- If the schemas nest no deeper than is allowed, no type fails for want of levels. -/
theorem suffice (hnesting : ∀ e ∈ docs, e.2.nesting ≤ o.maxDepth) : o.Suffice h := by
  intro f hf l limit he
  obtain ⟨-, p, -, hcall⟩ := exists_call_of_failure hf
  have hcompletes := call_completes (g := h) (o := o) p f.name
  rw [hcall, he] at hcompletes
  generalize (call h o p f.name).2 = p' at hcompletes
  cases hcompletes with
  | abandoned hdef htree hconverts =>
    obtain ⟨doc, hdoc, rfl⟩ := hd.of_tree? htree
    have hlevels : doc.nesting < o.maxDepth + 1 := Nat.lt_succ_of_le (hnesting _ hdoc)
    exact not_exhausted (hd.finished _ hdoc) (hs _ hdoc) hlevels hconverts ⟨l, limit, rfl⟩

end

end TypeGraph.Declares

/-! ### Documents declared as types -/

/-- The documents of a run, declared as types. -/
def Outcome.graph (out : Outcome) : TypeGraph :=
  .ofList (out.documents.map fun e => (e.1, e.2.toJson))

/-- All nodes of the documents of a run are stable. -/
def Outcome.Stable (out : Outcome) : Prop :=
  ∀ e ∈ out.documents, e.2.Everywhere SchemaNode.Stable

instance (out : Outcome) : Decidable out.Stable :=
  inferInstanceAs (Decidable (∀ e ∈ out.documents, _))

theorem TypeGraph.trees_ofDeclarations (entries : List (String × Json)) :
    ((entries.map fun e => (⟨e.1, e.2⟩ : Declaration)).foldl insert g).trees
      = g.trees.insertMany entries := by
  induction entries generalizing g with
  | nil => rfl
  | cons e entries ih => exact ih

/-- Declarations with distinct names are declared as they are listed. -/
theorem TypeGraph.trees_ofList {entries : Members Json} (hnodup : entries.keys.Nodup) :
    (TypeGraph.ofList entries).trees = entries :=
  (trees_ofDeclarations entries).trans (Members.ofList_of_nodup hnodup)

/-- What holds everywhere holds, at each node, of those right below. -/
theorem SchemaNode.Everywhere.forall_child {P : SchemaNode → Prop} {n : SchemaNode}
    (hn : n.Everywhere P) : n.Everywhere fun m => ∀ c, m.Child c → P c := by
  induction hn with
  | intro _ hchild ih => exact .intro (fun c hc => (hchild c hc).here) ih

/-- What is done without bars is finished. -/
theorem Progress.Valid.finished {p : Progress} (hp : p.Valid g) (hwf : g.WellFormed)
    (hg : g.BarlessTypes) {T : String} {d : SchemaNode} (hd : p.definition? T = some d) :
    d.Everywhere (Finished g) := by
  have hresolved : g.Upholds (Resolved g) :=
    upholds_resolved fun hraw hn hpart => absurd hpart (hg.not_written hraw hn)
  have hrules := hp.everywhere (((upholds_hygienic g).and (upholds_plain hg)).and hresolved) hd
  have hschema := (hp.everywhere (upholds_schema g) hd).forall_child
  apply (((hp.writable hwf hd).and hrules).and hschema).imp
  rintro n ⟨⟨hwritable, ⟨hhygienic, hplain⟩, hname⟩, hbelow⟩
  exact ⟨⟨hwritable, hhygienic, hplain⟩, hname, hbelow⟩

/-- The dialect is no matter, nor are the types that have no document. -/
theorem SchemaNode.Finished.schema {n : SchemaNode} (hn : n.Finished g) (uri : Option String) :
    { n with schema := uri }.Finished g where
  legible :=
    ⟨hn.legible.writable.schema uri, ⟨hn.legible.hygienic.facets, hn.legible.hygienic.required⟩,
      hn.legible.plain⟩
  resolved := hn.resolved
  below c hc := hn.below c (child_schema.mp hc)

theorem SchemaNode.Finished.mono {n : SchemaNode} (hn : n.Finished g) (hnames : h.names ⊆ g.names) :
    n.Finished h :=
  ⟨hn.legible, fun name hname hmem => hn.resolved name hname (hnames hmem), hn.below⟩

theorem keys_documents_subset (g : TypeGraph) (o : Options) :
    (normalize g o).documents.keys ⊆ g.names := by
  intro T hT
  rw [documents_normalize, keys_documents_eq] at hT
  exact (List.mem_filter.mp hT).1

/-- **Documents can be declared again**, where no type expression has a bar. -/
theorem declares_graph (hwf : g.WellFormed) (hg : g.BarlessTypes) (o : Options) :
    (normalize g o).graph.Declares (normalize g o).documents := by
  have hvalid := (idle_converted (g := g) (o := o)).valid
  have hfinished : ∀ e ∈ (normalize g o).documents, e.2.Everywhere (Finished g) := by
    rintro ⟨T, doc⟩ he
    obtain ⟨-, -, d, hd, rfl⟩ := mem_documents.mp he
    have hall := hvalid.finished hwf hg hd
    exact hall.of_child (hall.here.schema _) fun c hc => child_schema.mp hc
  have htrees : (normalize g o).graph.trees
      = (normalize g o).documents.map fun e => (e.1, e.2.written) := by
    rw [Outcome.graph, TypeGraph.trees_ofList]
    · apply List.map_congr_left
      intro e he
      rw [toJson_eq_written ((hfinished e he).imp fun _ hn => hn.legible.writable)]
    · rw [Members.keys, List.map_map]
      exact nodup_documents g o (converted g o).1
  refine ⟨htrees, fun e he => (hfinished e he).imp fun _ hn => hn.mono ?_⟩
  rw [TypeGraph.names, htrees, Members.keys, List.map_map]
  exact keys_documents_subset g o

/-- A document nests no deeper than the levels that the declared types take. -/
theorem document_nesting_le_levels {T : String} {doc : SchemaNode}
    (hdoc : (T, doc) ∈ (normalize g o).documents) : doc.nesting ≤ g.levels := by
  have hvalid := (idle_converted (g := g) (o := o)).valid
  apply (document_nesting_le hdoc).trans
  apply sum_depthLimit_le
  intro U hU
  rcases Finset.mem_insert.mp hU with rfl | hU
  · exact (mem_documents.mp hdoc).1
  · exact hvalid.definitions_declared U (hvalid.nested_defined U (Progress.mem_inlined.mp hU).1)

/-- **Conversion is idempotent where nodes are stable.**  If no type expression has a
bar, the documents of a run can be declared and converted once more.  If in each of
their nodes properties stand beside the type `object`, this comes to the same
documents in the same order and without a failure, as long as there are levels
enough; the levels that the declared types take are enough both times.  Where `object`
is not declared, it comes to the same documents only then.  It does not matter whether
the first run fails somewhere, or which references the declared trees carry. -/
theorem normalize_idempotent (hwf : g.WellFormed) (hg : g.BarlessTypes) (o : Options) :
    ((normalize g o).Stable →
      (o.Suffice (normalize g o).graph →
        (normalize (normalize g o).graph o).failures = [] ∧
        (normalize (normalize g o).graph o).documents = (normalize g o).documents) ∧
      (g.levels ≤ o.maxDepth → o.Suffice (normalize g o).graph)) ∧
    ("object" ∉ g.names →
      (normalize (normalize g o).graph o).documents = (normalize g o).documents →
      (normalize g o).Stable) := by
  have hd := declares_graph hwf hg o
  have hschema : ∀ e ∈ (normalize g o).documents, e.2.schema = some o.schemaUri := by
    rintro ⟨T, doc⟩ he
    obtain ⟨-, -, d, -, rfl⟩ := mem_documents.mp he
    rfl
  constructor
  · intro hs
    refine ⟨?_, ?_⟩
    · intro hlimit
      exact ⟨hd.failures_eq_nil hs hlimit, hd.documents_eq hs hlimit hschema⟩
    · intro hlevels
      exact hd.suffice hs fun e he => (document_nesting_le_levels he).trans hlevels
  · -- each document is rendered as it is
    intro hobject heq
    rintro ⟨T, doc⟩ he
    have hagain : (T, doc) ∈ (normalize (normalize g o).graph o).documents := heq ▸ he
    obtain ⟨-, -, d, hdef, hdoc⟩ := mem_documents.mp hagain
    obtain ⟨base, hrenders⟩ := hd.renders he hdef
    have hnone := ((idle_converted (g := (normalize g o).graph) (o := o)).valid.everywhere
      (upholds_schema _) hdef).here
    have hself : d = { doc with schema := none } := by
      rw [hdoc]
      exact (schema_eq_self hnone).symm
    rw [hself] at hrenders
    have hnone' : "object" ∉ (normalize g o).graph.names := by
      rw [hd.names]
      exact fun hmem => hobject (keys_documents_subset g o hmem)
    exact stable_of_renders hnone' (hd.finished _ he) hrenders

/-- A list whose cells derive from a base type. -/
def cellGraph : TypeGraph :=
  .ofList
    [("Base", .ofProperties [("id", .ofType (.str "string"))]),
      ("Cell", .obj
        [("type", .str "Base"), ("required", .arr [.str "id"]), ("description", .str "cell"),
          ("properties", .obj
            [("next", .ofType (.str "Cell")), ("tags", .ofType (.str "string[]"))])])]

/-- A type of which a property stands for a cycle and has properties of its own. -/
def loopGraph : TypeGraph :=
  .ofList
    [("Loop", .ofProperties
      [("next", .obj [("type", .str "Loop"), ("properties", .obj [("n", .ofType (.str "number"))])])])]

/-- The document of the cells, with the properties of both types and a reference to
itself, stays as it is.  That of the loop does not: beside its reference there are
properties, and the second run adds a type to them. -/
theorem normalize_idempotent_cells :
    (normalize cellGraph {}).documents.keys = ["Cell"] ∧
      (normalize (normalize cellGraph {}).graph {}).failures = [] ∧
      (normalize (normalize cellGraph {}).graph {}).documents = (normalize cellGraph {}).documents ∧
      (normalize (normalize loopGraph {}).graph {}).documents ≠ (normalize loopGraph {}).documents := by
  have hcells := normalize_idempotent (g := cellGraph) (TypeGraph.wellFormed_of_all (by decide))
    (by decide) {}
  have hloop := normalize_idempotent (g := loopGraph) (TypeGraph.wellFormed_of_all (by decide))
    (by decide) {}
  have hstable : (normalize cellGraph {}).Stable := by decide +kernel
  obtain ⟨hagain, hlimit⟩ := hcells.1 hstable
  obtain ⟨hfailures, hdocuments⟩ := hagain (hlimit (by decide))
  refine ⟨rfl, hfailures, hdocuments, ?_⟩
  intro heq
  exact absurd (hloop.2 (by decide) heq) (by decide)

/-- A type with properties that derives from one that is no object. -/
def labelGraph : TypeGraph :=
  .ofList
    [("Base", .ofType (.str "string")),
      ("Label", .obj
        [("type", .str "Base"), ("properties", .obj [("size", .ofType (.str "integer"))])])]

/-- A first run lets it pass, and its document is an error in a second one. -/
theorem normalize_not_idempotent :
    labelGraph.WellFormed ∧ labelGraph.BarlessTypes ∧ labelGraph.NoReferences ∧
      (normalize labelGraph {}).failures = [] ∧
      (normalize (normalize labelGraph {}).graph {}).failures
        = [⟨"Label", .malformed ⟨"Label", []⟩ (.propertiesOnType "string")⟩] :=
  ⟨TypeGraph.wellFormed_of_all (by decide), by decide, TypeGraph.noReferences_of_lacksKey rfl, rfl,
    rfl⟩

end RamlSchema
