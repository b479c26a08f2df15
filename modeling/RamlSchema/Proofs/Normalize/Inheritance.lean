/-
RamlSchema/Proofs/Normalize/Inheritance.lean

Types that derive from types.

The schema of a type is made at the root of its tree, in one of three ways: of the
root's own keywords alone; of those laid over the schema of the type from which it
derives; or of those laid over a reference, if that type was in progress
(`Progress.Made`).  A schema that is done stays as it is, so whether it was made earlier
or not makes no difference to the types that derive from it.  If no reference was written
at the roots of a lineage, the schema at its end is therefore made of the own keywords
of all types in it, laid over each other from the first one on (`exists_layers`).

Main result: `definition_of_lineage`, which tells each keyword of that schema from what
the types say themselves.
-/
import RamlSchema.Proofs.Normalize.Provenance
import RamlSchema.Proofs.Normalize.Replay
import RamlSchema.Proofs.Normalize.Roots
import RamlSchema.Proofs.Schema.Layers

namespace RamlSchema

open Relation Progress

variable {g : TypeGraph} {o : Options} {p p' : Progress} {T U : String}

/-! ### What a type says itself -/

/-- The names that a node requires: those that it lists, and behind them its flagged
properties. -/
def NodeShape.ownRequired (n : NodeShape) : List String :=
  n.listedNames ++ flagged (n.properties.getD [])

/-- The root of a tree, with the conversions of its parts. -/
structure Layer where
  shape : NodeShape
  done : List (Step × SchemaNode)

/-- The keywords that the root gives by itself. -/
def Layer.own (layer : Layer) : SchemaNode :=
  layer.shape.assemble layer.done

/-- The names of the properties that the root declares. -/
def Layer.propertyNames (layer : Layer) : List String :=
  Members.keys (layer.shape.properties.getD [])

/-- The root of the tree of `T`, with conversions of its parts in which the schemas that
are done stand in the places of their types. -/
structure Progress.HasLayer (g : TypeGraph) (p : Progress) (T : String) (layer : Layer) :
    Prop where
  root : ∃ tree, g.tree? T = some tree ∧ NodeShape.ofJson tree = .ok layer.shape
  sound : layer.shape.Sound g
  parts : RendersAll g (p.placed p.definitions T) layer.shape.parts layer.done

/-- How the schema of a type is made. -/
inductive Progress.Made (g : TypeGraph) (p : Progress) (T : String) : SchemaNode → Prop
  | root {layer} :
      p.HasLayer g T layer → layer.shape.declared? g = none → Made g p T layer.own
  | derived {layer U b} :
      p.HasLayer g T layer → layer.shape.declared? g = some U → p.definition? U = some b →
      Made g p T (b.overlay layer.own)
  | broken {layer U} :
      p.HasLayer g T layer → layer.shape.declared? g = some U →
      .cycleBroken U ⟨T, []⟩ ∈ p.trace →
      Made g p T ((SchemaNode.referenceTo U).overlay layer.own)

/-- Each schema that is done was made so. -/
def Progress.Founded (g : TypeGraph) (p : Progress) : Prop :=
  ∀ T d, p.definition? T = some d → p.Made g T d

section Grown

variable (hdefs : p.definitions <+: p'.definitions) (htrace : p.trace <+: p'.trace)

include hdefs htrace

theorem Progress.HasLayer.mono {layer : Layer} (h : p.HasLayer g T layer) :
    p'.HasLayer g T layer :=
  ⟨h.root, h.sound, h.parts.mono fun _ _ hb => hb.mono hdefs htrace⟩

/-- What a schema was made of is still there when more is done. -/
theorem Progress.Made.mono {d : SchemaNode} (h : p.Made g T d) : p'.Made g T d := by
  cases h with
  | root hlayer hT => exact .root (hlayer.mono hdefs htrace) hT
  | derived hlayer hT hb =>
    exact .derived (hlayer.mono hdefs htrace) hT (Members.get?_of_prefix hdefs hb)
  | broken hlayer hT hmem => exact .broken (hlayer.mono hdefs htrace) hT (htrace.subset hmem)

end Grown

/-- Steps that complete no type. -/
theorem Progress.Founded.of_same (h : p.Founded g) (hdefs : p'.definitions = p.definitions)
    (htrace : p.trace <+: p'.trace) : p'.Founded g := by
  intro T d hd
  rw [Progress.definition?, hdefs] at hd
  exact (h T d hd).mono (hdefs ▸ List.prefix_rfl) htrace

theorem Progress.trace_nest (p : Progress) (T : String) (l : Location) :
    p.trace <+: (p.nest T l).trace := by
  unfold Progress.nest
  split
  · exact List.prefix_rfl
  · exact List.prefix_append _ _

/-! ### Conversions make schemas so -/

/-- The tasks of a root convert its parts. -/
theorem Performs.hasLayer {k : Nat} {tree : Json} {n : NodeShape} {done : List (Step × SchemaNode)}
    (hp : p.Valid g) (hl : Part.Stands g p (.node tree) ⟨T, []⟩) (htree : g.tree? T = some tree)
    (hn : NodeShape.ofJson tree = .ok n)
    (h : Performs g o k ⟨T, []⟩ (n.tasks g ⟨T, []⟩) p (.ok done) p') :
    p'.HasLayer g T ⟨n, done⟩ := by
  have htasks := h.records hp (fun _ => NodeShape.remark_of_mem_tasks) (hl.tasks hn)
  obtain ⟨hparts, hsound⟩ := htasks.2 done rfl
  rw [NodeShape.part?_tasks] at hparts
  exact ⟨⟨tree, htree, hn⟩, NodeShape.sound_iff.mpr hsound, hparts⟩

theorem Converts.made {k : Nat} {tree : Json} {d : SchemaNode} (hp : p.Valid g)
    (hl : Part.Stands g p (.node tree) ⟨T, []⟩) (htree : g.tree? T = some tree)
    (h : Converts g o k (.node tree) ⟨T, []⟩ p (.ok d) p') : p'.Made g T d := by
  cases h with
  | plain hn htasks hT => exact .root (htasks.hasLayer hp hl htree hn) hT
  | @cycle _ _ _ _ _ _ p₁ U hn htasks hT _ _ =>
    have hlayer := htasks.hasLayer hp hl htree hn
    have hdefs : p₁.definitions <+: (p₁.breakCycle U ⟨T, []⟩).definitions := List.prefix_rfl
    have htrace : p₁.trace <+: (p₁.breakCycle U ⟨T, []⟩).trace := List.prefix_append _ _
    exact .broken (hlayer.mono hdefs htrace) hT (List.mem_append_right _ (.head _))
  | @inlined _ _ _ _ _ done p₁ U b p₂ hn htasks hT hmem hbase =>
    have hlayer := htasks.hasLayer hp hl htree hn
    -- the type from which this one derives is completed behind the parts
    have hlead := (htasks.leads hp (hl.tasks hn)).1
    have hreferences : ∀ V, p₁.current? = some V → References g V U :=
      fun V hV => (hl.of_leads hlead).current_references hn hT hV
    have hgrown := Records.grows_steps (hbase.records (hlead.valid hp) hmem hreferences)
    have hb : p₂.definition? U = some b := (hbase.leads (hlead.valid hp) hmem hreferences).2 b rfl
    have hnest : p₂.definitions <+: (p₂.nest U ⟨T, []⟩).definitions := by
      rw [definitions_nest]
    exact .derived (hlayer.mono (hgrown.1.trans hnest) (hgrown.2.trans (trace_nest p₂ _ _))) hT
      ((definition?_nest p₂ _ _ _).trans hb)

mutual

theorem Converts.founded {k : Nat} {part : Part} {l : Location} {p p' : Progress}
    {r : Except ConvertError SchemaNode} (hp : p.Valid g) (hl : part.Stands g p l)
    (h : p.Founded g) : Converts g o k part l p r p' → p'.Founded g
  | .written => h.of_same rfl (List.prefix_append _ _)
  | .tooDeep => h
  | .malformed _ => h
  | .failed hn htasks => htasks.founded hp (hl.tasks hn) h
  | .plain hn htasks _ => htasks.founded hp (hl.tasks hn) h
  | .cycle hn htasks _ _ _ =>
    (htasks.founded hp (hl.tasks hn) h).of_same rfl (List.prefix_append _ _)
  | .cyclic hn htasks _ _ _ => htasks.founded hp (hl.tasks hn) h
  | .inlined hn htasks hT hmem hbase => by
    have hlead := (htasks.leads hp (hl.tasks hn)).1
    have hdone := hbase.founded (hlead.valid hp) hmem
      (fun U hU => (hl.of_leads hlead).current_references hn hT hU)
      (htasks.founded hp (hl.tasks hn) h)
    exact hdone.of_same (definitions_nest _ _ _) (trace_nest _ _ _)
  | .lost hn htasks hT hmem hbase => by
    have hlead := (htasks.leads hp (hl.tasks hn)).1
    exact hbase.founded (hlead.valid hp) hmem
      (fun U hU => (hl.of_leads hlead).current_references hn hT hU)
      (htasks.founded hp (hl.tasks hn) h)

theorem Performs.founded {k : Nat} {l : Location} {ts : List Task} {p p' : Progress}
    {r : Except ConvertError (List (Step × SchemaNode))} (hp : p.Valid g)
    (hl : ∀ step part, (step, part) ∈ ts.filterMap Task.part? →
      part.Stands g p (l.descend step.keys))
    (h : p.Founded g) : Performs g o k l ts p r p' → p'.Founded g
  | .nil => h
  | @Performs.report _ _ _ _ event _ _ _ _ hts =>
    hts.founded (hp.emit event) (Part.Stands.after_report hl)
      (h.of_same rfl (List.prefix_append _ _))
  | .fail => h
  | .stop hn => hn.founded hp (hl _ _ List.mem_cons_self) h
  | .later hn hts =>
    have hlead := (hn.leads hp (hl _ _ List.mem_cons_self)).1
    hts.founded (hlead.valid hp) (Part.Stands.after_part hl hlead)
      (hn.founded hp (hl _ _ List.mem_cons_self) h)
  | .convert hn hts =>
    have hlead := (hn.leads hp (hl _ _ List.mem_cons_self)).1
    hts.founded (hlead.valid hp) (Part.Stands.after_part hl hlead)
      (hn.founded hp (hl _ _ List.mem_cons_self) h)

/-- **Each type that is completed is made of its own keywords and the schema from which it
derives.** -/
theorem Completes.founded {k : Nat} {T : String} {p p' : Progress}
    {r : Except ConvertError SchemaNode} (hp : p.Valid g) (hT : T ∉ p.inProgress)
    (hU : ∀ U, p.current? = some U → References g U T) (h : p.Founded g) :
    Completes g o k T p r p' → p'.Founded g
  | .known _ => h
  | .undeclared _ _ => h
  | @Completes.defined _ _ _ _ tree _ n p₁ hdef htree hn => by
    have hvalid : (p.enter T).Valid g := Advances.valid (o := o) (.enter htree hdef hT hU) hp
    have hroot : Part.Stands g (p.enter T) (.node tree) ⟨T, []⟩ := .root htree hT
    have hdone : p₁.Founded g := hn.founded hvalid hroot (h.of_same rfl List.prefix_rfl)
    have hmade : p₁.Made g T n := hn.made hvalid hroot htree
    -- the type is done for the first time, so nothing is overwritten
    have hlead := (hn.leads hvalid hroot).1
    have hmem := current?_mem (hlead.current?.trans (current?_enter hT))
    have hnew : T ∉ (p₁.leave T).definitions.keys := (hlead.valid hvalid).apart T hmem
    have hdefs : p₁.definitions <+: ((p₁.leave T).define T n).definitions := by
      rw [definitions_define hnew]
      exact List.prefix_append _ _
    have htrace : p₁.trace <+: ((p₁.leave T).define T n).trace := List.prefix_append _ _
    intro V d hd
    by_cases hV : T = V
    · subst hV
      obtain rfl : n = d := Option.some.inj ((definition?_define_self _).symm.trans hd)
      exact hmade.mono hdefs htrace
    · rw [definition?_define_of_ne _ hV] at hd
      exact (hdone V d hd).mono hdefs htrace
  | .abandoned hdef htree hn => by
    have hvalid : (p.enter T).Valid g := Advances.valid (o := o) (.enter htree hdef hT hU) hp
    exact (hn.founded hvalid (.root htree hT) (h.of_same rfl List.prefix_rfl)).of_same rfl
      List.prefix_rfl

end

/-- So are the schemas that are done at any time of a session. -/
theorem Progress.Reachable.founded (h : p.Reachable g o) : p.Founded g := by
  induction h with
  | start => exact nofun
  | @next p name hp ih =>
    exact (call_completes p name).founded hp.idle.valid hp.idle.notMem hp.idle.references ih
  | skip name e _ ih => exact ih.of_same rfl (List.prefix_append _ _)

/-! ### Lineages -/

/-- The types from which `T` derives, directly or through others, from the one that
derives from none down to `T` itself. -/
inductive TypeGraph.Lineage (g : TypeGraph) : List String → String → Prop
  | root {T : String} : g.parent? T = none → Lineage g [T] T
  | derived {chain : List String} {U T : String} :
      Lineage g chain U → Derives g T U → Lineage g (chain ++ [T]) T

theorem Progress.HasLayer.parent? {layer : Layer} (h : p.HasLayer g T layer) :
    g.parent? T = layer.shape.declared? g := by
  obtain ⟨tree, htree, hn⟩ := h.root
  simp [TypeGraph.parent?, htree, hn]

/-- **The schema at the end of a lineage** is made of the own keywords of its types, laid
over each other. -/
theorem Progress.Founded.exists_layers {chain : List String} (hp : p.Founded g)
    (hchain : g.Lineage chain T) (hroots : ∀ U ∈ chain, ∀ V, .cycleBroken V ⟨U, []⟩ ∉ p.trace)
    {d : SchemaNode} (hd : p.definition? T = some d) :
    ∃ root rest, List.Forall₂ (p.HasLayer g) chain (root :: rest) ∧
      d = root.own.layers (rest.map Layer.own) := by
  induction hchain generalizing d with
  | @root T hT =>
    cases hp T d hd with
    | @root layer hlayer _ => exact ⟨layer, [], .cons hlayer .nil, rfl⟩
    | derived hlayer hU _ => cases hT.symm.trans (hlayer.parent?.trans hU)
    | broken hlayer hU _ => cases hT.symm.trans (hlayer.parent?.trans hU)
  | @derived chain U T hlineage hderives ih =>
    have hparent : g.parent? T = some U := derives_iff.mp hderives
    cases hp T d hd with
    | root hlayer hT => cases hT.symm.trans (hlayer.parent?.symm.trans hparent)
    | @derived layer V b hlayer hV hb =>
      obtain rfl : V = U :=
        Option.some.inj (hV.symm.trans (hlayer.parent?.symm.trans hparent))
      obtain ⟨root, rest, hlayers, rfl⟩ := ih (fun W hW => hroots W (by simp [hW])) hb
      refine ⟨root, rest ++ [layer], List.rel_append hlayers (.cons hlayer .nil), ?_⟩
      rw [List.map_append, List.map_singleton, SchemaNode.layers_append]
    | broken _ _ hmem => exact absurd hmem (hroots T (by simp) _)

/-! ### Keywords at the end of a lineage -/

section Layers

variable {layer : Layer}

theorem Progress.HasLayer.steps (h : p.HasLayer g T layer) :
    layer.done.map Prod.fst = layer.shape.parts.map Prod.fst :=
  h.parts.steps

theorem Progress.HasLayer.distinct (hwf : g.WellFormed) (h : p.HasLayer g T layer) :
    layer.own.Distinct := by
  obtain ⟨tree, htree, hn⟩ := h.root
  exact distinct_assemble (hwf T tree htree) hn h.parts

theorem Progress.HasLayer.propertyNames (h : p.HasLayer g T layer) :
    layer.own.propertyNames = layer.propertyNames := by
  have hnames : Members.keys (propertiesIn layer.done) = layer.propertyNames := by
    rw [keys_propertiesIn, h.steps, names_parts, Layer.propertyNames]
  rcases hps : layer.shape.properties with - | ps
  · simp [SchemaNode.propertyNames, Layer.propertyNames, Layer.own, NodeShape.assemble,
      NodeShape.frame, SchemaNode.fill, hps, Members.keys]
  · simpa [SchemaNode.propertyNames, Layer.own, NodeShape.assemble, NodeShape.frame,
      SchemaNode.fill, hps] using hnames

theorem Layer.isSome_properties_own (layer : Layer) :
    layer.own.properties.isSome = layer.shape.properties.isSome := by
  simp [Layer.own, NodeShape.assemble, NodeShape.frame, SchemaNode.fill]

/-- The names that a root requires, those that it lists first. -/
theorem Progress.HasLayer.requiredNames (h : p.HasLayer g T layer) :
    layer.own.requiredNames = Names.addAll layer.shape.listedNames
      (NodeShape.flagged (layer.shape.properties.getD [])) := by
  have hown : layer.own.required = SchemaNode.named layer.shape.requiredNames := rfl
  have hrequired := h.sound.required
  rw [NodeShape.checkRequired] at hrequired
  rw [SchemaNode.requiredNames, hown, SchemaNode.getD_named, NodeShape.requiredNames,
    NodeShape.listedNames]
  rcases hlisted : NodeShape.listed (layer.shape.members.get? "required") with cause | names
  · simp [hlisted, Except.map] at hrequired
  · rfl

end Layers

/-- What `d` has of the layers `root :: rest`, of which each is laid over those before it. -/
structure SchemaNode.Combines (d : SchemaNode) (root : Layer) (rest : List Layer) : Prop where
  schema : d.schema = none
  reference : d.reference = root.shape.reference?
  type : d.type = root.shape.schemaType
  properties : d.properties.isSome = (root :: rest).any fun layer => layer.shape.properties.isSome
  /-- Names of properties stand where they are declared first. -/
  propertyNames : d.propertyNames = ((root :: rest).flatMap Layer.propertyNames).eraseDups
  /-- A property is that of the last layer that declares it, and so are the items. -/
  parts : ∀ step, d.at? step = (root :: rest).reverse.findSome? fun layer => layer.own.at? step
  required : d.required = SchemaNode.named (Names.addAll root.shape.listedNames
    (NodeShape.flagged (root.shape.properties.getD []) ++
      rest.flatMap fun layer => layer.shape.ownRequired))
  /-- Required names stand where they are required first, if the first list of them repeats
  none. -/
  requiredOnce : root.shape.listedNames.Nodup →
    d.required = SchemaNode.named
      ((root :: rest).flatMap fun layer => layer.shape.ownRequired).eraseDups
  facetNames : Members.keys d.extra
    = ((root :: rest).flatMap fun layer => Members.keys layer.shape.facets).eraseDups
  facets : ∀ key, Members.get? d.extra key
    = (root :: rest).reverse.findSome? fun layer => Members.get? layer.shape.facets key

section Combines

variable {root : Layer} {rest : List Layer} {d : SchemaNode}

/-- **Keywords that are laid over each other** are told one by one. -/
theorem SchemaNode.combines_layers (hwf : g.WellFormed)
    (h : ∀ layer ∈ root :: rest, ∃ T, p.HasLayer g T layer) :
    (root.own.layers (rest.map Layer.own)).Combines root rest := by
  have hnames : ∀ layer ∈ root :: rest, layer.own.propertyNames = layer.propertyNames :=
    fun layer hlayer => (h layer hlayer).choose_spec.propertyNames
  have hrequired : ∀ layer ∈ root :: rest, layer.own.requiredNames = Names.addAll
      layer.shape.listedNames (NodeShape.flagged (layer.shape.properties.getD [])) :=
    fun layer hlayer => (h layer hlayer).choose_spec.requiredNames
  have hdistinct : ∀ layer ∈ root :: rest, layer.own.Distinct :=
    fun layer hlayer => (h layer hlayer).choose_spec.distinct hwf
  have hsites : ∀ site ∈ rest.map Layer.own, site.Distinct := by
    simpa using fun layer hlayer => hdistinct layer (List.mem_cons_of_mem _ hlayer)
  have hroot := hdistinct root List.mem_cons_self
  have hall : root.own :: rest.map Layer.own = (root :: rest).map Layer.own := rfl
  -- names are required in the order in which the layers list and flag them
  have hnamed : (root.own.layers (rest.map Layer.own)).required = SchemaNode.named (Names.addAll
      root.shape.listedNames (NodeShape.flagged (root.shape.properties.getD []) ++
        rest.flatMap fun layer => layer.shape.ownRequired)) := by
    have hsome : ∀ n ∈ root.own :: rest.map Layer.own, n.required ≠ some [] := by
      rw [hall]
      intro n hn
      obtain ⟨layer, -, rfl⟩ := List.mem_map.mp hn
      exact layer.shape.required_assemble layer.done
    rw [SchemaNode.required_layers hsome, List.flatMap_map, hrequired root List.mem_cons_self,
      List.flatMap_congr fun layer hlayer => hrequired layer (List.mem_cons_of_mem _ hlayer),
      Names.addAll_flatMap, Names.addAll_append]
    rfl
  obtain ⟨hschema, hreference, htype⟩ := SchemaNode.layers_root root.own (rest.map Layer.own)
  refine ⟨hschema, hreference, htype, ?_, ?_, fun step => ?_, hnamed, fun hlisted => ?_, ?_,
    fun key => ?_⟩
  · rw [SchemaNode.isSome_properties_layers, hall, List.any_map]
    exact congrArg _ (funext fun layer => layer.isSome_properties_own)
  · rw [SchemaNode.propertyNames_layers, List.flatMap_map, hnames root List.mem_cons_self,
      List.flatMap_congr fun layer hlayer => hnames layer (List.mem_cons_of_mem _ hlayer),
      List.flatMap_cons, Names.eraseDups_append_of_nodup]
    exact hnames root List.mem_cons_self ▸ hroot.nodup_properties
  · rw [SchemaNode.at?_layers hsites, hall, ← List.map_reverse, List.findSome?_map]
    rfl
  · rw [hnamed, List.flatMap_cons, NodeShape.ownRequired, List.append_assoc,
      Names.eraseDups_append_of_nodup hlisted]
  · rw [SchemaNode.keys_extra_layers, List.flatMap_map, List.flatMap_cons]
    exact (Names.eraseDups_append_of_nodup hroot.extra _).symm
  · rw [SchemaNode.get?_extra_layers hsites, hall, ← List.map_reverse, List.findSome?_map]
    rfl

/-- **No name is lost**, of a property or of what is required. -/
theorem SchemaNode.Combines.keeps (h : d.Combines root rest) :
    ∀ layer ∈ root :: rest,
      (∀ name ∈ layer.propertyNames, name ∈ d.propertyNames) ∧
      ∀ name ∈ layer.shape.ownRequired, name ∈ d.requiredNames := by
  intro layer hlayer
  constructor
  · intro name hname
    rw [h.propertyNames, List.mem_eraseDups]
    exact List.mem_flatMap_of_mem hlayer hname
  · intro name hname
    rw [SchemaNode.requiredNames, h.required, SchemaNode.getD_named, Names.mem_addAll,
      List.mem_append]
    rcases List.mem_cons.mp hlayer with rfl | hlayer
    · exact (List.mem_append.mp hname).imp_right .inl
    · exact .inr (.inr (List.mem_flatMap_of_mem hlayer hname))

end Combines

/-- **A schema has what its lineage says, the last word with the last type.**  Let the
types of a lineage be done, at any time of a session, and no reference have been written
at their roots.  Then the schema at its end has the type of the first root; the
properties of all of them, in the order in which they are declared first and each as the
last type declares it; the items of the last type that has some; the names that they
require, in order and once, unless the first list repeats some; and their facets, in the
order in which they come first and each with its last value.  No name of a property is
lost, nor one that is required. -/
theorem definition_of_lineage (hwf : g.WellFormed) (hp : p.Reachable g o) {chain : List String}
    (hchain : g.Lineage chain T) (hroots : ∀ U ∈ chain, ∀ V, .cycleBroken V ⟨U, []⟩ ∉ p.trace)
    {d : SchemaNode} (hd : p.definition? T = some d) :
    ∃ root rest, List.Forall₂ (p.HasLayer g) chain (root :: rest) ∧ d.Combines root rest ∧
      ∀ layer ∈ root :: rest,
        (∀ name ∈ layer.propertyNames, name ∈ d.propertyNames) ∧
        ∀ name ∈ layer.shape.ownRequired, name ∈ d.requiredNames := by
  obtain ⟨root, rest, hlayers, rfl⟩ := hp.founded.exists_layers hchain hroots hd
  have hflip : List.Forall₂ (fun layer U => (∃ T, p.HasLayer g T layer) ∧ p.HasLayer g U layer)
      (root :: rest) chain := (hlayers.imp fun U layer hU => ⟨⟨U, hU⟩, hU⟩).flip
  have hall := ((List.forall₂_and_left _ _).mp hflip).1
  have hcombines := SchemaNode.combines_layers hwf hall
  exact ⟨root, rest, hlayers, hcombines, hcombines.keeps⟩

/-- A lineage of three types that share names, declared from the middle. -/
def familyGraph : TypeGraph :=
  .ofList
    [("Person", .obj [("type", .str "Entity"), ("description", .str "a person"),
        ("properties", .obj [("name", .obj [("type", .str "string"), ("required", .bool true)]),
          ("born", .obj [("type", .str "integer"), ("required", .bool true)])])]),
      ("Author", .obj [("type", .str "Person"), ("required", .arr [.str "books", .str "id"]),
        ("properties", .obj [("books", .ofType (.str "string[]")),
          ("name", .ofType (.str "Name"))])]),
      ("Entity", .obj [("description", .str "an entity"), ("required", .arr [.str "name"]),
        ("properties", .obj [("id", .obj [("type", .str "integer"), ("required", .bool true)]),
          ("name", .ofType (.str "string"))])]),
      ("Name", .ofType (.str "string"))]

/-- An author is first of all an entity, then a person. -/
theorem definition_of_lineage_family :
    let p := (converted familyGraph {}).1
    ∃ d, p.definition? "Author" = some d ∧
      (d.type = some (.single "object") ∧ d.propertyNames = ["id", "name", "born", "books"] ∧
        d.required = some ["name", "id", "born", "books"]) ∧
      ∃ root rest,
        List.Forall₂ (p.HasLayer familyGraph) ["Entity", "Person", "Author"] (root :: rest) ∧
        d.Combines root rest ∧
        ∀ layer ∈ root :: rest,
          (∀ name ∈ layer.propertyNames, name ∈ d.propertyNames) ∧
          ∀ name ∈ layer.shape.ownRequired, name ∈ d.requiredNames := by
  intro p
  have hwf : familyGraph.WellFormed := TypeGraph.wellFormed_of_all (by decide)
  have hentity : familyGraph.Lineage ["Entity"] "Entity" := .root rfl
  have hperson : familyGraph.Lineage ["Entity", "Person"] "Person" :=
    hentity.derived (derives_iff.mpr rfl)
  have hauthor : familyGraph.Lineage ["Entity", "Person", "Author"] "Author" :=
    hperson.derived (derives_iff.mpr rfl)
  have htrace : p.trace = [.normalized "Entity", .hoisted "Entity" ⟨"Person", []⟩,
      .normalized "Person", .normalized "Name",
      .hoisted "Name" ⟨"Author", ["properties", "name"]⟩, .hoisted "Person" ⟨"Author", []⟩,
      .normalized "Author"] := rfl
  have hroots : ∀ U ∈ ["Entity", "Person", "Author"], ∀ V,
      .cycleBroken V ⟨U, []⟩ ∉ p.trace := by
    simp [htrace]
  exact ⟨_, rfl, ⟨rfl, rfl, rfl⟩,
    definition_of_lineage hwf (reachable_converted familyGraph {}) hauthor hroots rfl⟩

end RamlSchema
