/-
RamlSchema/Proofs/Normalize/TopLevel.lean

Which types get a document.

Two sets of names decide about that, and both are filled on the way: the types that
have been put in places, and the types to which references have been written.  When
nothing fails, both can be told from the outside.  A type has been put in a place, or
a reference to it has been written, if some declared tree refers to it.  And where a
reference to a type has been written, it stands in some schema that is done: what is
converted goes into the schema of the type in whose tree it stands, and stays there
when schemas are laid over each other, as long as no node repeats a name.

Main result: `documents_eq_filter`.  If no type fails, the types with documents are
those to which no declared tree refers and those to which a schema refers, in the
order of declaration; of the latter there are none if there are no cycles.
-/
import RamlSchema.Proofs.Normalize.Accounts
import RamlSchema.Proofs.Normalize.Coverage
import RamlSchema.Proofs.Normalize.Links

namespace RamlSchema

open Relation Progress

variable {g : TypeGraph} {o : Options} {p p' p₁ : Progress}

/-! ### What is converted is in the node -/

namespace NodeShape

variable {n : NodeShape} {done : List (Step × SchemaNode)} {c : SchemaNode}

/-- The converted items of a node, of which there is one node at most. -/
theorem itemsIn_of_mem (hsteps : done.map Prod.fst = n.parts.map Prod.fst)
    (hc : (Step.items, c) ∈ done) : itemsIn done = some c := by
  have hproperty : ∀ rest : List (Step × SchemaNode),
      rest.map Prod.fst = n.propertyParts.map Prod.fst → (Step.items, c) ∉ rest := by
    intro rest hrest hmem
    have hstep : Step.items ∈ n.propertyParts.map Prod.fst :=
      hrest ▸ List.mem_map.mpr ⟨_, hmem, rfl⟩
    simp [propertyParts] at hstep
  rcases hitem : n.itemPart? with - | part
  · exact absurd hc (hproperty done (by simpa [parts, itemParts, hitem] using hsteps))
  · -- the items come first, and what follows are properties
    have hcons : done.map Prod.fst = .items :: n.propertyParts.map Prod.fst := by
      simpa [parts, itemParts, hitem] using hsteps
    obtain ⟨⟨step, m⟩, rest, rfl, rfl, hrest⟩ := List.map_eq_cons_iff.mp hcons
    rcases List.mem_cons.mp hc with heq | hc
    · cases heq
      rfl
    · exact absurd hc (hproperty rest hrest)

/-- Each converted part stands below the node. -/
theorem child_assemble (hsteps : done.map Prod.fst = n.parts.map Prod.fst) {step : Step}
    (hc : (step, c) ∈ done) : (n.assemble done).Child c := by
  rcases step with - | name
  · exact .items (itemsIn_of_mem hsteps hc)
  · -- a node with a part for a property declares properties
    have hstep : Step.property name ∈ n.parts.map Prod.fst :=
      hsteps ▸ List.mem_map.mpr ⟨_, hc, rfl⟩
    rcases hps : n.properties with - | ps
    · simp [parts, itemParts, propertyParts, hps] at hstep
    · have hproperties : (n.assemble done).properties = some (propertiesIn done) := by
        simp [assemble, frame, SchemaNode.fill, hps]
      have hmem : (name, c) ∈ propertiesIn done := List.mem_filterMap.mpr ⟨_, hc, rfl⟩
      exact .property hproperties hmem

end NodeShape

/-! ### What refers to a type -/

namespace Progress

/-- A schema that is done refers to the type. -/
def Mentions (p : Progress) (T : String) : Prop :=
  ∃ U d, p.definition? U = some d ∧ d.Refers (documentFileName T)

/-- To each cycle target that is new behind `p'`, some node of `ns` or some schema
that is done refers. -/
def Shows (p p' : Progress) (ns : List SchemaNode) : Prop :=
  ∀ T ∈ p'.cycleTargets,
    T ∈ p.cycleTargets ∨ (∃ n ∈ ns, n.Refers (documentFileName T)) ∨ p'.Mentions T

theorem Extends.mentions (h : p.Extends p') {T : String} (hT : p.Mentions T) : p'.Mentions T := by
  obtain ⟨U, d, hd, href⟩ := hT
  exact ⟨U, d, h.definition? hd, href⟩

theorem Shows.of_eq {ns : List SchemaNode} (h : p'.cycleTargets = p.cycleTargets) :
    p.Shows p' ns :=
  fun _ hT => .inl (h ▸ hT)

theorem Shows.append {ns ms : List SchemaNode} (h : p.Shows p₁ ns) (h' : p₁.Shows p' ms)
    (hextends : p₁.Extends p') : p.Shows p' (ns ++ ms) := by
  intro T hT
  rcases h' T hT with hT | ⟨n, hn, href⟩ | hT
  · rcases h T hT with hT | ⟨n, hn, href⟩ | hT
    · exact .inl hT
    · exact .inr (.inl ⟨n, List.mem_append_left _ hn, href⟩)
    · exact .inr (.inr (hextends.mentions hT))
  · exact .inr (.inl ⟨n, List.mem_append_right _ hn, href⟩)
  · exact .inr (.inr hT)

/-- Nodes are put together to one that refers to whatever they refer to. -/
theorem Shows.gather {ns : List SchemaNode} {m : SchemaNode} (h : p.Shows p' ns)
    (hm : ∀ n ∈ ns, ∀ r, n.Refers r → m.Refers r) : p.Shows p' [m] := by
  intro T hT
  rcases h T hT with hT | ⟨n, hn, href⟩ | hT
  · exact .inl hT
  · exact .inr (.inl ⟨m, List.mem_singleton.mpr rfl, hm n hn _ href⟩)
  · exact .inr (.inr hT)

theorem Shows.nest {ns : List SchemaNode} (h : p.Shows p' ns) (T : String) (l : Location) :
    p.Shows (p'.nest T l) ns := by
  intro U hU
  rw [cycleTargets_nest] at hU
  refine (h U hU).imp_right fun h => h.imp_right ?_
  rintro ⟨V, d, hd, href⟩
  exact ⟨V, d, (definition?_nest p' T l V).trans hd, href⟩

end Progress

/-! ### Whatever reference is written stays -/

/-- Laid over a schema, the parts of a node without repeated names stand below it. -/
theorem NodeShape.child_overlay_site {s : NodeShape} {done : List (Step × SchemaNode)}
    (base : SchemaNode) {c : SchemaNode} (hdistinct : (s.assemble done).Distinct)
    (hc : (s.assemble done).Child c) : (base.overlay (s.site done)).Child c := by
  refine .overlay_site base hdistinct.properties ?_
  rcases hc with hc | ⟨hps, hc⟩
  · exact .items hc
  · exact .property hps hc

/-- What the converted parts of a node refer to, the node refers to, by itself and
laid over a schema. -/
theorem Performs.refers {k : Nat} {raw : Json} {l : Location} {s : NodeShape}
    {done : List (Step × SchemaNode)} (hwf : g.WellFormed) (hp : p.Valid g)
    (hl : Part.Stands g p (.node raw) l) (hs : NodeShape.ofJson raw = .ok s)
    (h : Performs g o k l (s.tasks g l) p (.ok done) p') :
    ∀ c ∈ done.map Prod.snd, ∀ r, c.Refers r →
      (s.assemble done).Refers r ∧ ∀ base : SchemaNode, (base.overlay (s.site done)).Refers r := by
  have hparts := ((h.leads hp (hl.tasks hs)).2 done rfl).1
  rw [NodeShape.part?_tasks] at hparts
  have hdistinct := distinct_assemble (hwf.hasNode (hl.within raw rfl)) hs hparts
  intro c hc r href
  obtain ⟨⟨step, c⟩, hmem, rfl⟩ := List.mem_map.mp hc
  have hchild := NodeShape.child_assemble hparts.steps hmem
  exact ⟨.child hchild href, fun base =>
    .child (NodeShape.child_overlay_site base hdistinct hchild) href⟩

mutual

/-- A reference that is written in a conversion is in the node that it gives, or in
the schema of a type that has come to its end on the way. -/
theorem Converts.shows {k : Nat} {part : Part} {l : Location} {p p' : Progress}
    {r : Except ConvertError SchemaNode} (hwf : g.WellFormed) (hp : p.Valid g)
    (hl : part.Stands g p l) :
    Converts g o k part l p r p' → ∀ n, r = .ok n → p.Shows p' [n]
  | .written => fun _ _ => .of_eq rfl
  | .tooDeep => nofun
  | .malformed _ => nofun
  | .failed _ _ => nofun
  | .plain hs htasks _ => by
    rintro _ ⟨⟩
    exact (htasks.shows hwf hp (hl.tasks hs) _ rfl).gather fun c hc r href =>
      (htasks.refers hwf hp hl hs c hc r href).1
  | @Converts.cycle _ _ _ _ _ _ s done p₁ name hs htasks hT hmem ho => by
    rintro _ ⟨⟩
    have hbelow := (htasks.shows hwf hp (hl.tasks hs) _ rfl).gather fun c hc r href =>
      (htasks.refers hwf hp hl hs c hc r href).2 (.referenceTo name)
    intro U hU
    rcases Names.mem_add.mp hU with hU | rfl
    · exact hbelow U hU
    · -- the new target is what the node itself refers to
      exact .inr (.inl ⟨_, List.mem_singleton.mpr rfl, .here rfl⟩)
  | .cyclic _ _ _ _ _ => nofun
  | .inlined hs htasks hT hmem hbase => by
    rintro _ ⟨⟩
    have hlead := (htasks.leads hp (hl.tasks hs)).1
    have hp₁ := hlead.valid hp
    have href := fun U => (hl.of_leads hlead).current_references hs hT (U := U)
    have hshows := (htasks.shows hwf hp (hl.tasks hs) _ rfl).append
      (hbase.shows hwf hp₁ hmem href _ rfl) ((hbase.leads hp₁ hmem href).1.extends hp₁)
    rw [List.append_nil] at hshows
    exact (hshows.gather fun c hc r href =>
      (htasks.refers hwf hp hl hs c hc r href).2 _).nest _ _
  | .lost _ _ _ _ _ => nofun

theorem Performs.shows {k : Nat} {l : Location} {ts : List Task} {p p' : Progress}
    {r : Except ConvertError (List (Step × SchemaNode))} (hwf : g.WellFormed) (hp : p.Valid g)
    (hl : ∀ step part, (step, part) ∈ ts.filterMap Task.part? →
      part.Stands g p (l.descend step.keys)) :
    Performs g o k l ts p r p' → ∀ done, r = .ok done → p.Shows p' (done.map Prod.snd)
  | .nil => fun _ _ => .of_eq rfl
  | @Performs.report _ _ _ _ event _ _ _ _ hts => fun done hdone T hT =>
    hts.shows hwf (hp.emit event) (Part.Stands.after_report hl) done hdone T hT
  | .fail => nofun
  | .stop _ => nofun
  | .later _ _ => nofun
  | .convert hn hts => by
    rintro _ ⟨⟩
    have hlead := (hn.leads hp (hl _ _ List.mem_cons_self)).1
    have hp₁ := hlead.valid hp
    have hl₁ := Part.Stands.after_part hl hlead
    exact (hn.shows hwf hp (hl _ _ List.mem_cons_self) _ rfl).append
      (hts.shows hwf hp₁ hl₁ _ rfl) ((hts.leads hp₁ hl₁).1.extends hp₁)

theorem Completes.shows {k : Nat} {T : String} {p p' : Progress}
    {r : Except ConvertError SchemaNode} (hwf : g.WellFormed) (hp : p.Valid g)
    (hT : T ∉ p.inProgress) (hU : ∀ U, p.current? = some U → References g U T) :
    Completes g o k T p r p' → ∀ n, r = .ok n → p.Shows p' []
  | .known _ => fun _ _ => .of_eq rfl
  | .undeclared _ _ => nofun
  | @Completes.defined _ _ _ _ tree _ n p₁ hdef htree hn => by
    have henter : Advances g o p (p.enter T) := .enter htree hdef hT hU
    have hlead := hn.leads (henter.valid hp) (.root htree hT)
    have hstep : Advances g o p₁ ((p₁.leave T).define T n) :=
      .complete (hlead.1.current?.trans (current?_enter hT)) htree (hlead.2 n rfl)
    have hextends := hstep.extends (hlead.1.valid (henter.valid hp))
    intro _ _ X hX
    rcases hn.shows hwf (henter.valid hp) (.root htree hT) n rfl X hX with hX | ⟨m, hm, href⟩ | hX
    · exact .inl hX
    · -- the node is the schema of the type now
      obtain rfl := List.mem_singleton.mp hm
      exact .inr (.inr ⟨T, m, definition?_define_self _, href⟩)
    · exact .inr (.inr (hextends.mentions hX))
  | .abandoned _ _ _ => nofun

end

/-- Unless some type fails, some schema refers to each cycle target. -/
theorem target_mentioned (hwf : g.WellFormed) (hok : (normalize g o).failures = []) :
    ∀ T ∈ (converted g o).1.cycleTargets, (converted g o).1.Mentions T := by
  refine turns_cases (g := g) (o := o)
    (Q := fun _ s => s.2 = [] → ∀ T ∈ s.1.cycleTargets, s.1.Mentions T)
    (fun _ _ h => nomatch h) (fun _ _ _ _ _ ih => ih)
    (fun names name s n p hs h ih hnil T hT => ?_)
    (fun names name s e p _ _ _ hnil => absurd hnil (by simp)) g.names hok
  have hcall := call_completes (g := g) (o := o) s.1 name
  have hextends := (call_leads hs name).1.extends hs.valid
  rw [h] at hcall hextends
  rcases hcall.shows hwf hs.valid hs.notMem hs.references n rfl T hT with hT | ⟨_, hmem, -⟩ | hT
  · exact hextends.mentions (ih hnil T hT)
  · exact nomatch hmem
  · exact hT

/-! ### Which types are at top level -/

/-- The names of the documents are the types at top level, in order. -/
theorem keys_documents_eq (g : TypeGraph) (o : Options) (p : Progress) :
    (p.documents g o).keys = g.names.filter p.isTopLevel := by
  rw [Progress.documents, Members.keys, List.map_filterMap, ← List.filterMap_eq_filter]
  congr 1
  funext T
  by_cases htop : p.isTopLevel T = true
  · -- a type at top level is done
    obtain ⟨n, hn⟩ := Members.exists_get?_of_mem_keys (isTopLevel_iff.mp htop).1
    have hdef : p.definition? T = some n := hn
    simp [htop, hdef]
  · simp [htop, Option.guard]

/-- To a type that has been put in a place, some type refers. -/
theorem exists_references_of_nested {T : String} (hT : T ∈ (converted g o).1.nested) :
    ∃ U, References g U T := by
  obtain ⟨U, href, -⟩ := Reaches.held (idle_converted (g := g) (o := o)).reached T hT
  exact ⟨U, href⟩

section

variable (hok : (normalize g o).failures = [])
include hok

/-- If no type fails, all are done. -/
theorem defined_of_names {T : String} (hT : T ∈ g.names) :
    T ∈ (converted g o).1.definitions.keys := by
  rcases defined_or_failed (o := o) hT with hdone | hfailed
  · exact hdone
  · simp [Outcome.failed, hok] at hfailed

theorem isTopLevel_iff_of_ok {T : String} (hT : T ∈ g.names) :
    (converted g o).1.isTopLevel T = true ↔
      (∀ U, ¬ References g U T) ∨ T ∈ (converted g o).1.cycleTargets := by
  have hvalid := (idle_converted (g := g) (o := o)).valid
  rw [isTopLevel_iff]
  constructor
  · rintro ⟨-, hnested | htarget⟩
    · by_cases htarget : T ∈ (converted g o).1.cycleTargets
      · exact .inr htarget
      · refine .inl fun U href => ?_
        have hdone := defined_of_names hok href.source_mem
        exact (hvalid.nested_or_target hdone href).elim hnested htarget
    · exact .inr htarget
  · rintro (hnone | htarget)
    · refine ⟨defined_of_names hok hT, .inl fun hnested => ?_⟩
      obtain ⟨U, href⟩ := exists_references_of_nested hnested
      exact hnone U href
    · exact ⟨defined_of_names hok hT, .inr htarget⟩

theorem target_iff_mentions (hwf : g.WellFormed) (hg : g.NoReferences) {T : String} :
    T ∈ (converted g o).1.cycleTargets ↔ (converted g o).1.Mentions T := by
  refine ⟨target_mentioned hwf hok T, fun ⟨U, d, hd, href⟩ => ?_⟩
  have hvalid := (idle_converted (g := g) (o := o)).valid
  obtain ⟨X, hX, htarget, -⟩ := hvalid.linksTo hg hd href
  exact documentFileName_injective hX ▸ htarget

end

open Classical in
/-- **Which types get a document.**  If no type fails, those to which no node of a
declared tree refers, and those to which a schema refers because of a cycle, in the
order of declaration.  Without cycles, these are the types to which nothing refers.
That no object of a declared tree repeats a key is what makes it a JSON value. -/
theorem documents_eq_filter (hwf : g.WellFormed) (hg : g.NoReferences)
    (hok : (normalize g o).failures = []) :
    (normalize g o).documents.keys
        = g.names.filter (fun T => (∀ U, ¬ References g U T) ∨ (converted g o).1.Mentions T) ∧
      (g.Acyclic →
        (normalize g o).documents.keys = g.names.filter fun T => ∀ U, ¬ References g U T) := by
  have hidle := idle_converted (g := g) (o := o)
  rw [documents_normalize, keys_documents_eq]
  refine ⟨List.filter_congr fun T hT => ?_, fun hacyclic => List.filter_congr fun T hT => ?_⟩
  · rw [Bool.eq_iff_iff, isTopLevel_iff_of_ok hok hT, target_iff_mentions hok hwf hg,
      decide_eq_true_eq]
  · have hnone : (converted g o).1.cycleTargets = [] :=
      Reaches.untargeted (.inr hacyclic) hidle.reached valid_empty rfl
    rw [Bool.eq_iff_iff, isTopLevel_iff_of_ok hok hT, hnone, decide_eq_true_eq]
    simp

/-- A list with a length, and a box that holds one. -/
def boxGraph : TypeGraph :=
  .ofList
    [("Cell", .ofProperties [("next", .ofType (.str "Cell")), ("size", .ofType (.str "Size"))]),
      ("Size", .ofType (.str "integer")), ("Box", .ofProperties [("cells", .ofType (.str "Cell"))])]

open Classical in
/-- The box has a document, and the cell, to which it refers itself; the length has
none. -/
theorem documents_eq_filter_box :
    (normalize boxGraph {}).documents.keys = ["Cell", "Box"] ∧
      boxGraph.names.filter (fun T =>
        (∀ U, ¬ References boxGraph U T) ∨ (converted boxGraph {}).1.Mentions T)
          = ["Cell", "Box"] := by
  have hwf : boxGraph.WellFormed := TypeGraph.wellFormed_of_all (by decide)
  have hg : boxGraph.NoReferences := TypeGraph.noReferences_of_lacksKey rfl
  have hkeys : (normalize boxGraph {}).documents.keys = ["Cell", "Box"] := rfl
  exact ⟨hkeys, (documents_eq_filter (o := {}) hwf hg rfl).1.symm.trans hkeys⟩

end RamlSchema
