/-
RamlSchema/Proofs/Normalize/Invariants.lean

What holds at every node that a conversion makes.

There are four ways in which a node comes about: an element that is a union is left
as it is written, a reference is written, the own keywords of a node are put
together, and they are laid over the schema of its type.  `g.Upholds P` says that
all four make nodes with the property `P`; all else that a conversion does is to
move nodes from place to place.

Main result: `Progress.Valid.everywhere`.  What the four rules uphold holds at every
node of every schema that is done.
-/
import RamlSchema.Proofs.Normalize.Calls
import RamlSchema.Proofs.Normalize.Links
import RamlSchema.Proofs.Normalize.Meaning
import RamlSchema.Proofs.Schema.Everywhere

namespace RamlSchema

open SchemaNode

variable {g : TypeGraph} {o : Options} {P : SchemaNode → Prop} {U : String}

/-! ### Parts in their places -/

/-- A part in the tree of a type: a node of it, or an element of one. -/
def Part.Placed (g : TypeGraph) (U : String) : Part → Prop
  | .node raw => g.HasNode U raw
  | .written element => ∃ raw n step, g.HasNode U raw ∧ NodeShape.ofJson raw = .ok n ∧
      (step, .written element) ∈ n.parts

theorem NodeShape.placed_of_mem {raw : Json} {n : NodeShape} (hraw : g.HasNode U raw)
    (hn : NodeShape.ofJson raw = .ok n) {step : Step} {part : Part} (h : (step, part) ∈ n.parts) :
    part.Placed g U := by
  cases part with
  | node c => exact .part hraw hn h
  | written element => exact ⟨raw, n, step, hraw, hn, h⟩

/-! ### What the rules uphold -/

/-- A property of nodes that each way of making one brings about. -/
structure TypeGraph.Upholds (g : TypeGraph) (P : SchemaNode → Prop) : Prop where
  written {U raw n step element} :
    g.HasNode U raw → NodeShape.ofJson raw = .ok n → (step, .written element) ∈ n.parts →
    P (.ofType element)
  referenceTo {T} : T ∈ g.names → P (.referenceTo T)
  assemble {U raw n done} :
    g.HasNode U raw → NodeShape.ofJson raw = .ok n → n.declared? g = none →
    done.map Prod.fst = n.parts.map Prod.fst → P (n.assemble done)
  overlay {U raw n done b} :
    g.HasNode U raw → NodeShape.ofJson raw = .ok n →
    done.map Prod.fst = n.parts.map Prod.fst → P b → P (b.overlay (n.site done))

section

variable {base : String → SchemaNode → Prop}

mutual

/-- What holds of each node that is rendered, and everywhere in what is put in the
place of a type, holds everywhere. -/
theorem Renders.everywhere_of (hwritten : ∀ raw n step element, g.HasNode U raw →
      NodeShape.ofJson raw = .ok n → (step, .written element) ∈ n.parts → P (.ofType element))
    (hnode : ∀ raw n, g.HasNode U raw → Renders g base (.node raw) n → P n)
    (hbase : ∀ T b, References g U T → base T b → b.Everywhere P)
    {part : Part} {n : SchemaNode} (hpart : part.Placed g U) :
    Renders g base part n → n.Everywhere P
  | .written => by
    obtain ⟨raw, n, step, hraw, hn, h⟩ := hpart
    exact everywhere_ofType (hwritten raw n step _ hraw hn h)
  | .plain hn hsound hparts hT =>
    .fill (hparts.everywhere_of hwritten hnode hbase
        fun _ _ hc => NodeShape.placed_of_mem hpart hn hc)
      (hnode _ _ hpart (.plain hn hsound hparts hT))
  | .reference hn hsound hparts hT hb => by
    have hdone := hparts.everywhere_of hwritten hnode hbase
      fun _ _ hc => NodeShape.placed_of_mem hpart hn hc
    apply Everywhere.overlay (hbase _ _ ⟨_, _, hpart, hn, hT⟩ hb)
    · intro c hc
      obtain ⟨step, hc⟩ := NodeShape.of_child_site hc
      exact hdone step c hc
    · exact hnode _ _ hpart (.reference hn hsound hparts hT hb)

theorem RendersAll.everywhere_of (hwritten : ∀ raw n step element, g.HasNode U raw →
      NodeShape.ofJson raw = .ok n → (step, .written element) ∈ n.parts → P (.ofType element))
    (hnode : ∀ raw n, g.HasNode U raw → Renders g base (.node raw) n → P n)
    (hbase : ∀ T b, References g U T → base T b → b.Everywhere P)
    {parts : List (Step × Part)} {done : List (Step × SchemaNode)}
    (hparts : ∀ step part, (step, part) ∈ parts → part.Placed g U) :
    RendersAll g base parts done → ∀ step c, (step, c) ∈ done → c.Everywhere P
  | .nil => fun _ _ hc => nomatch hc
  | .cons hn hrest => fun step c hc => by
    rcases List.mem_cons.mp hc with heq | hc
    · cases heq
      exact hn.everywhere_of hwritten hnode hbase (hparts _ _ List.mem_cons_self)
    · exact hrest.everywhere_of hwritten hnode hbase
        (fun s p hp => hparts s p (List.mem_cons_of_mem _ hp)) step c hc

end

theorem Renders.everywhere (hP : g.Upholds P) (hbase : ∀ T b, base T b → b.Everywhere P)
    {part : Part} {n : SchemaNode} (hpart : part.Placed g U) (h : Renders g base part n) :
    n.Everywhere P := by
  refine h.everywhere_of (fun _ _ _ _ => hP.written) (fun raw n hraw h => ?_)
    (fun T b _ => hbase T b) hpart
  cases h with
  | plain hn _ hparts hT => exact hP.assemble hraw hn hT hparts.steps
  | reference hn _ hparts _ hb => exact hP.overlay hraw hn hparts.steps (hbase _ _ hb).here

end

/-! ### What is done -/

/-- **What the rules uphold holds everywhere in what is done.** -/
theorem Progress.Valid.everywhere {p : Progress} (hp : p.Valid g) (hP : g.Upholds P) {T : String}
    {d : SchemaNode} (hd : p.definition? T = some d) : d.Everywhere P := by
  refine hp.definition_induction (Q := fun _ d => d.Everywhere P)
    (fun D T tree d _ hbefore htree hrenders => ?_) T d hd
  have hroot : (Part.node tree).Placed g T := .root htree
  apply hrenders.everywhere hP _ hroot
  intro V b hb
  rcases hb with ⟨hget, -⟩ | ⟨rfl, htarget⟩
  · exact hbefore V b hget
  · exact everywhere_referenceTo (hP.referenceTo (hp.targets_declared htarget))

/-- So it does in every document, if the dialect does not matter at its root. -/
theorem Progress.Valid.everywhere_document {p : Progress} (hp : p.Valid g) (hP : g.Upholds P)
    (hschema : ∀ n uri, P n → P { n with schema := uri }) {T : String} {doc : SchemaNode}
    (h : (T, doc) ∈ p.documents g o) : doc.Everywhere P := by
  obtain ⟨-, -, d, hd, rfl⟩ := mem_documents.mp h
  have hall := hp.everywhere hP hd
  exact hall.of_child (hschema d _ hall.here) fun c hc => child_schema.mp hc

end RamlSchema
