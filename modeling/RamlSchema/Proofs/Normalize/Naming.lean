/-
RamlSchema/Proofs/Normalize/Naming.lean

Documents do not tell whether a base type has a name.

A graph that names a base type has the nodes of one that does not, some of them under
the new name: where the one graph refers to a type, the other does as well, or does so
by way of the base (`TypeGraph.Moves.references_forth`).  It may have more, since what
a base says is nothing if the node itself says something else there.  So a type that
leads to no cycle in the graph with the name leads to none in the other, and its
schema is told by its tree alone.  On cycles, references are written in other places;
what the documents expand to is the same.

Main result: `documents_alike`.
-/
import RamlSchema.Proofs.Normalize.Moving

namespace RamlSchema

open Relation SchemaNode

variable {g g' : TypeGraph} {o : Options} {N T U : String} {B : Members Json}

/-! ### Conversions without failures -/

/-- If nothing fails, all nodes have a shape and pass their checks. -/
theorem sound_of_ok (hok : (normalize g o).failures = []) : g.Sound := by
  intro T raw hraw
  have hvalid := (idle_converted (g := g) (o := o)).valid
  have hfault := hvalid.not_faulty (defined_of_names hok hraw.mem_names)
  by_contra hnone
  exact hfault ⟨raw, hraw, fun n hn hsound => hnone ⟨n, hn, hsound⟩⟩

/-- The document of a tame type is what its tree gives. -/
theorem document_yields {doc : SchemaNode} (hT : g.Tame T)
    (hdoc : (normalize g o).documents.get? T = some doc) :
    ∃ d, TypeYields g T (.ok d) ∧ doc = { d with schema := some o.schemaUri } := by
  obtain ⟨-, -, d, hd, rfl⟩ := mem_documents.mp (Members.mem_of_get? hdoc)
  exact ⟨d, definition_yields hT hd, rfl⟩

/-- A tame type has a document if and only if nothing refers to it. -/
theorem mem_documents_of_tame (hok : (normalize g o).failures = []) (hT : g.Tame T) :
    T ∈ (normalize g o).documents.keys ↔ T ∈ g.names ∧ ∀ U, ¬ References g U T := by
  have hvalid := (idle_converted (g := g) (o := o)).valid
  have htarget : T ∉ (converted g o).1.cycleTargets :=
    fun h => hT T .refl (hvalid.targets_cyclic T h)
  rw [documents_normalize, keys_documents_eq, List.mem_filter]
  refine and_congr_right fun hname => ?_
  rw [isTopLevel_iff_of_ok hok hname, or_iff_left htarget]

/-! ### Nodes of the one graph and of the other -/

/-- What the shapes `n` and `n'` of two nodes tell of each other that are the same but for
nodes with bases, where `b` is the shape of the base. -/
structure NodeShape.Follows (N : String) (B : Members Json) (n n' b : NodeShape) : Prop where
  same : n'.type = n.type ∧ n'.reference? = n.reference? ∨
    n'.type = some (.named N) ∧ b.type = n.type ∧ b.reference? = n.reference?
  back : ∀ step part', n'.at? step = some part' →
    ∃ part, n.at? step = some part ∧ part.Moved N B part'
  forth : ∀ step part, n.at? step = some part → ∃ part', part.Moved N B part' ∧
    (n'.at? step = some part' ∨ n'.type = some (.named N) ∧ b.at? step = some part')

theorem Json.Moved.follows {raw raw' : Json} {n n' b : NodeShape} (hN : TypeExpr.Plain N)
    (h : raw.Moved N B raw') (hn : NodeShape.ofJson raw = .ok n)
    (hn' : NodeShape.ofJson raw' = .ok n') (hb : NodeShape.ofJson (.obj B) = .ok b)
    (hsound : n'.Sound g') (hwf : raw.WellFormed) : n.Follows N B n' b := by
  rcases h.shapes hn hn' hwf with ⟨ms, ms', rfl, rfl, hbase⟩ | ⟨hsame, hparts⟩
  · have hsplits := hbase.splits hn hn' hb hN hsound.items hsound.required
    have hown := hbase.type_own hN hn'
    refine ⟨.inr ⟨hown, hsplits.type.symm, hsplits.reference.symm⟩, ?_, ?_⟩
    · intro step part hpart
      exact ⟨part, by rw [hsplits.at?, hpart, Option.some_or], .refl part⟩
    · intro step part hpart
      rw [hsplits.at?] at hpart
      rcases Option.or_eq_some_iff.mp hpart with hpart | ⟨-, hpart⟩
      · exact ⟨part, .refl part, .inl hpart⟩
      · exact ⟨part, .refl part, .inr ⟨hown, hpart⟩⟩
  · refine ⟨.inl ⟨hsame.type.symm, hsame.reference.symm⟩, ?_, ?_⟩
    · intro step part' hpart'
      have hsome := hsame.steps step
      rw [hpart'] at hsome
      obtain ⟨part, hpart⟩ := Option.isSome_iff_exists.mp hsome
      exact ⟨part, hpart, hparts step part part' hpart hpart'⟩
    · intro step part hpart
      have hsome := (hsame.steps step).symm
      rw [hpart] at hsome
      obtain ⟨part', hpart'⟩ := Option.isSome_iff_exists.mp hsome
      exact ⟨part', hparts step part part' hpart hpart', .inl hpart'⟩

namespace TypeGraph.Moves

variable (hm : g.Moves N B g') (hwf : g.WellFormed) (hs' : g'.Sound)
include hm hwf hs'

/-- Each node of a type has its like in the graph with the name, among the nodes of the
type or among those of the base. -/
theorem hasNode_forth {raw : Json} (h : g.HasNode T raw) : ∃ raw', raw.Moved N B raw' ∧
    (g'.HasNode T raw' ∨ g'.HasNode N raw' ∧ References g' T N) := by
  obtain ⟨b, hb, -⟩ := hs' N _ hm.hasNode_base
  induction h with
  | root htree =>
    obtain ⟨tree', htree', hmoved⟩ := hm.tree_forth htree
    exact ⟨tree', hmoved, .inl (.root htree')⟩
  | @part raw n step c hraw hn hpart ih =>
    obtain ⟨raw', hmoved, hwhere⟩ := ih
    obtain ⟨n', hn', hsound⟩ : ∃ n', NodeShape.ofJson raw' = .ok n' ∧ n'.Sound g' :=
      hwhere.elim (hs' T raw') fun h => hs' N raw' h.1
    have hfollows := hmoved.follows hm.plain hn hn' hb hsound (hwf.hasNode hraw)
    have hat := NodeShape.at?_of_mem_parts (NodeShape.nodup_properties (hwf.hasNode hraw) hn) hpart
    obtain ⟨part', hmoved', hpart' | ⟨hname, hbase⟩⟩ := hfollows.forth _ _ hat
    all_goals obtain ⟨⟩ | @⟨_, c', hmoved'⟩ := hmoved'
    · have hmem := NodeShape.mem_parts_of_at? hpart'
      exact ⟨c', hmoved', hwhere.imp (fun h => .part h hn' hmem) fun h => ⟨.part h.1 hn' hmem, h.2⟩⟩
    · -- the part is one of the base
      have href : References g' T N :=
        hwhere.elim (fun h => ⟨raw', n', h, hn', hm.declared?_base hname⟩) And.right
      exact ⟨c', hmoved', .inr ⟨.part hm.hasNode_base hb (NodeShape.mem_parts_of_at? hbase), href⟩⟩

/-- Where a type refers to another, it does so with the name, or by way of the base. -/
theorem references_forth (h : References g T U) : TransGen (References g') T U := by
  obtain ⟨raw, n, hraw, hn, hU⟩ := h
  obtain ⟨raw', hmoved, hwhere⟩ := hm.hasNode_forth hwf hs' hraw
  obtain ⟨b, hb, -⟩ := hs' N _ hm.hasNode_base
  obtain ⟨n', hn', hsound⟩ : ∃ n', NodeShape.ofJson raw' = .ok n' ∧ n'.Sound g' :=
    hwhere.elim (hs' T raw') fun h => hs' N raw' h.1
  have hfollows := hmoved.follows hm.plain hn hn' hb hsound (hwf.hasNode hraw)
  rw [hm.declared?_eq (hm.unnamed T raw n hraw hn)] at hU
  rcases hfollows.same with h | h
  · rw [NodeShape.declared?_congr h.1.symm] at hU
    rcases hwhere with hraw' | ⟨hraw', href⟩
    · exact .single ⟨raw', n', hraw', hn', hU⟩
    · exact .tail (.single href) ⟨raw', n', hraw', hn', hU⟩
  · rw [NodeShape.declared?_congr h.2.1.symm] at hU
    have href : References g' T N :=
      hwhere.elim (fun hraw' => ⟨raw', n', hraw', hn', hm.declared?_base h.1⟩) And.right
    exact .tail (.single href) ⟨.obj B, b, hm.hasNode_base, hb, hU⟩

/-- A type derives from what it derives from without the name, or by way of the base. -/
theorem derives_forth (h : Derives g T U) : TransGen (Derives g') T U := by
  obtain ⟨tree, n, htree, hn, hU⟩ := h
  obtain ⟨tree', htree', hmoved⟩ := hm.tree_forth htree
  obtain ⟨b, hb, -⟩ := hs' N _ hm.hasNode_base
  obtain ⟨n', hn', hsound⟩ := hs' T tree' (.root htree')
  rw [hm.declared?_eq (hm.unnamed T tree n (.root htree) hn)] at hU
  rcases (hmoved.follows hm.plain hn hn' hb hsound (hwf T tree htree)).same with h | h
  · rw [NodeShape.declared?_congr h.1.symm] at hU
    exact .single ⟨tree', n', htree', hn', hU⟩
  · rw [NodeShape.declared?_congr h.2.1.symm] at hU
    exact .tail (.single ⟨tree', n', htree', hn', hm.declared?_base h.1⟩)
      ⟨.obj B, b, hm.declares, hb, hU⟩

/-- Without the name, no node carries a reference if none does with it. -/
theorem noReferences (h : g'.NoReferences) : g.NoReferences := by
  intro T raw n hraw hn
  obtain ⟨raw', hmoved, hwhere⟩ := hm.hasNode_forth hwf hs' hraw
  obtain ⟨b, hb, -⟩ := hs' N _ hm.hasNode_base
  obtain ⟨V, hraw'⟩ : ∃ V, g'.HasNode V raw' := hwhere.elim (⟨T, ·⟩) fun h => ⟨N, h.1⟩
  obtain ⟨n', hn', hsound⟩ := hs' V raw' hraw'
  have hfollows := hmoved.follows hm.plain hn hn' hb hsound (hwf.hasNode hraw)
  rcases hfollows.same with ⟨-, hsame⟩ | ⟨-, -, hsame⟩ <;> rw [← hsame]
  · exact h V raw' n' hraw' hn'
  · exact h N _ b hm.hasNode_base hb

/-- A type that leads to no cycle with the name leads to none without it. -/
theorem tame (hT : g'.Tame T) : g.Tame T := by
  have hforth : References g ≤ TransGen (References g') :=
    fun _ _ => hm.references_forth hwf hs'
  intro X hpath hcycle
  refine hT X ?_ (TransGen.closed hforth _ _ hcycle)
  exact ReflTransGen.lift' id (fun _ _ href => (hforth _ _ href).to_reflTransGen) _ _ hpath

variable (hwf' : g'.WellFormed) (hs : g.Sound)
include hwf' hs

/-- Each node of a type has its like in the graph without the name. -/
theorem hasNode_back (hT : T ≠ N) {raw' : Json} (h : g'.HasNode T raw') :
    ∃ raw, g.HasNode T raw ∧ raw.Moved N B raw' := by
  obtain ⟨b, hb, -⟩ := hs' N _ hm.hasNode_base
  induction h with
  | @root tree' htree' =>
    have hrel := hm.tree T hT
    rw [htree'] at hrel
    generalize htree : g.tree? T = found at hrel
    cases hrel with
    | some hmoved => exact ⟨_, .root htree, hmoved⟩
  | part hraw' hn' hpart ih =>
    obtain ⟨raw, hraw, hmoved⟩ := ih
    obtain ⟨n, hn, -⟩ := hs T raw hraw
    obtain ⟨n₀, hn₀, hsound⟩ := hs' T _ hraw'
    obtain rfl := Except.ok.inj (hn₀.symm.trans hn')
    have hfollows := hmoved.follows hm.plain hn hn' hb hsound (hwf.hasNode hraw)
    have hat := NodeShape.at?_of_mem_parts
      (NodeShape.nodup_properties (hwf'.hasNode hraw') hn') hpart
    obtain ⟨part, hpart, ⟨⟩ | hmoved⟩ := hfollows.back _ _ hat
    exact ⟨_, .part hraw hn (NodeShape.mem_parts_of_at? hpart), hmoved⟩

/-- But for the base, a type refers to what it refers to without the name. -/
theorem references_back (hT : T ≠ N) (h : References g' T U) : U = N ∨ References g T U := by
  obtain ⟨raw', n', hraw', hn', hU⟩ := h
  obtain ⟨raw, hraw, hmoved⟩ := hm.hasNode_back hwf hs' hwf' hs hT hraw'
  obtain ⟨b, hb, -⟩ := hs' N _ hm.hasNode_base
  obtain ⟨n, hn, -⟩ := hs T raw hraw
  obtain ⟨n₀, hn₀, hsound⟩ := hs' T _ hraw'
  obtain rfl := Except.ok.inj (hn₀.symm.trans hn')
  rcases (hmoved.follows hm.plain hn hn' hb hsound (hwf.hasNode hraw)).same with h | h
  · have hdeclared := hm.declared?_eq (hm.unnamed T raw n hraw hn)
    exact .inr ⟨raw, n, hraw, hn, hdeclared.trans ((NodeShape.declared?_congr h.1).symm.trans hU)⟩
  · exact .inl (Option.some.inj (hU.symm.trans (hm.declared?_base h.1)))

/-- To a tame type that refers to the base, something refers with the name if and only if
something does without it. -/
theorem referred_iff (hT : g'.Tame T) (href : References g' T N) :
    (∃ U, References g' U T) ↔ ∃ U, References g U T := by
  constructor
  · rintro ⟨U, hU⟩
    have hTN : T ≠ N := by
      rintro rfl
      exact hT T .refl (.single href)
    by_cases hUN : U = N
    · -- the base would refer to what refers to it
      subst hUN
      exact absurd (TransGen.tail (.single href) hU) (hT T .refl)
    · exact ⟨U, (hm.references_back hwf hs' hwf' hs hUN hU).resolve_left hTN⟩
  · rintro ⟨U, hU⟩
    obtain ⟨V, -, hV⟩ := TransGen.tail'_iff.mp (hm.references_forth hwf hs' hU)
    exact ⟨V, hV⟩

end TypeGraph.Moves

/-! ### Documents -/

/-- The documents of two graphs are alike, of which the second names a base type `N`. -/
structure TypeGraph.DocumentsAlike (N : String) (o : Options) (g g' : TypeGraph) : Prop where
  /-- Of a type that leads to no cycle and refers to the base, both have the document or
  neither has. -/
  referring : ∀ T, g'.Tame T → References g' T N → Option.Rel Alike
    ((normalize g o).documents.get? T) ((normalize g' o).documents.get? T)
  tame : ∀ T doc doc', g'.Tame T → (normalize g o).documents.get? T = some doc →
    (normalize g' o).documents.get? T = some doc' → doc.Alike doc'
  /-- On cycles, where references may be written in other places, documents unfold to alike
  trees of every depth. -/
  unfolded : g'.NoReferences → (∀ U, ¬ TransGen (Derives g') U U) → ∀ T doc doc' depth,
    (normalize g o).documents.get? T = some doc → (normalize g' o).documents.get? T = some doc' →
    ∃ t t',
      (∀ u, Unfolds (normalize g o).documents depth { doc with schema := none } u ↔ u = t) ∧
      (∀ u, Unfolds (normalize g' o).documents depth { doc' with schema := none } u ↔ u = t') ∧
      t.Alike t'

section

variable (hm : g.Moves N B g') (hwf : g.WellFormed) (hwf' : g'.WellFormed)
  (hok' : (normalize g' o).failures = [])
include hm hwf hwf' hok'

theorem document_alike {doc doc' : SchemaNode} (hT : g'.Tame T)
    (hdoc : (normalize g o).documents.get? T = some doc)
    (hdoc' : (normalize g' o).documents.get? T = some doc') : doc.Alike doc' := by
  have htame := hm.tame hwf (sound_of_ok hok') hT
  obtain ⟨d, ⟨tree, htree, hd⟩, rfl⟩ := document_yields htame hdoc
  obtain ⟨d', ⟨tree', htree', hd'⟩, rfl⟩ := document_yields hT hdoc'
  exact (hd.alike hm hwf hwf' d rfl _ _ d' (hm.paired htree htree') hd').withSchema _

variable (hok : (normalize g o).failures = [])
include hok

/-- **Naming a base type changes no document**, up to order, if nothing fails. -/
theorem documents_alike : TypeGraph.DocumentsAlike N o g g' where
  tame _ _ _ hT hdoc hdoc' := document_alike hm hwf hwf' hok' hT hdoc hdoc'
  referring T hT href := by
    have hs := sound_of_ok hok
    have hs' := sound_of_ok hok'
    have hTN : T ≠ N := by
      rintro rfl
      exact hT T .refl (.single href)
    have hkeys : T ∈ (normalize g o).documents.keys ↔ T ∈ (normalize g' o).documents.keys := by
      rw [mem_documents_of_tame hok (hm.tame hwf hs' hT), mem_documents_of_tame hok' hT,
        hm.mem_names_iff hTN, ← not_exists, ← not_exists, hm.referred_iff hwf hs' hwf' hs hT href]
    rcases hdoc : (normalize g o).documents.get? T with - | doc
    · have hnot := hkeys.not.mp (Members.get?_eq_none_iff.mp hdoc)
      rw [Members.get?_eq_none_iff.mpr hnot]
      exact .none
    · obtain ⟨doc', hdoc'⟩ := Members.exists_get?_of_mem_keys
        (hkeys.mp (Members.mem_keys_of_get? hdoc))
      rw [hdoc']
      exact .some (document_alike hm hwf hwf' hok' hT hdoc hdoc')
  unfolded hrefs' hderives' T doc doc' depth hdoc hdoc' := by
    have hs' := sound_of_ok hok'
    have hderives : ∀ U, ¬ TransGen (Derives g) U U := fun U hcycle =>
      hderives' U (TransGen.closed (fun _ _ => hm.derives_forth hwf hs') _ _ hcycle)
    obtain ⟨tree, htree, h⟩ := documents_expand hwf (hm.noReferences hwf hs' hrefs')
      hderives hok T doc (Members.mem_of_get? hdoc)
    obtain ⟨tree', htree', h'⟩ := documents_expand hwf' hrefs' hderives' hok' T doc'
      (Members.mem_of_get? hdoc')
    obtain ⟨t, hu, ht⟩ := h depth
    obtain ⟨t', hu', ht'⟩ := h' depth
    exact ⟨t, t', hu, hu', Expands.alike hm hwf hwf' hs' depth (hm.paired htree htree')
      ((ht t).mpr rfl) ((ht' t').mpr rfl)⟩

end

end RamlSchema
