/-
RamlSchema/Proofs/Normalize/Moving.lean

Giving base types a name.

Of two graphs that are the same but for the nodes of a base type, one has the members of
the base in these nodes, and the other declares them under a name of their own
(`TypeGraph.Moves`).  What a node makes of the schemas of its parts and of its type is
told apart from how it comes by them (`Made`), and is compared by itself: a node that
names the base lays its keywords over the schema of the base, and a node with the
members of the base in it says in one what the two say together.

Main results: the schemas that nodes of the two graphs yield are alike
(`Yields.alike`), and so are their expansions to any depth, also where types lead back
to themselves (`Expands.alike`).
-/
import RamlSchema.Proofs.Normalize.Bases
import RamlSchema.Proofs.Normalize.Policies
import RamlSchema.Proofs.Normalize.TopLevel

namespace RamlSchema

open Relation SchemaNode

/-- `g` and `g'` are the same but for nodes with a base type, which only `g'` declares,
under a name that is not in use. -/
structure TypeGraph.Moves (N : String) (B : Members Json) (g g' : TypeGraph) : Prop where
  plain : TypeExpr.Plain N
  undeclared : N ∉ g.names
  unnamed : ∀ T raw n, g.HasNode T raw → NodeShape.ofJson raw = .ok n → n.typeName? ≠ some N
  declares : g'.tree? N = some (.obj B)
  tree : ∀ T, T ≠ N → Option.Rel (Json.Moved N B) (g.tree? T) (g'.tree? T)

/-- All nodes of all trees have a shape and pass their checks. -/
def TypeGraph.Sound (g : TypeGraph) : Prop :=
  ∀ T raw, g.HasNode T raw → ∃ n, NodeShape.ofJson raw = .ok n ∧ n.Sound g

/-! ### What is made of a node -/

/-- A node gives `a` if it lays the keywords `s` over what there is for its type. -/
def NodeShape.Gives (g : TypeGraph) (base : String → SchemaNode → Prop) (n : NodeShape)
    (s a : SchemaNode) : Prop :=
  match n.declared? g with
  | none => a = { s with type := n.schemaType }
  | some T => ∃ b, base T b ∧ a = b.overlay s

/-- What is made of a node, told by what is made of its parts and of types. -/
def Made (g : TypeGraph) (base : String → SchemaNode → Prop) (below : Part → SchemaNode → Prop)
    (raw : Json) (a : SchemaNode) : Prop :=
  ∃ n done, NodeShape.ofJson raw = .ok n ∧ List.Forall₂ (Labelled below) n.parts done ∧
    n.Gives g base (n.site done) a

variable {g g' : TypeGraph} {N : String} {B : Members Json}

theorem NodeShape.declared?_congr {n n' : NodeShape} (h : n.type = n'.type) :
    n.declared? g = n'.declared? g := by
  simp only [declared?, typeName?, schemaType, h]

namespace TypeGraph.Moves

variable (hm : g.Moves N B g')
include hm

theorem mem_names_iff {T : String} (hT : T ≠ N) : T ∈ g.names ↔ T ∈ g'.names := by
  rw [← g.tree?_isSome_iff, ← g'.tree?_isSome_iff, isSome_eq_of_rel (hm.tree T hT)]

theorem declared?_eq {n : NodeShape} (hn : n.typeName? ≠ some N) :
    n.declared? g = n.declared? g' := by
  ext T
  rw [NodeShape.declared?_eq_some_iff, NodeShape.declared?_eq_some_iff]
  exact and_congr_right fun hT => hm.mem_names_iff (by rintro rfl; exact hn hT)

theorem tree_forth {T : String} {tree : Json} (htree : g.tree? T = some tree) :
    ∃ tree', g'.tree? T = some tree' ∧ tree.Moved N B tree' := by
  have hT : T ≠ N := by
    rintro rfl
    exact hm.undeclared ((g.tree?_isSome_iff T).mp (by rw [htree]; rfl))
  have hrel := hm.tree T hT
  rw [htree] at hrel
  generalize htree' : g'.tree? T = found at hrel
  cases hrel with
  | some hmoved => exact ⟨_, rfl, hmoved⟩

theorem hasNode_base : g'.HasNode N (.obj B) :=
  .root hm.declares

/-- A node that names the base refers to it. -/
theorem declared?_base {own : NodeShape} (hown : own.type = some (.named N)) :
    own.declared? g' = some N := by
  refine NodeShape.declared?_eq_some_iff.mpr ⟨?_, hm.hasNode_base.mem_names⟩
  simp [NodeShape.typeName?, NodeShape.schemaType, hown, SchemaType.single?]

end TypeGraph.Moves

section

variable {base base' : String → SchemaNode → Prop} {n n' : NodeShape} {s s' a b : SchemaNode}

/-- Nodes of one type that lay alike keywords over alike schemas give alike ones. -/
theorem NodeShape.Gives.alike (hs : s.Alike s') (htype : n.type = n'.type)
    (hT : n.declared? g = n'.declared? g') (hbase : ∀ T c c', base T c → base' T c' → c.Alike c')
    (h : n.Gives g base s a) (h' : n'.Gives g' base' s' b) : a.Alike b := by
  unfold Gives at h h'
  rw [← hT] at h'
  rcases hd : n.declared? g with - | T <;> rw [hd] at h h'
  · have hschema : n.schemaType = n'.schemaType := by rw [schemaType, schemaType, htype]
    obtain rfl : a = _ := h
    obtain rfl : b = _ := h'
    rw [← hschema]
    exact hs.withType _
  · obtain ⟨c, hc, rfl⟩ := h
    obtain ⟨c', hc', rfl⟩ := h'
    exact (hbase T c c' hc hc').overlay hs

/-- What is laid over what a node gives is laid over its keywords. -/
theorem NodeShape.Gives.overlay (h : n.Gives g base s a) (hs : s.Distinct) (site : SchemaNode) :
    n.Gives g base (s.overlay site) (a.overlay site) := by
  unfold Gives at h ⊢
  split at h
  · obtain rfl : a = _ := h
    rfl
  · obtain ⟨c, hc, rfl⟩ := h
    exact ⟨c, hc, overlay_assoc c site hs⟩

end

/-- Two parts of trees are the same but for nodes with bases. -/
structure Paired (N : String) (B : Members Json) (g g' : TypeGraph) (part part' : Part) :
    Prop where
  within : ∃ T, part.Within g T
  within' : ∃ T, part'.Within g' T
  moved : part.Moved N B part'

section

variable {base base' : String → SchemaNode → Prop} {below below' : Part → SchemaNode → Prop}
  {raw raw' : Json} {a b : SchemaNode}

/-- **One level.**  What is made of two nodes that are the same but for nodes with bases
is alike, if what is made of the parts of the one and of those of the other is, and what
is made of types. -/
theorem Made.alike (hm : g.Moves N B g') (hwf : g.WellFormed) (hwf' : g'.WellFormed)
    (hpair : Paired N B g g' (.node raw) (.node raw'))
    (hsound : ∀ own, NodeShape.ofJson raw' = .ok own → own.Sound g')
    (hbelow : ∀ part part' c d, Paired N B g g' part part' → below part c → below' part' d →
      c.Alike d)
    (hbase : ∀ T c d, base T c → base' T d → c.Alike d)
    (hN : ∀ d, base' N d → Made g' base' below' (.obj B) d)
    (ha : Made g base below raw a) (hb : Made g' base' below' raw' b) : a.Alike b := by
  obtain ⟨⟨T, hwithin⟩, ⟨T', hwithin'⟩, ⟨⟩ | hmoved⟩ := hpair
  obtain ⟨n, done, hn, hdone, ha⟩ := ha
  obtain ⟨n', done', hn', hdone', hb⟩ := hb
  have hraw := hwf.hasNode (hwithin raw rfl)
  have hdistinct := NodeShape.distinct_site hraw hn hdone
  have hdistinct' := NodeShape.distinct_site (hwf'.hasNode (hwithin' raw' rfl)) hn' hdone'
  have hunnamed : n.declared? g = n.declared? g' :=
    hm.declared?_eq (hm.unnamed T raw n (hwithin raw rfl) hn)
  rcases hmoved.shapes hn hn' hraw with ⟨ms, ms', rfl, rfl, h⟩ | ⟨h, hparts⟩
  · -- the second node lays its keywords over what is made of the base
    have hb' := hb
    rw [NodeShape.Gives, hm.declared?_base (h.type_own hm.plain hn')] at hb'
    obtain ⟨d, hd, rfl⟩ := hb'
    obtain ⟨bn, doneB, hbn, hdoneB, hgives⟩ := hN d hd
    have hsplits := h.splits hn hn' hbn hm.plain (hsound n' hn').items (hsound n' hn').required
    have hdistinctB :=
      NodeShape.distinct_site (hwf'.hasNode hm.hasNode_base) hbn hdoneB
    have hsite := hsplits.alike hdone hdone' hdoneB hdistinct hdistinct' hdistinctB
      fun step part c e hpart hc he => by
        refine hbelow part part c e ⟨⟨T, ?_⟩, ?_, .refl part⟩ hc he
        · exact hwithin.of_mem hn (NodeShape.mem_parts_of_at? hpart)
        · rw [hsplits.at?] at hpart
          rcases Option.or_eq_some_iff.mp hpart with hown | ⟨-, hbase⟩
          · exact ⟨T', hwithin'.of_mem hn' (NodeShape.mem_parts_of_at? hown)⟩
          · have hB : Part.Within g' N (.node (.obj B)) := .root hm.declares
            exact ⟨N, hB.of_mem hbn (NodeShape.mem_parts_of_at? hbase)⟩
    have hT := hunnamed.trans (NodeShape.declared?_congr hsplits.type)
    exact ha.alike hsite hsplits.type hT hbase (hgives.overlay hdistinctB _)
  · have hsite := h.alike hdone hdone' hdistinct hdistinct'
      fun step part part' c d hpart hpart' hc hd =>
        hbelow part part' c d ⟨⟨T, hwithin.of_mem hn (NodeShape.mem_parts_of_at? hpart)⟩,
          ⟨T', hwithin'.of_mem hn' (NodeShape.mem_parts_of_at? hpart')⟩,
          hparts step part part' hpart hpart'⟩ hc hd
    have hT := hunnamed.trans (NodeShape.declared?_congr h.type)
    exact ha.alike hsite h.type hT hbase hb

end

/-! ### What comes of parts -/

/-- Tasks that give nodes do not fail, and give what their parts give. -/
theorem YieldsAll.parts {l : Location} {ts : List Task} {done : List (Step × SchemaNode)}
    (h : YieldsAll g l ts (.ok done)) :
    (∀ e, .fail e ∉ ts) ∧ List.Forall₂ (YieldsPart g l) (ts.filterMap Task.part?) done := by
  induction ts generalizing done with
  | nil =>
    cases h
    exact ⟨nofun, .nil⟩
  | cons t ts ih =>
    cases t with
    | report e =>
      cases h with
      | report h =>
        obtain ⟨hfail, hdone⟩ := ih h
        exact ⟨fun e he => hfail e (by simpa using he), hdone⟩
    | fail e => cases h
    | convert step part =>
      generalize hr : Except.ok done = r at h
      cases h with
      | stop => cases hr
      | @convert _ _ _ _ n r hn h =>
        rcases r with e | rest
        · cases hr
        · cases hr
          obtain ⟨hfail, hdone⟩ := ih h
          exact ⟨fun e he => hfail e (by simpa using he), .cons ⟨rfl, hn⟩ hdone⟩

theorem YieldsAll.sound {l : Location} {n : NodeShape} {done : List (Step × SchemaNode)}
    (h : YieldsAll g l (n.tasks g l) (.ok done)) : n.Sound g :=
  NodeShape.sound_iff.mpr h.parts.1

/-- What a node gives is made of what its parts and types give, if it gives a node. -/
theorem Yields.made {raw : Json} {l : Location} {a : SchemaNode}
    (h : Yields g (.node raw) l (.ok a)) :
    (∀ n, NodeShape.ofJson raw = .ok n → n.Sound g) ∧
      Made g (fun T b => TypeYields g T (.ok b)) (fun part b => ∃ l, Yields g part l (.ok b))
        raw a := by
  have hparts : ∀ {n : NodeShape} {done : List (Step × SchemaNode)},
      YieldsAll g l (n.tasks g l) (.ok done) →
      List.Forall₂ (Labelled fun part b => ∃ l, Yields g part l (.ok b)) n.parts done := by
    intro n done hts
    have hdone := hts.parts.2
    rw [NodeShape.part?_tasks] at hdone
    exact hdone.imp fun _ _ hd => ⟨hd.1, _, hd.2⟩
  generalize hr : Except.ok a = r at h
  cases h with
  | malformed => cases hr
  | failed => cases hr
  | @plain _ _ n done hn hts hT =>
    obtain rfl := Except.ok.inj hr
    refine ⟨fun m hm => ?_, n, done, hn, hparts hts, ?_⟩
    · obtain rfl := Except.ok.inj (hn.symm.trans hm)
      exact hts.sound
    · rw [NodeShape.Gives, hT]
      rfl
  | @derived _ _ n done T tree r hn hts hT htree hb =>
    rcases r with e | b
    · cases hr
    · obtain rfl := Except.ok.inj hr
      refine ⟨fun m hm => ?_, n, done, hn, hparts hts, ?_⟩
      · obtain rfl := Except.ok.inj (hn.symm.trans hm)
        exact hts.sound
      · rw [NodeShape.Gives, hT]
        exact ⟨b, ⟨tree, htree, hb⟩, rfl⟩

/-- What a node expands to is made of what its parts and types expand to. -/
theorem ExpandsAt.made {below : Part → SchemaNode → Prop} {raw : Json} {a : SchemaNode}
    (h : ExpandsAt g below (.node raw) a) :
    Made g (fun T b => ∃ tree, g.tree? T = some tree ∧ ExpandsAt g below (.node tree) b) below
      raw a := by
  cases h with
  | @plain _ n done hn hT hdone =>
    refine ⟨n, done, hn, hdone, ?_⟩
    rw [NodeShape.Gives, hT]
    rfl
  | @reference _ n done T tree b hn hT htree hb hdone =>
    refine ⟨n, done, hn, hdone, ?_⟩
    rw [NodeShape.Gives, hT]
    exact ⟨b, ⟨tree, htree, hb⟩, rfl⟩

section

variable (hm : g.Moves N B g') (hwf : g.WellFormed) (hwf' : g'.WellFormed)
include hm

/-- The trees of a type are the same but for nodes with bases. -/
theorem TypeGraph.Moves.paired {T : String} {tree tree' : Json} (htree : g.tree? T = some tree)
    (htree' : g'.tree? T = some tree') : Paired N B g g' (.node tree) (.node tree') := by
  obtain ⟨found, hfound, hmoved⟩ := hm.tree_forth htree
  obtain rfl := Option.some.inj (hfound.symm.trans htree')
  exact ⟨⟨T, .root htree⟩, ⟨T, .root htree'⟩, .node hmoved⟩

include hwf hwf'

/-- One level, where nodes give nodes. -/
theorem Yields.alike_node {raw : Json} {a : SchemaNode}
    (ha : Made g (fun T c => ∀ d, TypeYields g' T (.ok d) → c.Alike d)
      (fun part c => ∀ part' l d, Paired N B g g' part part' → Yields g' part' l (.ok d) →
        c.Alike d) raw a)
    {part' : Part} {l : Location} {b : SchemaNode} (hpair : Paired N B g g' (.node raw) part')
    (hb : Yields g' part' l (.ok b)) : a.Alike b := by
  obtain ⟨raw', rfl⟩ : ∃ raw', part' = .node raw' := by
    cases hpair.moved
    exact ⟨_, rfl⟩
  refine ha.alike hm hwf hwf' hpair hb.made.1 ?_ (fun T c d hc hd => hc d hd) ?_ hb.made.2
  · rintro part part' c d hpair hc ⟨l, hd⟩
    exact hc part' l d hpair hd
  · rintro d ⟨tree, htree, hd⟩
    obtain rfl := Option.some.inj (hm.declares.symm.trans htree)
    exact hd.made.2

end

mutual

/-- **Parts that are the same but for nodes with bases give alike nodes**, if both give
nodes. -/
theorem Yields.alike (hm : g.Moves N B g') (hwf : g.WellFormed) (hwf' : g'.WellFormed)
    {part : Part} {l : Location} {r : Except ConvertError SchemaNode} :
    Yields g part l r → ∀ a, r = .ok a → ∀ part' l' b, Paired N B g g' part part' →
      Yields g' part' l' (.ok b) → a.Alike b
  | .written => by
    rintro _ ⟨⟩ part' l' b hpair hb
    cases hpair.moved
    cases hb
    exact .ofType _
  | .malformed _ => nofun
  | .failed _ _ => nofun
  | .plain hn hts hT => by
    rintro _ ⟨⟩ part' l' b hpair hb
    have hdone := hts.alike hm hwf hwf' _ rfl
    rw [NodeShape.part?_tasks] at hdone
    refine Yields.alike_node hm hwf hwf' ⟨_, _, hn, hdone, ?_⟩ hpair hb
    rw [NodeShape.Gives, hT]
    rfl
  | .derived hn hts hT htree hr => by
    intro a ha part' l' b hpair hb
    obtain ⟨c, hc, rfl⟩ := Except.map_eq_ok_iff.mp ha
    have hdone := hts.alike hm hwf hwf' _ rfl
    rw [NodeShape.part?_tasks] at hdone
    refine Yields.alike_node hm hwf hwf' ⟨_, _, hn, hdone, ?_⟩ hpair hb
    rw [NodeShape.Gives, hT]
    refine ⟨c, ?_, rfl⟩
    rintro d ⟨tree', htree', hd⟩
    exact hr.alike hm hwf hwf' c hc _ _ d (hm.paired htree htree') hd

theorem YieldsAll.alike (hm : g.Moves N B g') (hwf : g.WellFormed) (hwf' : g'.WellFormed)
    {l : Location} {ts : List Task}
    {r : Except ConvertError (List (Step × SchemaNode))} :
    YieldsAll g l ts r → ∀ done, r = .ok done →
      List.Forall₂ (Labelled fun part c => ∀ part' l' d, Paired N B g g' part part' →
        Yields g' part' l' (.ok d) → c.Alike d) (ts.filterMap Task.part?) done
  | .nil => by
    rintro _ ⟨⟩
    exact .nil
  | .report hts => hts.alike hm hwf hwf'
  | .fail => nofun
  | .stop _ => nofun
  | .convert hn hts => by
    intro done hdone
    obtain ⟨rest, hrest, rfl⟩ := Except.map_eq_ok_iff.mp hdone
    exact .cons ⟨rfl, hn.alike hm hwf hwf' _ rfl⟩ (hts.alike hm hwf hwf' rest hrest)

end

section

variable (hm : g.Moves N B g') (hwf : g.WellFormed) (hwf' : g'.WellFormed)
include hm hwf hwf'

/-- Parts that are the same but for nodes with bases expand to alike trees, if the parts
below them do. -/
theorem ExpandsAt.alike (hsound : g'.Sound) {below below' : Part → SchemaNode → Prop}
    (hbelow : ∀ part part' c d, Paired N B g g' part part' → below part c → below' part' d →
      c.Alike d) {part part' : Part} {a b : SchemaNode} (hpair : Paired N B g g' part part')
    (ha : ExpandsAt g below part a) (hb : ExpandsAt g' below' part' b) : a.Alike b := by
  -- one level, for a node of which the types expand to alike trees
  have hnode : ∀ {raw : Json} {a : SchemaNode} {part' : Part} {b : SchemaNode},
      Made g (fun T c => ∀ tree d, g'.tree? T = some tree → ExpandsAt g' below' (.node tree) d →
        c.Alike d) below raw a →
      Paired N B g g' (.node raw) part' → ExpandsAt g' below' part' b → a.Alike b := by
    intro raw a part' b ha hpair hb
    obtain ⟨raw', rfl⟩ : ∃ raw', part' = .node raw' := by
      cases hpair.moved
      exact ⟨_, rfl⟩
    refine ha.alike hm hwf hwf' hpair ?_ hbelow ?_ ?_ hb.made
    · intro own hown
      obtain ⟨T, hwithin⟩ := hpair.within'
      obtain ⟨n, hn, h⟩ := hsound T raw' (hwithin raw' rfl)
      obtain rfl := Except.ok.inj (hn.symm.trans hown)
      exact h
    · rintro T c d hc ⟨tree, htree, hd⟩
      exact hc tree d htree hd
    · rintro d ⟨tree, htree, hd⟩
      obtain rfl := Option.some.inj (hm.declares.symm.trans htree)
      exact hd.made
  induction ha generalizing part' b with
  | written =>
    cases hpair.moved
    cases hb
    exact .ofType _
  | plain hn hT hdone =>
    refine hnode ⟨_, _, hn, hdone, ?_⟩ hpair hb
    rw [NodeShape.Gives, hT]
    rfl
  | @reference _ _ _ T tree c hn hT htree _ hdone ih =>
    refine hnode ⟨_, _, hn, hdone, ?_⟩ hpair hb
    rw [NodeShape.Gives, hT]
    refine ⟨c, ?_, rfl⟩
    intro tree' d htree' hd
    exact ih (hm.paired htree htree') hd

/-- **They expand to alike trees of every depth.** -/
theorem Expands.alike (hsound : g'.Sound) (depth : Nat) {part part' : Part} {a b : SchemaNode}
    (hpair : Paired N B g g' part part') (ha : Expands g depth part a)
    (hb : Expands g' depth part' b) : a.Alike b := by
  induction depth generalizing part part' a b with
  | zero =>
    obtain rfl : a = {} := ha
    obtain rfl : b = {} := hb
    exact .empty
  | succ depth ih =>
    exact ExpandsAt.alike hm hwf hwf' hsound (fun _ _ _ _ hpair hc hd => ih hpair hc hd) hpair ha hb

end

end RamlSchema
