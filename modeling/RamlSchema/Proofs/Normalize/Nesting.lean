/-
RamlSchema/Proofs/Normalize/Nesting.lean

How deep documents nest.

The limit of the options is on the way down, from the type with which a conversion
begins, through all types that are converted on the way.  A schema that is done is
put in the place of its type without being measured again, however deep that place
lies; and the element of an array that is a union is written without a level of its
own.  So the limit bounds what the tree of a single type contributes to a document
(`TypeGraph.depthLimit`), and not the document.

Main result: `nesting_bounded`.  A document nests no deeper than the trees of its
own type and of the types that were put in it allow together.
-/
import RamlSchema.Proofs.Normalize.Levels
import RamlSchema.Proofs.Normalize.Links
import RamlSchema.Proofs.Schema.Nesting
import Mathlib.Algebra.BigOperators.Group.Finset.Basic
import Mathlib.Algebra.Order.BigOperators.Group.Finset

namespace RamlSchema

open Relation Progress SchemaNode

variable {g : TypeGraph} {o : Options} {p p' p'' : Progress}

/-! ### Depths in a tree -/

/-- What stands in the tree of a type, and how many steps below the root. -/
inductive TypeGraph.HasPartAt (g : TypeGraph) (typeName : String) : Nat → Part → Prop
  | root {tree} : g.tree? typeName = some tree → HasPartAt g typeName 0 (.node tree)
  | part {depth raw n step part} :
      HasPartAt g typeName depth (.node raw) → NodeShape.ofJson raw = .ok n →
      (step, part) ∈ n.parts → HasPartAt g typeName (depth + 1) part

/-- Some array in the tree of a type has elements that are a union. -/
def TypeGraph.HasUnionArray (g : TypeGraph) (typeName : String) : Prop :=
  ∃ depth element, g.HasPartAt typeName depth (.written element)

open Classical in
/-- How deep the tree of a type can be if the type has been converted. -/
noncomputable def TypeGraph.depthLimit (g : TypeGraph) (o : Options) (typeName : String) : Nat :=
  min (g.height typeName)
    (if g.HasUnionArray typeName then o.maxDepth + 1 else o.maxDepth)

theorem TypeGraph.HasPartAt.within {U : String} {depth : Nat} {part : Part}
    (h : g.HasPartAt U depth part) : part.Within g U := by
  induction h with
  | root htree => exact .root htree
  | part _ hn hpart ih => exact ih.of_mem hn hpart

theorem TypeGraph.HasPartAt.add_height_le {U : String} {depth : Nat} {part : Part}
    (h : g.HasPartAt U depth part) : depth + part.height ≤ g.height U := by
  induction h with
  | root htree => simp [TypeGraph.height_of_tree? htree, Part.height]
  | part _ hn hpart ih =>
    have hlt := Part.height_lt hn hpart
    rw [Part.height] at ih
    omega

/-! ### What has been converted lies within the limit -/

/-- A node is converted by tasks that are performed a level further down. -/
theorem Converts.exists_performs {k : Nat} {raw : Json} {l : Location}
    {n : SchemaNode} (h : Converts g o k (.node raw) l p (.ok n) p') :
    ∃ k' s done p₁, k = k' + 1 ∧ NodeShape.ofJson raw = .ok s ∧
      Performs g o k' l (s.tasks g l) p (.ok done) p₁ := by
  cases h with
  | plain hs hts _ => exact ⟨_, _, _, _, rfl, hs, hts⟩
  | cycle hs hts _ _ _ => exact ⟨_, _, _, _, rfl, hs, hts⟩
  | inlined hs hts _ _ _ => exact ⟨_, _, _, _, rfl, hs, hts⟩

/-- If all tasks are performed, all parts are converted. -/
theorem Performs.exists_converts {k : Nat} {l : Location} {ts : List Task} {p p' : Progress}
    {done : List (Step × SchemaNode)} {step : Step} {part : Part} :
    Performs g o k l ts p (.ok done) p' → (step, part) ∈ ts.filterMap Task.part? →
      ∃ l' q n q', Converts g o k part l' q (.ok n) q'
  | .nil, hpart => nomatch hpart
  | .report hts, hpart => hts.exists_converts hpart
  | .convert hn hts, hpart => by
    rcases List.mem_cons.mp hpart with heq | hpart
    · cases heq
      exact ⟨_, _, _, _, hn⟩
    · exact hts.exists_converts hpart

/-- The tree of a type has been converted with the levels of the options or less. -/
def TypeGraph.Passes (g : TypeGraph) (o : Options) (typeName : String) : Prop :=
  ∃ tree k l q n q', g.tree? typeName = some tree ∧ k ≤ o.maxDepth + 1 ∧
    Converts g o k (.node tree) l q (.ok n) q'

/-- So has what stands in the tree, with a level less for each step. -/
theorem TypeGraph.HasPartAt.converts {U : String} {tree : Json} {k depth : Nat} {part : Part}
    {l : Location} {n : SchemaNode} (h : g.HasPartAt U depth part) (htree : g.tree? U = some tree)
    (hn : Converts g o k (.node tree) l p (.ok n) p') :
    ∃ k' l' q m q', k' + depth = k ∧ Converts g o k' part l' q (.ok m) q' := by
  induction h with
  | root htree' =>
    obtain rfl := Option.some.inj (htree.symm.trans htree')
    exact ⟨k, l, p, n, p', rfl, hn⟩
  | part _ hs hpart ih =>
    obtain ⟨_, l', q, m, q', rfl, hm⟩ := ih
    obtain ⟨k', s', done, q₁, rfl, hs', hts⟩ := hm.exists_performs
    rw [hs] at hs'
    cases hs'
    rw [← NodeShape.part?_tasks] at hpart
    obtain ⟨l'', q'', c, q''', hc⟩ := hts.exists_converts hpart
    exact ⟨k', l'', q'', c, q''', by omega, hc⟩

theorem TypeGraph.Passes.depth_le {U : String} {depth : Nat} {part : Part} (h : g.Passes o U)
    (hpart : g.HasPartAt U depth part) : depth ≤ g.depthLimit o U := by
  obtain ⟨tree, k, l, q, n, q', htree, hk, hn⟩ := h
  obtain ⟨k', l', p, m, p', hdepth, hm⟩ := hpart.converts htree hn
  have hheight := hpart.add_height_le
  rw [TypeGraph.depthLimit, Nat.le_min]
  refine ⟨by omega, ?_⟩
  split
  · omega
  · rename_i hunion
    rcases part with raw | element
    · -- a node takes a level, and there is one left for it
      obtain ⟨k'', _, _, _, rfl, -, -⟩ := hm.exists_performs
      omega
    · exact absurd ⟨depth, element, hpart⟩ hunion

/-! ### All that is done has been converted within the limit -/

/-- What is done behind `p'` and was not done in `p` lies within the limit. -/
def Progress.Earns (g : TypeGraph) (o : Options) (p p' : Progress) : Prop :=
  ∀ T ∈ p'.definitions.keys, T ∈ p.definitions.keys ∨ g.Passes o T

theorem Progress.Earns.of_eq (h : p'.definitions = p.definitions) : p.Earns g o p' :=
  fun _ hT => .inl (h ▸ hT)

theorem Progress.Earns.trans (h : p.Earns g o p') (h' : p'.Earns g o p'') : p.Earns g o p'' :=
  fun T hT => (h' T hT).elim (h T) .inr

mutual

theorem Converts.earns {k : Nat} {part : Part} {l : Location} {p p' : Progress}
    {r : Except ConvertError SchemaNode} (hk : k ≤ o.maxDepth + 1) :
    Converts g o k part l p r p' → p.Earns g o p'
  | .written => .of_eq rfl
  | .tooDeep => .of_eq rfl
  | .malformed _ => .of_eq rfl
  | .failed _ htasks => htasks.earns (Nat.le_of_succ_le hk)
  | .plain _ htasks _ => htasks.earns (Nat.le_of_succ_le hk)
  | .cycle _ htasks _ _ _ => (htasks.earns (Nat.le_of_succ_le hk)).trans (.of_eq rfl)
  | .cyclic _ htasks _ _ _ => htasks.earns (Nat.le_of_succ_le hk)
  | .inlined _ htasks _ _ hbase =>
    ((htasks.earns (Nat.le_of_succ_le hk)).trans (hbase.earns (Nat.le_of_succ_le hk))).trans
      (.of_eq (definitions_nest _ _ _))
  | .lost _ htasks _ _ hbase =>
    (htasks.earns (Nat.le_of_succ_le hk)).trans (hbase.earns (Nat.le_of_succ_le hk))

theorem Performs.earns {k : Nat} {l : Location} {ts : List Task} {p p' : Progress}
    {r : Except ConvertError (List (Step × SchemaNode))} (hk : k ≤ o.maxDepth + 1) :
    Performs g o k l ts p r p' → p.Earns g o p'
  | .nil => .of_eq rfl
  | .report hts => fun T hT => hts.earns hk T hT
  | .fail => .of_eq rfl
  | .stop hn => hn.earns hk
  | .later hn hts => (hn.earns hk).trans (hts.earns hk)
  | .convert hn hts => (hn.earns hk).trans (hts.earns hk)

theorem Completes.earns {k : Nat} {T : String} {p p' : Progress}
    {r : Except ConvertError SchemaNode} (hk : k ≤ o.maxDepth + 1) :
    Completes g o k T p r p' → p.Earns g o p'
  | .known _ => .of_eq rfl
  | .undeclared _ _ => .of_eq rfl
  | .defined _ htree hn => fun U hU => by
    -- the type itself is new, and has just been converted
    rcases Members.mem_keys_insert.mp hU with hU | rfl
    · exact hn.earns hk U hU
    · exact .inr ⟨_, k, _, _, _, _, htree, hk, hn⟩
  | .abandoned _ _ hn => fun U hU => hn.earns hk U hU

end

theorem passes_of_defined (T : String) (hT : T ∈ (converted g o).1.definitions.keys) :
    g.Passes o T := by
  have hcall := fun p name => (call_completes (g := g) (o := o) p name).earns le_rfl
  refine turns_cases (g := g) (o := o)
    (Q := fun _ s => ∀ T ∈ s.1.definitions.keys, g.Passes o T) (fun _ h => nomatch h)
    (fun names name s _ _ ih => ih) (fun names name s n p _ h ih T hT => ?_)
    (fun names name s e p _ h ih T hT => ?_) g.names T hT
  · exact (hcall s.1 name T (h ▸ hT)).elim (ih T) id
  · exact (hcall s.1 name T (h ▸ hT)).elim (ih T) id

/-! ### The nesting of schemas -/

section

variable {base : String → SchemaNode → Prop} {U : String} {limit bound : Nat}

mutual

/-- What is rendered nests no deeper than the tree and the schemas that are put in
it allow together. -/
theorem Renders.nesting_le (hlimit : ∀ depth part, g.HasPartAt U depth part → depth ≤ limit)
    (hbase : ∀ T b, base T b → References g U T → b.nesting ≤ bound) {depth : Nat} {part : Part}
    {n : SchemaNode} (hpart : g.HasPartAt U depth part) :
    Renders g base part n → n.nesting ≤ limit - depth + bound
  | .written => by
    rw [nesting_ofType]
    exact Nat.zero_le _
  | .plain hs _ hparts _ => by
    refine nesting_le_iff.mpr fun c hc => ?_
    obtain ⟨step, hmem⟩ := hc.of_fill
    exact hparts.nesting_lt hlimit hbase (fun _ _ h => .part hpart hs h) step c hmem
  | .reference hs _ hparts hT hb => by
    have hreference : References g U _ := hpart.within.references hs hT
    refine nesting_overlay_le ((hbase _ _ hb hreference).trans (Nat.le_add_left _ _)) ?_
    refine nesting_le_iff.mpr fun c hc => ?_
    obtain ⟨step, hmem⟩ := NodeShape.of_child_site hc
    exact hparts.nesting_lt hlimit hbase (fun _ _ h => .part hpart hs h) step c hmem

theorem RendersAll.nesting_lt (hlimit : ∀ depth part, g.HasPartAt U depth part → depth ≤ limit)
    (hbase : ∀ T b, base T b → References g U T → b.nesting ≤ bound) {depth : Nat}
    {parts : List (Step × Part)} {done : List (Step × SchemaNode)}
    (hparts : ∀ step part, (step, part) ∈ parts → g.HasPartAt U (depth + 1) part) :
    RendersAll g base parts done →
      ∀ step c, (step, c) ∈ done → c.nesting < limit - depth + bound
  | .nil => fun _ _ hmem => nomatch hmem
  | .cons hn hrest => fun step c hmem => by
    rcases List.mem_cons.mp hmem with heq | hmem
    · cases heq
      have hpart := hparts _ _ List.mem_cons_self
      have hle := hn.nesting_le hlimit hbase hpart
      have hdepth := hlimit _ _ hpart
      omega
    · exact hrest.nesting_lt hlimit hbase (fun s part hs => hparts s part (List.mem_cons_of_mem _ hs))
        step c hmem

end

end

open Classical in
/-- The types to which `T` leads and whose schemas have been put in places. -/
noncomputable def Progress.inlined (g : TypeGraph) (p : Progress) (T : String) : Finset String :=
  p.nested.toFinset.filter fun U => TransGen (References g) T U

/-- A schema nests no deeper than the trees of its type and of those that were done
before it and put in it allow together. -/
theorem Progress.Valid.nesting_le (hp : p.Valid g)
    (hpasses : ∀ T ∈ p.definitions.keys, g.Passes o T) {D : Members SchemaNode} {T : String}
    {d : SchemaNode} (hD : D ++ [(T, d)] <+: p.definitions) :
    d.nesting ≤ g.depthLimit o T
      + ∑ U ∈ (p.inlined g T).filter (· ∈ D.keys), g.depthLimit o U := by
  induction hlen : D.length using Nat.strong_induction_on generalizing D T d with
  | _ len ih =>
    obtain ⟨tree, htree, hrenders⟩ := hp.history D T d hD
    have hdone : T ∈ p.definitions.keys :=
      List.mem_map.mpr ⟨(T, d), hD.subset (by simp), rfl⟩
    refine hrenders.nesting_le (fun _ _ => (hpasses T hdone).depth_le) ?_ (.root htree)
    rintro V b (⟨hget, hnested⟩ | ⟨rfl, -⟩) href
    · -- what was put in `V` was done before `V`, so that `V` is not counted twice
      obtain ⟨D', rest, rfl⟩ := List.append_of_mem (Members.mem_of_get? hget)
      have hfront : D' ++ [(V, b)] <+: p.definitions :=
        List.IsPrefix.trans ⟨rest ++ [(T, d)], by simp⟩ hD
      have hV := hp.notMem_front hfront
      have hle := ih D'.length (by simp [← hlen]) hfront rfl
      rw [← Finset.sum_insert (f := fun U => g.depthLimit o U)
        (fun h => hV (Finset.mem_filter.mp h).2)] at hle
      refine hle.trans (Finset.sum_le_sum_of_subset fun U hU => ?_)
      simp only [inlined, Finset.mem_insert, Finset.mem_filter, List.mem_toFinset] at hU ⊢
      rcases hU with rfl | ⟨⟨hU, hpath⟩, hmem⟩
      · exact ⟨⟨hnested, .single href⟩, by simp [Members.keys]⟩
      · exact ⟨⟨hU, .head href hpath⟩, by simp [hmem]⟩
    · rw [nesting_referenceTo]
      exact Nat.zero_le _

/-! ### The nesting of documents -/

theorem Progress.mem_inlined {T U : String} :
    U ∈ p.inlined g T ↔ U ∈ p.nested ∧ TransGen (References g) T U := by
  simp [inlined]

theorem document_nesting_le {T : String} {doc : SchemaNode}
    (h : (T, doc) ∈ (normalize g o).documents) :
    doc.nesting ≤ ∑ U ∈ insert T ((converted g o).1.inlined g T), g.depthLimit o U := by
  have hvalid := (idle_converted (g := g) (o := o)).valid
  obtain ⟨-, -, d, hd, rfl⟩ := mem_documents.mp h
  obtain ⟨D, hfront⟩ := exists_front hd
  have hT := hvalid.notMem_front hfront
  have hle := hvalid.nesting_le passes_of_defined hfront
  rw [← Finset.sum_insert (f := fun U => g.depthLimit o U)
    (fun h => hT (Finset.mem_filter.mp h).2)] at hle
  rw [nesting_schema]
  exact hle.trans (Finset.sum_le_sum_of_subset
    (Finset.insert_subset_insert T (Finset.filter_subset _ _)))

/-- The trees of all declared types allow no more than the levels that they take. -/
theorem sum_depthLimit_le {s : Finset String} (hs : ∀ U ∈ s, U ∈ g.names) :
    ∑ U ∈ s, g.depthLimit o U ≤ g.levels := by
  have hnodup : g.names.Nodup := g.nodup_names
  rw [TypeGraph.levels, ← List.sum_toFinset (fun U => g.height U + 1) hnodup]
  calc ∑ U ∈ s, g.depthLimit o U
      ≤ ∑ U ∈ s, (g.height U + 1) :=
        Finset.sum_le_sum fun U _ => (min_le_left _ _).trans (Nat.le_succ _)
    _ ≤ ∑ U ∈ g.names.toFinset, (g.height U + 1) :=
        Finset.sum_le_sum_of_subset fun U hU => List.mem_toFinset.mpr (hs U hU)

/-- **How deep documents nest.**  Each of the types that are in a document, its own
and those that were put in their places, adds what its tree allows.  So a document
keeps within the limit if no type was put in it and its tree has no array of a
union, and all documents do if the limit leaves room for all trees at once. -/
theorem nesting_bounded (g : TypeGraph) (o : Options) :
    (∀ T doc, (T, doc) ∈ (normalize g o).documents →
      doc.nesting ≤ ∑ U ∈ insert T ((converted g o).1.inlined g T), g.depthLimit o U) ∧
    (∀ T doc, (T, doc) ∈ (normalize g o).documents →
      (∀ U ∈ (converted g o).1.nested, TransGen (References g) T U → U = T) →
      ¬ g.HasUnionArray T → doc.nesting ≤ o.maxDepth) ∧
    (g.levels ≤ o.maxDepth →
      ∀ T doc, (T, doc) ∈ (normalize g o).documents → doc.nesting ≤ o.maxDepth) := by
  refine ⟨fun T doc h => document_nesting_le h, fun T doc h hinlined hunion => ?_,
    fun hlevels T doc h => ?_⟩
  · have honly : insert T ((converted g o).1.inlined g T) = {T} := by
      ext U
      simp only [Finset.mem_insert, mem_inlined, Finset.mem_singleton]
      exact ⟨fun hU => hU.elim id fun hU => hinlined U hU.1 hU.2, .inl⟩
    have hle := document_nesting_le h
    rw [honly, Finset.sum_singleton, TypeGraph.depthLimit, if_neg hunion] at hle
    exact hle.trans (min_le_right _ _)
  · have hvalid := (idle_converted (g := g) (o := o)).valid
    refine (document_nesting_le h).trans ((sum_depthLimit_le fun U hU => ?_).trans hlevels)
    rcases Finset.mem_insert.mp hU with rfl | hU
    · exact (mem_documents.mp h).1
    · exact hvalid.definitions_declared U (hvalid.nested_defined U (mem_inlined.mp hU).1)

/-- Trees with trees below them, and what has such a tree. -/
def groveGraph : TypeGraph :=
  .ofList
    [("Tree", .ofProperties [("left", .ofType (.str "Tree"))]),
      ("Grove", .ofProperties [("oak", .ofType (.str "Tree"))])]

theorem groveGraph_parts {depth : Nat} {part : Part} (h : groveGraph.HasPartAt "Tree" depth part) :
    part = .node (.ofProperties [("left", .ofType (.str "Tree"))]) ∨
      part = .node (.ofType (.str "Tree")) := by
  induction h with
  | root htree => exact .inl (congrArg Part.node (Option.some.inj htree).symm)
  | part _ hn hpart ih =>
    rcases ih with hraw | hraw
    · cases hraw
      cases hn
      cases List.mem_singleton.mp hpart
      exact .inr rfl
    · cases hraw
      cases hn
      exact absurd hpart List.not_mem_nil

/-- With one level, the document of trees keeps within it, though trees were put in
places and refer to trees; with four levels the other document keeps within these. -/
theorem nesting_bounded_grove :
    (∃ doc, ("Tree", doc) ∈ (normalize groveGraph { maxDepth := 1 }).documents ∧
      "Tree" ∈ (converted groveGraph { maxDepth := 1 }).1.nested ∧
      (∀ U ∈ (converted groveGraph { maxDepth := 1 }).1.nested,
        TransGen (References groveGraph) "Tree" U → U = "Tree") ∧
      ¬ groveGraph.HasUnionArray "Tree" ∧ doc.nesting ≤ 1) ∧
    groveGraph.levels ≤ 4 ∧
      ∃ doc, ("Grove", doc) ∈ (normalize groveGraph { maxDepth := 4 }).documents ∧
        doc.nesting ≤ 4 := by
  constructor
  · have hdoc : ("Tree", _) ∈ (normalize groveGraph { maxDepth := 1 }).documents := .head _
    have hnested : (converted groveGraph { maxDepth := 1 }).1.nested = ["Tree"] := by decide
    have halone : ∀ U ∈ (converted groveGraph { maxDepth := 1 }).1.nested,
        TransGen (References groveGraph) "Tree" U → U = "Tree" := by
      intro U hU _
      rw [hnested] at hU
      exact List.mem_singleton.mp hU
    have hunion : ¬ groveGraph.HasUnionArray "Tree" := by
      rintro ⟨depth, element, hpart⟩
      rcases groveGraph_parts hpart with h | h <;> cases h
    obtain ⟨-, hwithin, -⟩ := nesting_bounded groveGraph { maxDepth := 1 }
    exact ⟨_, hdoc, hnested ▸ List.mem_singleton_self _, halone, hunion,
      hwithin "Tree" _ hdoc halone hunion⟩
  · have hlevels : groveGraph.levels ≤ 4 := by decide
    have hdoc : ("Grove", _) ∈ (normalize groveGraph { maxDepth := 4 }).documents :=
      .tail _ (.head _)
    obtain ⟨-, -, hall⟩ := nesting_bounded groveGraph { maxDepth := 4 }
    exact ⟨hlevels, _, hdoc, hall hlevels "Grove" _ hdoc⟩

/-- A type with a property, and one that has it for a property. -/
def stackedGraph : TypeGraph :=
  .ofList
    [("A", .ofProperties [("x", .ofType (.str "string"))]),
      ("B", .ofProperties [("a", .ofType (.str "A"))])]

/-- A level is all that is allowed, and the document has two. -/
theorem nesting_exceeds :
    ∃ doc, ("B", doc) ∈ (normalize stackedGraph { maxDepth := 1 }).documents ∧ 1 < doc.nesting :=
  ⟨_, .head _, by decide⟩

end RamlSchema
