/-
RamlSchema/Proofs/Raml/Naming.lean

Base types in declarations, and base types with names.

A declaration can give its base type as a mapping, or the mapping can be declared under
a name of its own and the declaration gives the name.  The documents are the same up to
order, as long as the declaration and its base do not clash (`Fits`): of the members of
a mapping that stands in a declaration only those count that the declaration does not
give itself, while properties and required names of a type with a name are kept beside
those of the declaration.  Where both have properties, those of the mapping are lost
(`named_base_apart`).

Main result: `named_base_alike`.
-/
import RamlSchema.Proofs.Normalize.Naming
import RamlSchema.Proofs.Raml.Moving
import RamlSchema.Proofs.Raml.WellFormed

namespace RamlSchema.Raml

open Relation Yaml

/-! ### Documents with moved bases -/

/-- `d'` is `d` with a declaration of `M` under the name `N`, and with this name for the
mapping `M` in the declaration of `T`. -/
inductive Document.Moves (N : String) (M : List (Value × Value)) (P : List (Value × Value) → Prop)
    (T : String) (root : Bool) (d d' : Document) : Prop
  | intro {xs ys as bs k v v'} :
      d.declarations = xs ++ (k, v) :: ys → keyText [] k = .ok T → Raml.Moves N M P root v v' →
      d'.declarations = as ++ (.str N, .map M) :: bs → as ++ bs = xs ++ (k, v') :: ys →
      Document.Moves N M P T root d d'

section

variable {N T : String} {M : List (Value × Value)} {B : Members Json} {root : Bool}
  {d d' : Document} {g g' : TypeGraph}

theorem readDeclaration_base (hB : expand (some N) [] (.map M) = .ok B) {t : String × Json}
    (h : readDeclaration (.str N, .map M) = .ok t) : t = (N, .obj B) := by
  obtain ⟨hname, ms, hms, htree⟩ := readDeclaration_eq_ok_iff.mp h
  obtain ⟨name, tree⟩ := t
  obtain rfl : N = name := Except.ok.inj hname
  obtain rfl := Except.ok.inj (hB.symm.trans hms)
  exact Prod.ext rfl htree

/-- What is declared in the two documents: the trees of the one are those of the other but
for that of the base and that of the declaration with the base. -/
theorem Document.Moves.trees {P : List (Value × Value) → Prop} (h : d.Moves N M P T root d')
    (hB : expand (some N) [] (.map M) = .ok B) (hload : d.Loads g) (hload' : d'.Loads g') :
    ∃ v v' ms ms' ts ss us ws, Raml.Moves N M P root v v' ∧
      expand (some T) [] v = .ok ms ∧ expand (some T) [] v' = .ok ms' ∧
      g.trees = ts ++ (T, .obj ms) :: ss ∧ g'.trees = us ++ (N, .obj B) :: ws ∧
      us ++ ws = ts ++ (T, .obj ms') :: ss := by
  obtain @⟨xs, ys, as, bs, k, v, v', hd, hk, hmoves, hd', heq⟩ := h
  have hread := (Document.loads_iff.mp hload).2
  have hread' := (Document.loads_iff.mp hload').2
  rw [hd, mapM_middle] at hread
  rw [hd', mapM_middle] at hread'
  obtain ⟨ts, t, ss, hts, ht, hss, hg⟩ := hread
  obtain ⟨us, b, ws, hus, hb, hws, hg'⟩ := hread'
  obtain rfl := readDeclaration_base hB hb
  -- without the base, the entries of the second document are read like those of the first
  have hall : (as ++ bs).mapM readDeclaration = .ok (us ++ ws) := by
    rw [List.mapM_append, hus, hws]
    rfl
  rw [heq, mapM_middle] at hall
  obtain ⟨ts', t', ss', hts', ht', hss', hall⟩ := hall
  obtain rfl := Except.ok.inj (hts.symm.trans hts')
  obtain rfl := Except.ok.inj (hss.symm.trans hss')
  obtain ⟨hname, ms, hms, htree⟩ := readDeclaration_eq_ok_iff.mp ht
  obtain ⟨hname', ms', hms', htree'⟩ := readDeclaration_eq_ok_iff.mp ht'
  obtain ⟨name, tree⟩ := t
  obtain ⟨name', tree'⟩ := t'
  obtain rfl : T = name := Except.ok.inj (hk.symm.trans hname)
  obtain rfl : T = name' := Except.ok.inj (hk.symm.trans hname')
  obtain rfl : tree = .obj ms := htree
  obtain rfl : tree' = .obj ms' := htree'
  exact ⟨_, _, ms, ms', ts, ss, us, ws, hmoves, hms, hms', hg, hg', hall⟩

/-- Moving a base type in a document is moving it in the graph. -/
theorem Document.Moves.graph (h : d.Moves N M (Fits B) T root d')
    (hB : expand (some N) [] (.map M) = .ok B) (hload : d.Loads g) (hload' : d'.Loads g')
    (hplain : TypeExpr.Plain N) (hunnamed : g.AllShapes fun n => n.typeName? ≠ some N) :
    g.Moves N B g' := by
  obtain ⟨v, v', ms, ms', ts, ss, us, ws, hmoves, hms, hms', hg, hg', heq⟩ :=
    h.trees hB hload hload'
  have hnodup : (Members.keys (us ++ (N, .obj B) :: ws)).Nodup := hg' ▸ g'.nodup_names
  have hmoved := (hmoves.shifted hB _ ms ms' hms hms').moved
  -- the base is declared once, and under no name of the first document
  have hnew : N ∉ Members.keys (us ++ ws) := by
    rw [Members.keys_append] at hnodup ⊢
    exact (List.nodup_middle.mp hnodup).notMem
  have hkeys : Members.keys (us ++ ws) = g.names := by
    rw [heq, TypeGraph.names, hg]
    simp [Members.keys]
  refine ⟨hplain, hkeys ▸ hnew, hunnamed, ?_, fun U hU => ?_⟩
  · rw [TypeGraph.tree?, hg', Members.get?_eq_some_iff_mem hnodup]
    simp
  · have hskip : g'.tree? U = Members.get? (us ++ ws) U := by
      rw [TypeGraph.tree?, hg', Members.get?_append, Members.get?_append, Members.get?,
        if_neg hU.symm]
    rw [hskip, heq, TypeGraph.tree?, hg]
    exact Members.get?_related (related_middle Json.Moved.refl hmoved T ts ss) U

/-- If it is the type itself that has the base type, it refers to the base then. -/
theorem Document.Moves.references (h : d.Moves N M (Fits B) T true d')
    (hB : expand (some N) [] (.map M) = .ok B) (hload : d.Loads g) (hload' : d'.Loads g')
    (hm : g.Moves N B g') (hs' : g'.Sound) : References g' T N := by
  obtain ⟨v, v', ms, ms', ts, ss, us, ws, hmoves, hms, hms', -, hg', heq⟩ := h.trees hB hload hload'
  have hbase : Rebased N B ms ms' := hmoves.shifted hB _ ms ms' hms hms'
  have htree : g'.tree? T = some (.obj ms') := by
    have hmem : (T, .obj ms') ∈ us ++ ws := by
      rw [heq]
      simp
    rw [TypeGraph.tree?, Members.get?_eq_some_iff_mem g'.nodup_names, hg']
    rcases List.mem_append.mp hmem with hmem | hmem
    · exact List.mem_append_left _ hmem
    · exact List.mem_append_right _ (List.mem_cons_of_mem _ hmem)
  obtain ⟨n, hn, -⟩ := hs' T _ (.root htree)
  exact ⟨_, n, .root htree, hn, hm.declared?_base (hbase.type_own hm.plain hn)⟩

/-- **A base type in a declaration and one with a name mean the same**, where the facets
of the declaration fit those of the base type.  Whenever both documents are loaded and
converted without a failure, the documents of each type that leads to no cycle are alike
up to order, and there is one in both cases or in neither if the type refers to the base;
and what documents unfold to is alike in any case. -/
theorem named_base_alike {o : Options} (h : d.Moves N M (Fits B) T root d')
    (hB : expand (some N) [] (.map M) = .ok B) (hload : d.Loads g) (hload' : d'.Loads g')
    (hplain : TypeExpr.Plain N) (hunnamed : g.AllShapes fun n => n.typeName? ≠ some N)
    (hok : (normalize g o).failures = []) (hok' : (normalize g' o).failures = []) :
    (root = true → References g' T N) ∧ TypeGraph.DocumentsAlike N o g g' := by
  have hm := h.graph hB hload hload' hplain hunnamed
  refine ⟨?_, documents_alike hm hload.wellFormed hload'.wellFormed hok' hok⟩
  rintro rfl
  exact h.references hB hload hload' hm (sound_of_ok hok')

end

/-! ### A type with a base type -/

/-- The graph of a document, as far as it can be loaded. -/
def Document.graph (d : Document) : TypeGraph :=
  (exec d.declareAll ∅).2

/-- The facets of a base type with a property. -/
def boxBase : List (Value × Value) :=
  [(.str "properties", .map [(.str "size", .str "number")])]

/-- A type that has this base type in it. -/
def inlineBox (own : List (Value × Value)) : Document where
  entries := [(.str "types", .map [(.str "Box", .map ((.str "type", .map boxBase) :: own))])]

/-- A type that names it. -/
def namedBox (own : List (Value × Value)) : Document where
  entries :=
    [(.str "types", .map
      [(.str "Base", .map boxBase), (.str "Box", .map ((.str "type", .str "Base") :: own))])]

/-- The tree of the base type. -/
def baseMembers : Members Json :=
  [("name", .str "Base"),
    ("properties", .obj [("size", .obj
      [("name", .str "size"), ("type", .arr [.str "number"]), ("displayName", .str "size"),
        ("required", .bool true)])]),
    ("type", .arr [.str "object"]), ("displayName", .str "Base")]

theorem expand_boxBase : expand (some "Base") [] (.map boxBase) = .ok baseMembers := rfl

theorem moves_box {P : List (Value × Value) → Prop} {own : List (Value × Value)} (h : P own) :
    (inlineBox own).Moves "Base" boxBase P "Box" true (namedBox own) := by
  have hmoves : Raml.Moves "Base" boxBase P true
      (.map ([] ++ (.str "type", .map boxBase) :: own))
      (.map ([] ++ (.str "type", .str "Base") :: own)) := .here (.inl rfl) h
  exact @Document.Moves.intro _ _ _ _ _ _ _ [] [] [] _ _ _ _ rfl rfl hmoves rfl rfl

/-- A facet that fits the base type. -/
def boxFacets : List (Value × Value) :=
  [(.str "description", .str "A box.")]

theorem fits_boxFacets : Fits baseMembers boxFacets := by
  have hfacet : ∀ key v, HasFacet boxFacets key v → key = "description" := by
    rintro key v ⟨k, hmem, hkey⟩
    obtain ⟨rfl, -⟩ : k = .str "description" ∧ v = .str "A box." := by
      simpa [boxFacets] using hmem
    cases hkey
    rfl
  refine ⟨fun key hkey v hv => ?_, fun v hv => ?_, fun v hv => ?_, rfl, fun v j names hv => ?_⟩
  · obtain rfl := hfacet key v hv
    simp at hkey
  all_goals exact absurd (hfacet _ v hv) (by decide)

/-- Such a type has like documents in both forms. -/
theorem named_base_alike_box : (inlineBox boxFacets).Loads (inlineBox boxFacets).graph ∧
    (namedBox boxFacets).Loads (namedBox boxFacets).graph ∧
    References (namedBox boxFacets).graph "Box" "Base" ∧ ∃ doc doc',
      (normalize (inlineBox boxFacets).graph {}).documents.get? "Box" = some doc ∧
      (normalize (namedBox boxFacets).graph {}).documents.get? "Box" = some doc' ∧
      doc.Alike doc' := by
  have hunnamed : (inlineBox boxFacets).graph.AllShapes fun n => n.typeName? ≠ some "Base" := by
    decide
  obtain ⟨href, halike⟩ := named_base_alike (o := {}) (moves_box fits_boxFacets) expand_boxBase
    rfl rfl ⟨rfl, rfl⟩ hunnamed rfl rfl
  have hbase : (namedBox boxFacets).graph.Tame "Base" :=
    TypeGraph.tame_of_forall fun V hV => nomatch TypeGraph.mem_targets_iff.mpr hV
  have hbox : (namedBox boxFacets).graph.Tame "Box" := by
    apply TypeGraph.tame_of_forall
    intro V hV
    have htargets : (namedBox boxFacets).graph.targets "Box" = ["Base"] := by decide
    have hmem := TypeGraph.mem_targets_iff.mpr hV
    rw [htargets, List.mem_singleton] at hmem
    exact hmem ▸ hbase
  exact ⟨rfl, rfl, href rfl, _, _, rfl, rfl, halike.tame "Box" _ _ hbox rfl rfl⟩

/-- Properties beside those of the base type. -/
def boxProperties : List (Value × Value) :=
  [(.str "properties", .map [(.str "label", .str "string")])]

/-- **Where both have properties, those of the base type are lost** unless it has a name. -/
theorem named_base_apart :
    (inlineBox boxProperties).Moves "Base" boxBase (fun _ => True) "Box" true
      (namedBox boxProperties) ∧
    (inlineBox boxProperties).Loads (inlineBox boxProperties).graph ∧
    (namedBox boxProperties).Loads (namedBox boxProperties).graph ∧
    TypeExpr.Plain "Base" ∧
    ((inlineBox boxProperties).graph.AllShapes fun n => n.typeName? ≠ some "Base") ∧
    (normalize (inlineBox boxProperties).graph {}).failures = [] ∧
    (normalize (namedBox boxProperties).graph {}).failures = [] ∧
    ∃ doc doc',
      (normalize (inlineBox boxProperties).graph {}).documents.get? "Box" = some doc ∧
      (normalize (namedBox boxProperties).graph {}).documents.get? "Box" = some doc' ∧
      doc.at? (.property "size") = none ∧ doc.required = some ["label"] ∧
      doc'.at? (.property "size") = some (.ofType "number") ∧
      doc'.required = some ["size", "label"] ∧ ¬ doc.Alike doc' := by
  refine ⟨moves_box trivial, rfl, rfl, ⟨rfl, rfl⟩, by decide, rfl, rfl, _, _, rfl, rfl, rfl, rfl,
    rfl, rfl, ?_⟩
  intro halike
  cases halike.root.steps (.property "size")

end RamlSchema.Raml
