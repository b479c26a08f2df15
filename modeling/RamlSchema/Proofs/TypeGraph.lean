/-
RamlSchema/Proofs/TypeGraph.lean

Graphs made of declarations, one after another.

A declaration that comes again under its name replaces the tree and keeps the place.  So
a list of declarations decides a graph in two ways: the first declaration of a name says
where it stands, and the last one says what it is.  A table that is written in the same
way and has whole declarations as its values, so that each name is there twice, is the
same graph (`table_eq`).  Two graphs are the same if they have the same tree under every
name, and then the order of their names is not looked at.

Main result: `ofDeclarations_represents`.
-/
import RamlSchema.Proofs.Schema.Layers
import RamlSchema.TypeGraph

namespace RamlSchema

/-! ### Equality of members -/

namespace Json

variable {ms ns : Members Json}

theorem sameMembers_iff :
    sameMembers ms ns = true ↔ ∀ m ∈ ms, ∃ w, ns.get? m.1 = some w ∧ m.2.same w = true := by
  induction ms with
  | nil => simp [sameMembers]
  | cons m ms ih =>
    obtain ⟨k, v⟩ := m
    rw [sameMembers, Bool.and_eq_true, ih, List.forall_mem_cons]
    refine and_congr_left fun _ => ?_
    rcases ns.get? k with - | w <;> simp

/-- **Objects without repeated keys are the same if they have the same value under every
key**, in whatever order the keys come. -/
theorem same_obj_iff (hms : ms.keys.Nodup) (hns : ns.keys.Nodup) :
    same (.obj ms) (.obj ns) = true ↔
      ∀ k, Option.Rel (fun v w => v.same w = true) (ms.get? k) (ns.get? k) := by
  rw [same, Bool.and_eq_true, beq_iff_eq, sameMembers_iff]
  constructor
  · rintro ⟨hlength, hsame⟩ k
    have hsub : ms.keys ⊆ ns.keys := by
      intro k hk
      obtain ⟨m, hm, rfl⟩ := List.mem_map.mp hk
      obtain ⟨w, hw, -⟩ := hsame m hm
      exact Members.mem_keys_of_get? hw
    -- there are no further keys on the right, since there are as many as on the left
    have hperm : ms.keys.Perm ns.keys :=
      (List.subperm_of_subset hms hsub).perm_of_length_le (by simp [Members.keys, hlength])
    rcases hv : ms.get? k with - | v
    · have hk : k ∉ ns.keys := fun hk => Members.get?_eq_none_iff.mp hv (hperm.mem_iff.mpr hk)
      rw [Members.get?_eq_none_iff.mpr hk]
      exact .none
    · obtain ⟨w, hw, hvw⟩ := hsame (k, v) (Members.mem_of_get? hv)
      rw [hw]
      exact .some hvw
  · intro hrel
    have hmem : ∀ k, k ∈ ms.keys ↔ k ∈ ns.keys := by
      intro k
      rw [← Members.contains_iff_mem_keys, ← Members.contains_iff_mem_keys, Members.contains,
        Members.contains, isSome_eq_of_rel (hrel k)]
    have hperm : ms.keys.Perm ns.keys := (List.perm_ext_iff_of_nodup hms hns).mpr hmem
    refine ⟨by simpa [Members.keys] using hperm.length_eq, fun m hm => ?_⟩
    have h := hrel m.1
    rw [(Members.get?_eq_some_iff_mem hms).mpr hm] at h
    rcases hw : ns.get? m.1 with - | w <;> rw [hw] at h
    · cases h
    · cases h with
      | some hvw => exact ⟨w, rfl, hvw⟩

end Json

/-! ### Declarations -/

namespace Declaration

/-- The last of some declarations that has a name. -/
def last? (ds : List Declaration) (name : String) : Option Declaration :=
  ds.reverse.find? fun d => d.name = name

/-- The declarations under their names, written one after another. -/
def table (ds : List Declaration) : Members Declaration :=
  Members.ofList (ds.map fun d => (d.name, d))

/-- Declarations with the same name, and with the same tree but for the order of keys. -/
def Same (d e : Declaration) : Prop :=
  d.name = e.name ∧ d.tree.same e.tree = true

variable {ds : List Declaration} {d : Declaration} {name : String}

theorem name_of_last? (h : last? ds name = some d) : d.name = name := by
  simpa using List.find?_some h

theorem last?_concat (ds : List Declaration) (d : Declaration) (name : String) :
    last? (ds ++ [d]) name = if d.name = name then some d else last? ds name := by
  by_cases h : d.name = name <;> simp [last?, h]

theorem last?_isSome_iff : (last? ds name).isSome ↔ name ∈ ds.map Declaration.name := by
  simp [last?]

end Declaration

namespace TypeGraph

open Declaration

variable {g : TypeGraph}

/-- The declarations of a graph under their names. -/
def entries (g : TypeGraph) : Members Declaration :=
  g.toList.map fun d => (d.name, d)

theorem ofDeclarations_concat (ds : List Declaration) (d : Declaration) :
    ofDeclarations (ds ++ [d]) = (ofDeclarations ds).insert d :=
  List.foldl_append

theorem get?_insert (g : TypeGraph) (d : Declaration) (name : String) :
    (g.insert d).get? name = if d.name = name then some d else g.get? name := by
  have htree : (g.insert d).tree? name = if d.name = name then some d.tree else g.tree? name :=
    Members.get?_insert g.trees d.name name d.tree
  rw [get?, htree]
  split
  · rename_i h
    subst h
    rfl
  · rfl

/-- Reading a graph under a name gives the last declaration of the name. -/
theorem get?_ofDeclarations (ds : List Declaration) (name : String) :
    (ofDeclarations ds).get? name = last? ds name := by
  induction ds using List.reverseRecOn with
  | nil => rfl
  | append_singleton ds d ih => rw [ofDeclarations_concat, get?_insert, last?_concat, ih]

theorem tree?_ofDeclarations (ds : List Declaration) (name : String) :
    (ofDeclarations ds).tree? name = (last? ds name).map Declaration.tree := by
  rw [← get?_ofDeclarations, get?, Option.map_map]
  exact Option.map_id'.symm

/-- The names come in the order of their first declarations. -/
theorem names_ofDeclarations (ds : List Declaration) :
    (ofDeclarations ds).names = (ds.map Declaration.name).eraseDups := by
  induction ds using List.reverseRecOn with
  | nil => rfl
  | append_singleton ds d ih =>
    rw [ofDeclarations_concat, names_insert, ih, List.map_append, ← Names.addAll_nil,
      ← Names.addAll_nil, Names.addAll_append]
    rfl

/-- Writing a declaration into a table writes it into the graph. -/
theorem entries_insert (g : TypeGraph) (d : Declaration) :
    (g.insert d).entries = Members.insert g.entries d.name d := by
  obtain ⟨trees, hnodup⟩ := g
  simp only [entries, toList, insert, List.map_map]
  clear hnodup
  induction trees with
  | nil => rfl
  | cons e trees ih =>
    by_cases he : e.1 = d.name
    · simp [Members.insert, he]
    · simpa [Members.insert, he] using ih

/-- **A table that names every declaration once more is the same graph.** -/
theorem table_eq (ds : List Declaration) : table ds = (ofDeclarations ds).entries := by
  induction ds using List.reverseRecOn with
  | nil => rfl
  | append_singleton ds d ih =>
    rw [ofDeclarations_concat, entries_insert, ← ih]
    simp [table, Members.ofList, Members.insertMany]

/-- The declarations are those that are read under the names, in the order of the names. -/
theorem map_get?_names (g : TypeGraph) : g.names.map g.get? = g.toList.map some := by
  rw [names, Members.keys, toList, List.map_map, List.map_map]
  refine List.map_congr_left fun e he => ?_
  have htree : g.tree? e.1 = some e.2 := (Members.get?_eq_some_iff_mem g.nodup_names).mpr he
  simp [get?, htree]

theorem same_iff {h : TypeGraph} :
    g.same h = true ↔
      ∀ name, Option.Rel (fun v w => v.same w = true) (g.tree? name) (h.tree? name) :=
  Json.same_obj_iff g.nodup_names h.nodup_names

/-- Graphs of two lists of declarations are the same if the last declarations are, name by
name. -/
theorem same_ofDeclarations_iff {ds es : List Declaration} :
    (ofDeclarations ds).same (ofDeclarations es) = true ↔
      ∀ name, Option.Rel Declaration.Same (last? ds name) (last? es name) := by
  rw [same_iff]
  refine forall_congr' fun name => ?_
  rw [tree?_ofDeclarations, tree?_ofDeclarations]
  rcases hd : last? ds name with - | d <;> rcases he : last? es name with - | e
  · exact ⟨fun _ => .none, fun _ => .none⟩
  · exact ⟨nofun, nofun⟩
  · exact ⟨nofun, nofun⟩
  · have hname : d.name = e.name := (name_of_last? hd).trans (name_of_last? he).symm
    constructor
    · rintro ⟨h⟩
      exact .some ⟨hname, h⟩
    · rintro ⟨h⟩
      exact .some h.2

/-- **What a graph of declarations is**, whichever way it is made: one declaration after
another into an empty graph, or a list of declarations or of names with trees at once.
Each declaration stands under its own name, as it does in a table that is written in the
same way.  The names are distinct, in the order in which they come first; what stands
under one is the last declaration with it, and there is one just if the name is declared.
The declarations come in the order of the names, and there are as many as distinct names.
The graphs of two lists are the same if and only if the last declarations are, name by
name; the order of the lists does not matter. -/
theorem ofDeclarations_represents (ds : List Declaration) :
    let g := ofDeclarations ds
    (ds.foldl insert ∅ = g ∧ ofList (ds.map fun d => (d.name, d.tree)) = g) ∧
    (table ds = g.entries ∧ (table ds).keys = (table ds).map fun e => e.2.name) ∧
    (g.names.Nodup ∧ g.names = (ds.map Declaration.name).eraseDups) ∧
    (∀ name, g.get? name = last? ds name ∧ g.contains name = (g.get? name).isSome ∧
      (g.contains name = true ↔ name ∈ ds.map Declaration.name)) ∧
    (g.toList.map Declaration.name = g.names ∧ g.names.map g.get? = g.toList.map some) ∧
    g.size = (ds.map Declaration.name).toFinset.card ∧
    ∀ es, g.same (ofDeclarations es) = true ↔
      ∀ name, Option.Rel Declaration.Same (last? ds name) (last? es name) := by
  intro g
  have hcontains (name : String) : g.contains name = (g.get? name).isSome := by
    simp [contains, get?, tree?, Members.contains]
  have hnames : g.toList.map Declaration.name = g.names := by
    simp [toList, names, Members.keys, Function.comp_def]
  refine ⟨⟨rfl, ?_⟩, ⟨table_eq ds, ?_⟩, ⟨g.nodup_names, names_ofDeclarations ds⟩,
    fun name => ⟨get?_ofDeclarations ds name, hcontains name, ?_⟩,
    ⟨hnames, g.map_get?_names⟩, ?_, fun es => same_ofDeclarations_iff⟩
  · simp only [ofList, List.map_map, Function.comp_def, List.map_id']
    rfl
  · rw [table_eq, entries, Members.keys, List.map_map, List.map_map]
    rfl
  · rw [hcontains, get?_ofDeclarations]
    exact last?_isSome_iff
  · -- every name is counted once
    have hsize : g.size = g.names.length := (List.length_map _).symm
    have hset : g.names.toFinset = (ds.map Declaration.name).toFinset := by
      ext name
      simp [g, names_ofDeclarations]
    have hnodup : g.names.Nodup := g.nodup_names
    rw [hsize, ← List.toFinset_card_of_nodup hnodup, hset]

/-- A name that comes again keeps its place and takes the new tree. -/
example :
    (ofList [("A", .str "x"), ("B", .null), ("A", .bool true)]).names = ["A", "B"] ∧
      (ofList [("A", .str "x"), ("B", .null), ("A", .bool true)]).tree? "A"
        = some (.bool true) :=
  ⟨rfl, rfl⟩

end TypeGraph

end RamlSchema
