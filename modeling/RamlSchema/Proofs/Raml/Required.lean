/-
RamlSchema/Proofs/Raml/Required.lean

What is required of an object, from its declaration to its schema.

A property carries a flag in the tree: what it says itself, or else that its key has no
mark (`flag_of_expand`).  The conversion of the object collects the flags of its
properties, behind the names that it lists itself.  So if it lists none, and nothing of
its type is looked up elsewhere, its schema requires exactly the properties that the
document makes required, in their order (`DeclaresObject.requiredNames`).  No base type
may be written inside the object or a property: what is laid under a declaration could
say what is required.

Main result: `required_of_properties`.
-/
import RamlSchema.Proofs.Normalize.Meaning
import RamlSchema.Proofs.Normalize.Provenance
import RamlSchema.Proofs.Raml.Declarations

namespace RamlSchema

variable {g : TypeGraph} {o : Options}

/-- Tasks that are performed to the end are those of a node that passes its checks. -/
theorem Performs.sound {k : Nat} {l : Location} {n : NodeShape} {p p' : Progress}
    {done : List (Step × SchemaNode)} (h : Performs g o k l (n.tasks g l) p (.ok done) p') :
    n.Sound g := by
  suffices hall : ∀ ts p done, Performs g o k l ts p (.ok done) p' → ∀ e, .fail e ∉ ts from
    NodeShape.sound_iff.mpr (hall _ p done h)
  intro ts
  induction ts with
  | nil => simp
  | cons t ts ih =>
    intro p done h e he
    cases h with
    | report hts => exact ih _ _ hts e (by simpa using he)
    | convert _ hts => exact ih _ _ hts e (by simpa using he)

namespace Raml

open Yaml

variable {path : KeyPath} {name : Option String} {es ps : List (Value × Value)}
  {ms : Members Json} {key : String} {v : Value}

/-! ### Flags -/

/-- What a property says itself about whether it is required. -/
def ownFlag : Value → Option Bool
  | .map fs =>
    match facet? fs "required" with
    | some (.bool b) => some b
    | _ => none
  | _ => none

/-- Whether a property is required: what it says itself, or else that its key has no
mark. -/
def isRequired (key : String) (v : Value) : Bool :=
  (ownFlag v).getD !(propertyName key).2

/-- The name of a property that is required. -/
def requiredName? (p : Value × Value) : Option String :=
  match keyText [] p.1 with
  | .ok key => if isRequired key p.2 then some (propertyName key).1 else none
  | .error _ => none

/-- The names of the properties that are required, in their order. -/
def requiredProperties (ps : List (Value × Value)) : List String :=
  ps.filterMap requiredName?

/-- Only a truth value is data that is one. -/
theorem eq_bool_of_data {b : Bool} (h : data path v = .ok (.bool b)) : v = .bool b := by
  cases v with
  | bool b' =>
    cases h
    rfl
  | num n => rcases numberData_cases n with hn | ⟨m, hn⟩ <;> simp [data, hn] at h
  | seq xs =>
    obtain ⟨js, -, hjs⟩ := Except.map_eq_ok_iff.mp h
    cases hjs
  | map fs =>
    obtain ⟨js, -, hjs⟩ := Except.map_eq_ok_iff.mp h
    cases hjs
  | _ => cases h

/-- Only a list is data that is one. -/
theorem exists_seq_of_data {js : List Json} (h : data path v = .ok (.arr js)) :
    ∃ xs, v = .seq xs := by
  cases v with
  | seq xs => exact ⟨xs, rfl⟩
  | num n => rcases numberData_cases n with hn | ⟨m, hn⟩ <;> simp [data, hn] at h
  | map fs =>
    obtain ⟨js, -, hjs⟩ := Except.map_eq_ok_iff.mp h
    cases hjs
  | _ => cases h

/-- **The flag of a property** is what it says itself, or else what its key says. -/
theorem flag_of_expand (h : expand name path v = .ok ms) (hbase : ∀ fs, v = .map fs → Baseless fs)
    (isOptional : Bool) :
    flag isOptional (ms.get? "required") = .bool ((ownFlag v).getD !isOptional) := by
  cases v with
  | map fs =>
    rcases hfacet : facet? fs "required" with - | w
    · rw [get?_of_facet?_eq_none h (hbase fs rfl) hfacet (by decide), ownFlag, hfacet]
      rfl
    · obtain ⟨k, j, hk, hread, hj⟩ := get?_of_facet? h hfacet (by simp)
      obtain rfl := eq_of_memberKey hk (by decide)
      have hdata := data_of_readFacet_required hread
      rw [hj, ownFlag, hfacet]
      by_cases hbool : ∃ b, w = .bool b
      · obtain ⟨b, rfl⟩ := hbool
        cases hdata
        rfl
      · -- what is no truth value does not count
        have hj : ∀ b, j ≠ .bool b := by
          rintro b rfl
          exact hbool ⟨b, eq_bool_of_data hdata⟩
        cases w <;> cases j <;> simp_all [flag]
  | str s =>
    cases h
    rw [get?_displayed name _ (by decide), Members.get?_insert_of_ne _ _ (by decide),
      get?_named name (by decide)]
    rfl
  | null =>
    cases h
    rw [get?_displayed name _ (by decide), Members.get?_insert_of_ne _ _ (by decide),
      get?_named name (by decide)]
    rfl
  | _ => cases h

theorem isFlagged_of_readProperty {p : Value × Value} {q : String × Json}
    (h : readProperty path p = .ok q) (hbase : ∀ fs, p.2 = .map fs → Baseless fs) :
    requiredName? p = if NodeShape.isFlagged q.2 then some q.1 else none := by
  obtain ⟨key, hkey, hread⟩ := Except.bind_eq_ok_iff.mp h
  obtain ⟨facets, hfacets, hread⟩ := Except.bind_eq_ok_iff.mp hread
  cases hread
  have hflag : NodeShape.isFlagged (.obj (flagged (propertyName key).2 facets))
      = isRequired key p.2 := by
    show decide (((flagged _ facets).get? "required").bind Json.bool? = some true) = _
    rw [get?_flagged_required, flag_of_expand hfacets hbase]
    simp [Json.bool?, isRequired]
  rw [requiredName?, keyText_eq_ok_iff.mp hkey, hflag]

/-- Properties are flagged as the document says. -/
theorem flagged_of_readProperties {entries : Members Json}
    (h : List.Forall₂ (fun p q => readProperty path p = .ok q) ps entries)
    (hbase : ∀ p ∈ ps, ∀ fs, p.2 = .map fs → Baseless fs) :
    NodeShape.flagged entries = requiredProperties ps := by
  induction h with
  | nil => rfl
  | @cons p q ps entries hpq _ ih =>
    obtain ⟨hfirst, hrest⟩ := List.forall_mem_cons.mp hbase
    have hentries := ih hrest
    rw [requiredProperties, List.filterMap_cons, isFlagged_of_readProperty hpq hfirst]
    rw [NodeShape.flagged, List.filter_cons]
    by_cases hq : NodeShape.isFlagged q.2 = true
    · rw [if_pos hq, if_pos hq]
      exact congrArg (q.1 :: ·) hentries
    · rw [if_neg hq, if_neg hq]
      exact hentries

/-! ### Objects -/

/-- A type that is `object`, or none. -/
inductive MeansObject : Value → Prop
  | null : MeansObject .null
  | str {s : String} : Text.trim s = "object" → MeansObject (.str s)
  | seq {s : String} {xs : List Value} :
      Text.trim s = "object" → MeansObject (.seq (.str s :: xs))

/-- A declaration of an object by its properties: neither it nor a property has a base
type in it, the names of the properties are distinct, and it does not list required
names itself. -/
structure DeclaresObject (es ps : List (Value × Value)) : Prop where
  properties : facet? es "properties" = some (.map ps)
  type : ∀ v, facet? es "type" = some v → MeansObject v
  required : ∀ xs, facet? es "required" ≠ some (.seq xs)
  baseless : Baseless es
  distinct : (propertyNames ps).Nodup
  properties_baseless : ∀ p ∈ ps, ∀ fs, p.2 = .map fs → Baseless fs

theorem MeansObject.typeText {k : String} {j : Json} (hv : MeansObject v)
    (hk : memberKey k = "type") (h : readFacet path k v = .ok (.write "type" j)) :
    NodeShape.typeText (some j) = .ok none ∨ NodeShape.typeText (some j) = .ok (some "object") := by
  have hkey : k = "type" ∨ k = "schema" := by
    by_contra hne
    rw [not_or] at hne
    rw [memberKey, if_neg hne.2] at hk
    exact hne.1 hk
  have hobject : ∀ s, Text.trim s = "object" → NodeShape.nonblank s = .ok "object" := by
    intro s hs
    simp [NodeShape.nonblank, hs]
  rw [readFacet, if_pos hkey] at h
  cases hv with
  | null =>
    cases h
    exact .inl rfl
  | str hs =>
    cases h
    right
    simp [candidates, NodeShape.typeText, hobject _ hs, Except.map]
  | @seq s xs hs =>
    obtain ⟨j', hj', heq⟩ := Except.map_eq_ok_iff.mp h
    cases heq
    obtain ⟨js, hjs, rfl⟩ := Except.map_eq_ok_iff.mp hj'
    rw [dataItems_eq, List.mapM_cons] at hjs
    obtain ⟨_, hfirst, hjs⟩ := Except.bind_eq_ok_iff.mp hjs
    obtain ⟨js', -, heq⟩ := Except.bind_eq_ok_iff.mp hjs
    cases hfirst
    cases heq
    right
    simp [NodeShape.typeText, hobject _ hs, Except.map]

section

variable {n : NodeShape} (h : DeclaresObject es ps) (htree : TreeOf (.map es) ms)
  (hn : NodeShape.ofJson (.obj ms) = .ok n)

include h htree hn

theorem DeclaresObject.members : ∃ entries,
    List.Forall₂ (fun p q => readProperty ["properties"] p = .ok q) ps entries ∧
      n.properties = some entries := by
  obtain ⟨entries, hentries, hget⟩ := htree.properties h.properties
  obtain ⟨-, hproperties, -⟩ := NodeShape.ofJson_obj_iff.mp hn
  rw [hget, Members.ofList_of_nodup (keys_of_readProperties hentries ▸ h.distinct)] at hproperties
  exact ⟨entries, hentries, (Except.ok.inj hproperties).symm⟩

/-- Its single type is `object`. -/
theorem DeclaresObject.typeName? : n.typeName? = some "object" := by
  obtain ⟨entries, -, hproperties⟩ := h.members htree hn
  obtain ⟨-, -, text, htext, htype⟩ := NodeShape.ofJson_obj_iff.mp hn
  have htext' : text = none ∨ text = some "object" := by
    obtain ⟨name, path, out, hout, hget, -⟩ := htree.exists_expand
    rw [hget "type" (by decide)] at htext
    rcases hfacet : facet? es "type" with - | v
    · have hsome : (out.get? "properties").isSome := by
        obtain ⟨_, -, hps⟩ := htree.properties h.properties
        rw [← hget "properties" (by decide), hps]
        rfl
      rw [get?_type_of_facet?_eq_none hout h.baseless hfacet hsome] at htext
      exact .inr (Except.ok.inj htext).symm
    · obtain ⟨k, j, hk, hread, hj⟩ := get?_of_facet? hout hfacet fun _ fs hv => by
        cases hv ▸ h.type v hfacet
      rw [hj] at htext
      exact ((h.type v hfacet).typeText hk hread).imp
        (fun he => Except.ok.inj (htext.symm.trans he))
        fun he => Except.ok.inj (htext.symm.trans he)
  have hnamed : n.type = some (.named "object") := by
    have hobject : NodeShape.typeOf "object" = .ok (.named "object") := rfl
    rcases htext' with rfl | rfl <;>
      simpa [hproperties, hobject, Except.map, eq_comm] using htype
  rw [NodeShape.typeName?, NodeShape.schemaType, hnamed]
  rfl

/-- It lists no names. -/
theorem DeclaresObject.listed {names : List String}
    (hlisted : NodeShape.listed (n.members.get? "required") = .ok names) : names = [] := by
  obtain ⟨hmembers, -⟩ := NodeShape.ofJson_obj_iff.mp hn
  obtain ⟨name, path, out, hout, -, hrequired⟩ := htree.exists_expand
  rw [hmembers] at hlisted
  rcases hrequired with hrequired | ⟨b, hb⟩
  · rw [hrequired] at hlisted
    rcases hfacet : facet? es "required" with - | v
    · rw [get?_of_facet?_eq_none hout h.baseless hfacet (by decide)] at hlisted
      exact (Except.ok.inj hlisted).symm
    · obtain ⟨k, j, hk, hread, hj⟩ := get?_of_facet? hout hfacet (by simp)
      obtain rfl := eq_of_memberKey hk (by decide)
      have hdata := data_of_readFacet_required hread
      rw [hj] at hlisted
      cases j with
      | arr js =>
        obtain ⟨xs, rfl⟩ := exists_seq_of_data hdata
        exact absurd hfacet (h.required xs)
      | null => exact (Except.ok.inj hlisted).symm
      | bool b => exact (Except.ok.inj hlisted).symm
      | _ => cases hlisted
  · rw [hb] at hlisted
    exact (Except.ok.inj hlisted).symm

/-- **What it requires** are the properties that the document makes required. -/
theorem DeclaresObject.requiredNames (hsound : n.Sound g) :
    n.requiredNames = requiredProperties ps := by
  obtain ⟨entries, hentries, hproperties⟩ := h.members htree hn
  obtain ⟨names, hlisted, -⟩ := Except.map_eq_ok_iff.mp hsound.required
  obtain rfl := h.listed htree hn hlisted
  have hnodup : (NodeShape.flagged entries).Nodup :=
    NodeShape.nodup_flagged (keys_of_readProperties hentries ▸ h.distinct)
  simp only [NodeShape.requiredNames, hlisted, hproperties, Option.getD_some]
  rw [Names.addAll_nil, Names.eraseDups_of_nodup hnodup,
    flagged_of_readProperties hentries h.properties_baseless]

/-- Nothing is put in its place. -/
theorem DeclaresObject.declared? (hobject : "object" ∉ g.names) : n.declared? g = none := by
  rcases hdeclared : n.declared? g with - | T
  · rfl
  · obtain ⟨hname, hT⟩ := NodeShape.declared?_eq_some_iff.mp hdeclared
    cases hname.symm.trans (h.typeName? htree hn)
    exact absurd hT hobject

end

/-! ### From the document to the schema -/

section

variable {n : SchemaNode} {p p' : Progress} {k : Nat} {l : Location} (h : DeclaresObject es ps)
  (hobject : "object" ∉ g.names) (htree : TreeOf (.map es) ms)

include h hobject htree

theorem DeclaresObject.required_of_converts
    (hn : Converts g o k (.node (.obj ms)) l p (.ok n) p') :
    n.required = SchemaNode.named (requiredProperties ps) := by
  cases hn with
  | plain hshape htasks _ =>
    rw [← h.requiredNames htree hshape htasks.sound]
    rfl
  | cycle hshape _ hT _ _ =>
    rw [h.declared? htree hshape hobject] at hT
    cases hT
  | inlined hshape _ hT _ _ =>
    rw [h.declared? htree hshape hobject] at hT
    cases hT

theorem DeclaresObject.required_of_renders {base : String → SchemaNode → Prop}
    (hn : Renders g base (.node (.obj ms)) n) :
    n.required = SchemaNode.named (requiredProperties ps) := by
  cases hn with
  | plain hshape hsound _ _ =>
    rw [← h.requiredNames htree hshape hsound]
    rfl
  | reference hshape _ _ hT _ =>
    rw [h.declared? htree hshape hobject] at hT
    cases hT

end

/-- **A schema requires what its document does.**  In a document that is loaded, let a
declaration, at whatever depth, be one of an object by its properties, and let no type
have the name `object`.  It has a tree, and whenever and wherever its tree is converted
without a failure, the names required are those of the properties that are required in
the document, in their order; where there are none, nothing is said about it.  The same
goes for a type with this tree that is done at any time of a session. -/
theorem required_of_properties {d : Document} (hd : d.Loads g) (hes : d.Holds (.map es))
    (h : DeclaresObject es ps) (hobject : "object" ∉ g.names) :
    (∃ ms, TreeOf (.map es) ms) ∧ ∀ ms, TreeOf (.map es) ms →
      (∀ (o : Options) (k : Nat) (l : Location) (p p' : Progress) (n : SchemaNode),
        exec (visit g o k (.obj ms) l) p = (.ok n, p') →
          n.required = SchemaNode.named (requiredProperties ps)) ∧
      ∀ (o : Options) (p : Progress) (T : String) (n : SchemaNode),
        p.Reachable g o → g.tree? T = some (.obj ms) → p.definition? T = some n →
          n.required = SchemaNode.named (requiredProperties ps) := by
  refine ⟨hes.exists_treeOf hd, fun ms htree => ⟨?_, ?_⟩⟩
  · intro o k l p p' n hvisit
    have hconverts : Converts g o k (.node (.obj ms)) l p (.ok n) p' := converts_iff.mpr hvisit
    exact h.required_of_converts hobject htree hconverts
  · intro o p T n hp htreeT hdef
    obtain ⟨tree, htree', hrenders⟩ := hp.idle.valid.renders hdef
    obtain rfl := Option.some.inj (htreeT.symm.trans htree')
    exact h.required_of_renders hobject htree hrenders

/-- Properties with and without marks, of which some say themselves what they are. -/
def bookProperties : List (Value × Value) :=
  [(.str "title", .null),
    (.str "pages?", .map [(.str "required", .bool true), (.str "type", .str "integer")]),
    (.str "price", .map [(.str "required", .bool false), (.str "type", .str "number")]),
    (.str "isbn?", .str "string"),
    (.str "author", .map [(.str "required", .str "yes")])]

/-- An object with these properties. -/
def bookFacets : List (Value × Value) :=
  [(.str "properties", .map bookProperties), (.str "schema", .str " object ")]

/-- Books, once by themselves and once on a shelf. -/
def bookDocument : Document where
  entries :=
    [(.str "types", .map
      [(.str "Shelf", .map [(.str "items", .map bookFacets)]),
        (.str "Book", .map bookFacets)])]

theorem declaresObject_book : DeclaresObject bookFacets bookProperties where
  properties := rfl
  type v hv := by
    obtain rfl := Option.some.inj hv
    exact .str (by decide)
  required xs := nofun
  baseless k v hmem hk fs := by
    rintro rfl
    simp_all [bookFacets, GivesType, keyText]
  distinct := by decide
  properties_baseless p hp fs hfs k v hmem hk fs' := by
    rintro rfl
    simp only [bookProperties, List.mem_cons, List.not_mem_nil, or_false] at hp
    rcases hp with rfl | rfl | rfl | rfl | rfl <;> cases hfs <;> simp at hmem

/-- The tree of a book is converted as it stands on a shelf, in the state at the end, in
which books are done. -/
theorem required_of_properties_book :
    let g := (exec bookDocument.declareAll ∅).2
    let p := (converted g {}).1
    bookDocument.Loads g ∧ "object" ∉ g.names ∧ bookDocument.Holds (.map bookFacets) ∧
      ∃ ms, TreeOf (.map bookFacets) ms ∧ (∃ n p',
          exec (visit g {} 2 (.obj ms) ⟨"Shelf", ["items"]⟩) p = (.ok n, p') ∧
          n.required = some ["title", "pages", "author"]) ∧
        ∃ n, g.tree? "Book" = some (.obj ms) ∧ p.definition? "Book" = some n ∧
          n.required = some ["title", "pages", "author"] := by
  intro g p
  have hloads : bookDocument.Loads g := Document.loads_of_exec (by decide +kernel)
  have hobject : "object" ∉ g.names := by decide +kernel
  have hshelf := Document.Holds.top (d := bookDocument) (e := (.str "Shelf", _)) (.head _)
  have hbook : bookDocument.Holds (.map bookFacets) :=
    hshelf.nested (by decide : "items" ∈ nestingKeys) ⟨.str "items", .head _, rfl⟩
  obtain ⟨T, ms, hT, htree, hms⟩ := hloads.exists_tree (e := (.str "Book", _)) (.tail _ (.head _))
  cases hT
  obtain ⟨hvisit, hdefinition⟩ := (required_of_properties hloads hbook declaresObject_book
    hobject).2 ms (.declaration hms)
  -- both conversions come to their end
  obtain ⟨n, hn⟩ : ∃ n, p.definition? "Book" = some n :=
    Option.isSome_iff_exists.mp (by decide +kernel)
  have hexec : (exec (visit g {} 2 (.obj ms) ⟨"Shelf", ["items"]⟩) p).1.isOk = true := by
    have hbook : expand (some "Book") [] (.map bookFacets) = .ok _ := rfl
    cases hbook.symm.trans hms
    decide +kernel
  rcases hr : exec (visit g {} 2 (.obj ms) ⟨"Shelf", ["items"]⟩) p with ⟨e | n', p'⟩
  · rw [hr] at hexec
    cases hexec
  · exact ⟨hloads, hobject, hbook, ms, .declaration hms, ⟨n', p', hr, hvisit _ _ _ _ _ _ hr⟩, n,
      htree, hn, hdefinition {} p "Book" n (reachable_converted g {}) htree hn⟩

end Raml

end RamlSchema
