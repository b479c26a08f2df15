/-
RamlSchema/Proofs/Raml/Declarations.lean

What the tree of a declaration has of it.

A facet is in the tree under its key, `schema` under `type`: a base type that is laid
under it does not hide it, whichever comes first, and of facets for the same member the
last one counts (`facet?`).  The properties of a declaration are in the tree under their
names, and a name is the text of a key without the mark that makes the property
optional.  Keys that differ can have the same name; then the last of the properties is
in the tree, and the others are not.

Main results: `get?_of_facet?`, and `properties_kept`, by which the properties of a
declaration are all in its tree exactly if their names are distinct.
-/
import RamlSchema.Proofs.Raml.Moving
import RamlSchema.Proofs.Schema.Layers

namespace RamlSchema

/-- Exactly names that are distinct are as many without repetitions. -/
theorem Names.length_eraseDups_iff {names : List String} :
    names.eraseDups.length = names.length ↔ names.Nodup := by
  constructor
  · intro h
    have hnodup : names.eraseDups.Nodup := by
      rw [← addAll_nil]
      exact nodup_addAll List.nodup_nil names
    have hsub : names.eraseDups ⊆ names := fun _ hn => List.mem_eraseDups.mp hn
    exact ((List.subperm_of_subset hnodup hsub).perm_of_length_le h.ge).nodup hnodup
  · intro h
    rw [eraseDups_of_nodup h]

namespace Raml

open Yaml

variable {path : KeyPath} {name : Option String} {es ps : List (Value × Value)}
  {ms : Members Json} {key : String} {v : Value}

theorem numberData_cases (n : Number) : numberData n = .null ∨ ∃ m, numberData n = .num m := by
  cases n with
  | whole n => exact .inr ⟨_, rfl⟩
  | double x =>
    rw [numberData]
    split
    · exact .inr ⟨_, rfl⟩
    · exact .inl rfl

/-! ### Facets by their members -/

/-- The member that a facet with the key is about. -/
def memberKey (key : String) : String :=
  if key = "schema" then "type" else key

/-- But for the type, a member is that of the facet with its own key. -/
theorem eq_of_memberKey {k : String} (h : memberKey k = key) (hkey : key ≠ "type") : k = key := by
  unfold memberKey at h
  split at h
  · exact absurd h.symm hkey
  · exact h

/-- Whether an entry is a facet for the member. -/
def isFacet (key : String) (e : Value × Value) : Bool :=
  match keyText [] e.1 with
  | .ok k => memberKey k = key
  | .error _ => false

/-- The facet for a member.  Of several the last one counts. -/
def facet? (es : List (Value × Value)) (key : String) : Option Value :=
  (es.reverse.find? (isFacet key)).map Prod.snd

theorem isFacet_iff {e : Value × Value} :
    isFacet key e = true ↔ ∃ k, keyText [] e.1 = .ok k ∧ memberKey k = key := by
  unfold isFacet
  rcases keyText [] e.1 with cause | k <;> simp

theorem facet?_eq_some_iff : facet? es key = some v ↔
    ∃ pre k post, es = pre ++ (k, v) :: post ∧ isFacet key (k, v) = true ∧
      ∀ e ∈ post, isFacet key e = false := by
  simp only [facet?, Option.map_eq_some_iff, List.find?_eq_some_iff_append]
  constructor
  · rintro ⟨⟨k, _⟩, ⟨hk, bs, as, hes, hbs⟩, rfl⟩
    refine ⟨as.reverse, k, bs.reverse, ?_, hk, fun e he => ?_⟩
    · have hrev := congrArg List.reverse hes
      simpa using hrev
    · simpa using hbs e (List.mem_reverse.mp he)
  · rintro ⟨pre, k, post, rfl, hk, hpost⟩
    refine ⟨(k, v), ⟨hk, post.reverse, pre.reverse, by simp, fun e he => ?_⟩, rfl⟩
    simpa using hpost e (List.mem_reverse.mp he)

theorem facet?_eq_none_iff : facet? es key = none ↔ ∀ e ∈ es, isFacet key e = false := by
  simp [facet?]

/-- A facet writes the member that it is about, or it is a base type. -/
theorem readFacet_cases {f : Facet} (h : readFacet path key v = .ok f) :
    (∃ j, f = .write (memberKey key) j) ∨
      memberKey key = "type" ∧ ∃ fs inner, v = .map fs ∧ f = .under inner ∧
        expandFacets (path ++ [key]) [] fs = .ok inner := by
  by_cases hkey : key = "type" ∨ key = "schema"
  · have hmember : memberKey key = "type" := by
      rcases hkey with rfl | rfl <;> rfl
    rw [readFacet, if_pos hkey] at h
    rw [hmember]
    rcases readType_cases h with ⟨s, -, rfl⟩ | ⟨fs, inner, rfl, hinner, rfl⟩ | ⟨j, -, -, rfl⟩
    · exact .inl ⟨_, rfl⟩
    · rw [← expandFacets_eq_expand] at hinner
      exact .inr ⟨rfl, fs, inner, rfl, rfl, hinner⟩
    · exact .inl ⟨j, rfl⟩
  · rw [not_or] at hkey
    rw [memberKey, if_neg hkey.2]
    exact .inl (write_of_readFacet hkey.1 hkey.2 h)

/-- What facets leave as it is: they are about other members, or laid under it. -/
theorem said_some {fs : List Facet} (h : ∀ f ∈ fs, ∀ j, f ≠ .write key j) (i : Json) :
    said fs key (some i) = some i := by
  induction fs with
  | nil => rfl
  | cons f fs ih =>
    obtain ⟨hf, hrest⟩ := List.forall_mem_cons.mp h
    have hread : f.read key (some i) = some i := by
      cases f with
      | write k j =>
        refine if_neg ?_
        rintro rfl
        exact hf j rfl
      | under inner => rfl
    rw [said, List.foldl_cons, hread]
    exact ih hrest

/-- Facets that write nothing under a key, when none of them is a base type. -/
theorem said_none {fs : List Facet} (h : ∀ f ∈ fs, ∃ k j, f = .write k j ∧ k ≠ key)
    (o : Option Json) : said fs key o = o := by
  induction fs with
  | nil => rfl
  | cons f fs ih =>
    obtain ⟨⟨k, j, rfl, hk⟩, hrest⟩ := List.forall_mem_cons.mp h
    rw [said, List.foldl_cons, Facet.read, if_neg hk]
    exact ih hrest

/-- What is there is not touched at the end of a declaration. -/
theorem get?_finished {out : Members Json} {j : Json} (h : out.get? key = some j)
    (name : Option String) : (displayed name (withType out)).get? key = some j := by
  have htyped : (withType out).get? key = some j := by
    rw [get?_withType_eq, h, Option.some_or]
  cases name with
  | none => exact htyped
  | some n => rw [displayed, Members.get?_insertIfNew, htyped, Option.some_or]

/-- **A facet is in the tree** as it is read, unless it is a base type. -/
theorem get?_of_facet? (h : expand name path (.map es) = .ok ms) (hv : facet? es key = some v)
    (hbase : key = "type" → ∀ fs, v ≠ .map fs) :
    ∃ k j, memberKey k = key ∧ readFacet [] k v = .ok (.write key j) ∧ ms.get? key = some j := by
  obtain ⟨pre, k, post, rfl, hk, hpost⟩ := facet?_eq_some_iff.mp hv
  obtain ⟨as, f, bs, -, hf, hbs, rfl⟩ := expand_middle.mp ((expand_eq_ok_iff _ _ _ _).mp h)
  obtain ⟨text, htext, hread⟩ := Except.bind_eq_ok_iff.mp hf
  have hmember : memberKey text = key := by
    obtain ⟨text', htext', hmember⟩ := isFacet_iff.mp hk
    obtain rfl := Except.ok.inj (htext.symm.trans htext')
    exact hmember
  rcases readFacet_cases hread with ⟨j, rfl⟩ | ⟨htype, fs, -, rfl, -⟩
  · -- the facets behind it are about other members
    have hbehind : ∀ f ∈ bs, ∀ i, f ≠ .write key i := by
      rintro _ hf i rfl
      obtain ⟨e, he, hread⟩ := exists_of_mem_mapM hbs hf
      obtain ⟨text', htext', hread⟩ := Except.bind_eq_ok_iff.mp hread
      have hwrites : memberKey text' = key := by
        rcases readFacet_cases hread with ⟨_, heq⟩ | ⟨-, _, _, -, heq, -⟩ <;> cases heq
        rfl
      exact absurd (isFacet_iff.mpr ⟨text', htext', hwrites⟩) (by simp [hpost e he])
    refine ⟨text, j, hmember, hmember ▸ hread, get?_finished ?_ name⟩
    rw [get?_foldl_apply, get?_apply, hmember, Facet.read, if_pos rfl, said_some hbehind]
  · exact absurd rfl (hbase (hmember.symm.trans htype) fs)

/-- No base type is given by a mapping. -/
def Baseless (es : List (Value × Value)) : Prop :=
  ∀ k v, (k, v) ∈ es → GivesType k → ∀ fs, v ≠ .map fs

theorem givesType_iff {k : Value} {text : String} (htext : keyText [] k = .ok text) :
    GivesType k ↔ memberKey text = "type" := by
  rw [GivesType, htext, memberKey]
  split <;> simp_all

/-- A declaration before it is finished has nothing that no facet is about. -/
theorem exists_unfinished (h : expand name path (.map es) = .ok ms) (hbase : Baseless es) :
    ∃ out, ms = displayed name (withType out) ∧
      ∀ key, key ≠ "name" → facet? es key = none → out.get? key = none := by
  have hfacets := (expand_eq_ok_iff _ _ _ _).mp h
  rw [expand_map_eq, Except.map_eq_ok_iff] at hfacets
  obtain ⟨fs, hfs, rfl⟩ := hfacets
  refine ⟨_, rfl, fun key hkey hnone => ?_⟩
  rw [get?_foldl_apply, get?_named name hkey, said_none]
  intro f hf
  obtain ⟨e, he, hread⟩ := exists_of_mem_mapM hfs hf
  obtain ⟨text, htext, hread⟩ := Except.bind_eq_ok_iff.mp hread
  rcases readFacet_cases hread with ⟨j, rfl⟩ | ⟨htype, fs, -, hmap, -⟩
  · refine ⟨memberKey text, j, rfl, fun hmember => ?_⟩
    have hfacet : isFacet key e = true := isFacet_iff.mpr ⟨text, htext, hmember⟩
    exact absurd hfacet (by simp [facet?_eq_none_iff.mp hnone e he])
  · exact absurd hmap (hbase e.1 e.2 he ((givesType_iff htext).mpr htype) fs)

/-- **What no facet is about is not in the tree**, but for names and the type. -/
theorem get?_of_facet?_eq_none (h : expand name path (.map es) = .ok ms) (hbase : Baseless es)
    (hv : facet? es key = none) (hkey : key ∉ ["name", "displayName", "type"]) :
    ms.get? key = none := by
  obtain ⟨hname, hdisplay, htype⟩ : key ≠ "name" ∧ key ≠ "displayName" ∧ key ≠ "type" := by
    simpa using hkey
  obtain ⟨out, rfl, hout⟩ := exists_unfinished h hbase
  rw [get?_displayed name _ hdisplay, get?_withType _ htype, hout key hname hv]

/-- Properties without a type make an object. -/
theorem get?_type_of_facet?_eq_none (h : expand name path (.map es) = .ok ms)
    (hbase : Baseless es) (hv : facet? es "type" = none)
    (hproperties : (ms.get? "properties").isSome) :
    ms.get? "type" = some (candidates "object") := by
  obtain ⟨out, rfl, hout⟩ := exists_unfinished h hbase
  rw [get?_displayed name _ (by decide), get?_withType _ (by decide)] at hproperties
  have hdefault : defaultType out = "object" := if_pos hproperties
  rw [get?_displayed name _ (by decide), get?_withType_eq, hout "type" (by decide) hv, hdefault]
  rfl

/-! ### Trees -/

/-- The members of the trees that come of a declaration, whatever its name and its place;
as a property it carries a flag. -/
inductive TreeOf (v : Value) : Members Json → Prop
  | declaration {name : Option String} {path : KeyPath} {ms : Members Json} :
      expand name path v = .ok ms → TreeOf v ms
  | property {name : Option String} {path : KeyPath} {ms : Members Json} {isOptional : Bool} :
      expand name path v = .ok ms → TreeOf v (flagged isOptional ms)

/-- Nothing but what is required can be different in a property. -/
theorem TreeOf.exists_expand (h : TreeOf v ms) :
    ∃ name path out, expand name path v = .ok out ∧
      (∀ key, key ≠ "required" → ms.get? key = out.get? key) ∧
      (ms.get? "required" = out.get? "required" ∨
        ∃ b, ms.get? "required" = some (.bool b)) := by
  cases h with
  | declaration h => exact ⟨_, _, _, h, fun _ _ => rfl, .inl rfl⟩
  | @property _ _ out isOptional h =>
    exact ⟨_, _, out, h, fun key hkey => get?_flagged isOptional out hkey,
      .inr (exists_get?_flagged isOptional out)⟩

/-- The declarations of a document: those of its sections, and in a declaration its
properties and the mappings that give a type or items. -/
inductive Document.Holds (d : Document) : Value → Prop
  | top {e} : e ∈ d.declarations → Holds d e.2
  | property {es ps p} :
      Holds d (.map es) → HasFacet es "properties" (.map ps) → p ∈ ps → Holds d p.2
  | nested {es key fs} :
      Holds d (.map es) → key ∈ nestingKeys → HasFacet es key (.map fs) → Holds d (.map fs)

theorem HasFacet.plain (h : HasFacet es key v) (hes : Value.Plain (.map es)) : v.Plain := by
  obtain ⟨k, hmem, -⟩ := h
  exact (Value.plain_map_iff.mp hes _ hmem).2

/-- The declarations of a document that is loaded are such, and plain. -/
theorem Document.Holds.declares {d : Document} {g : TypeGraph} (hd : d.Loads g) (h : d.Holds v) :
    Declares v ∧ v.Plain := by
  induction h with
  | top he => exact ⟨hd.accepted.declares _ he, hd.accepted.plain _ he⟩
  | property _ hps hp ih =>
    obtain ⟨ps', heq, hall⟩ := (declares_map_iff.mp ih.1 _ _ hps).properties rfl
    cases heq
    exact ⟨hall _ hp, (Value.plain_map_iff.mp (hps.plain ih.2) _ hp).2⟩
  | nested _ hkey hfs ih =>
    exact ⟨(declares_map_iff.mp ih.1 _ _ hfs).nested hkey _ rfl, hfs.plain ih.2⟩

/-- So all of them have trees. -/
theorem Document.Holds.exists_treeOf {d : Document} {g : TypeGraph} (hd : d.Loads g)
    (h : d.Holds v) : ∃ ms, TreeOf v ms := by
  obtain ⟨ms, hms⟩ := (exists_expand_iff v none []).mpr (h.declares hd)
  exact ⟨ms, .declaration hms⟩

/-- A document that a loader comes to the end of is loaded. -/
theorem Document.loads_of_exec {d : Document} (h : (exec d.declareAll ∅).1 = .ok ()) :
    d.Loads (exec d.declareAll ∅).2 :=
  Prod.ext h rfl

/-- What is declared in a section is in the graph, under the text of its key. -/
theorem Document.Loads.exists_tree {d : Document} {g : TypeGraph} (h : d.Loads g)
    {e : Value × Value} (he : e ∈ d.declarations) : ∃ T ms, keyText [] e.1 = .ok T ∧
      g.tree? T = some (.obj ms) ∧ expand (some T) [] e.2 = .ok ms := by
  obtain ⟨i, hi, rfl⟩ := List.getElem_of_mem he
  have hread := mapM_eq_ok_iff.mp (Document.loads_iff.mp h).2
  have hi' : i < g.trees.length := hread.length_eq ▸ hi
  obtain ⟨hname, ms, hms, htree⟩ := readDeclaration_eq_ok_iff.mp (hread.get hi hi')
  refine ⟨_, ms, hname, ?_, hms⟩
  rw [TypeGraph.tree?, Members.get?_eq_some_iff_mem g.nodup_names, ← htree]
  exact List.get_mem g.trees ⟨i, hi'⟩

/-! ### Properties -/

/-- The texts of the keys of a mapping. -/
def keyTexts (es : List (Value × Value)) : List String :=
  es.filterMap fun e => (keyText [] e.1).toOption

/-- The names of properties, without the marks that make them optional. -/
def propertyNames (ps : List (Value × Value)) : List String :=
  (keyTexts ps).map fun key => (propertyName key).1

theorem keyTexts_cons {e : Value × Value} {text : String} (h : keyText [] e.1 = .ok text) :
    keyTexts (e :: es) = text :: keyTexts es := by
  simp [keyTexts, h, Except.toOption]

/-- What is read of properties has their names. -/
theorem keys_of_readProperties {entries : Members Json}
    (h : List.Forall₂ (fun p q => readProperty path p = .ok q) ps entries) :
    Members.keys entries = propertyNames ps := by
  induction h with
  | nil => rfl
  | @cons p q ps entries hpq _ ih =>
    obtain ⟨text, htext, hread⟩ := Except.bind_eq_ok_iff.mp hpq
    obtain ⟨facets, -, hread⟩ := Except.bind_eq_ok_iff.mp hread
    cases hread
    rw [propertyNames, keyTexts_cons (keyText_eq_ok_iff.mp htext), List.map_cons, ← propertyNames,
      ← ih]
    rfl

/-- The tree of a declaration has its properties, as they are read. -/
theorem TreeOf.properties (h : TreeOf (.map es) ms)
    (hps : facet? es "properties" = some (.map ps)) :
    ∃ entries, List.Forall₂ (fun p q => readProperty ["properties"] p = .ok q) ps entries ∧
      ms.get? "properties" = some (.obj (Members.ofList entries)) := by
  obtain ⟨name, path, out, hout, hget, -⟩ := h.exists_expand
  obtain ⟨k, j, hmember, hread, hj⟩ := get?_of_facet? hout hps (by simp)
  obtain rfl := eq_of_memberKey hmember (by decide)
  rw [hget "properties" (by decide), hj]
  obtain ⟨qs, hqs, heq⟩ := Except.map_eq_ok_iff.mp hread
  cases heq
  rw [expandProperties, expandEntries_eq, Except.map_eq_ok_iff] at hqs
  obtain ⟨entries, hentries, rfl⟩ := hqs
  exact ⟨entries, mapM_eq_ok_iff.mp hentries, rfl⟩

/-- **Properties are kept exactly if their names are distinct.**  Each declaration of a
document that is loaded has a tree, and there its properties stand under their names, in
the order in which these come first.  So there are as many of them in the tree as in the
declaration if and only if no two keys have the same name; and then each of them is what
is read of it. -/
theorem properties_kept {d : Document} {g : TypeGraph} (hd : d.Loads g) (h : d.Holds (.map es))
    (hps : facet? es "properties" = some (.map ps)) :
    (∃ ms, TreeOf (.map es) ms) ∧
      ∀ ms, TreeOf (.map es) ms → ∃ qs : Members Json,
        ms.get? "properties" = some (.obj qs) ∧
        Members.keys qs = (propertyNames ps).eraseDups ∧
        (qs.length = ps.length ↔ (propertyNames ps).Nodup) ∧
        ((propertyNames ps).Nodup →
          List.Forall₂ (fun p q => readProperty ["properties"] p = .ok q) ps qs) := by
  refine ⟨h.exists_treeOf hd, fun ms htree => ?_⟩
  obtain ⟨entries, hentries, hget⟩ := htree.properties hps
  have hnames := keys_of_readProperties hentries
  have hkeys : Members.keys (Members.ofList entries) = (propertyNames ps).eraseDups := by
    rw [Members.ofList, Members.keys_insertMany, hnames, ← Names.addAll_nil]
    rfl
  have hlength : (propertyNames ps).length = ps.length := by
    rw [← hnames, Members.keys, List.length_map, hentries.length_eq]
  refine ⟨_, hget, hkeys, ?_, fun hnodup => ?_⟩
  · rw [← Names.length_eraseDups_iff, ← hkeys, hlength, Members.keys, List.length_map]
  · rw [Members.ofList_of_nodup (hnames ▸ hnodup)]
    exact hentries

/-- The properties of the labels on a card; one of them is optional. -/
def labelProperties : List (Value × Value) :=
  [(.str "text?", .null), (.num (.whole 1), .str "integer"), (.bool true, .str "Card")]

/-- Cards with labels: the properties of the labels are below those of the cards. -/
def cardDocument : Document where
  entries :=
    [(.str "types", .map
      [(.str "Card", .map
        [(.str "properties", .map
          [(.str "labels", .map
            [(.str "items", .map [(.str "properties", .map labelProperties)])])])])])]

theorem cardDocument_holds :
    cardDocument.Holds (.map [(.str "properties", .map labelProperties)]) := by
  have hcard := Document.Holds.top (d := cardDocument) (e := (.str "Card", _)) (.head _)
  have hlabels := hcard.property ⟨.str "properties", .head _, rfl⟩ (.head _)
  exact hlabels.nested (by decide : "items" ∈ nestingKeys) ⟨.str "items", .head _, rfl⟩

theorem properties_kept_card : ∃ g, cardDocument.Loads g ∧
    cardDocument.Holds (.map [(.str "properties", .map labelProperties)]) ∧
    ∃ ms qs, TreeOf (.map [(.str "properties", .map labelProperties)]) ms ∧
      ms.get? "properties" = some (.obj qs) ∧ Members.keys qs = ["text", "1", "true"] := by
  have hloads := cardDocument.loads_of_exec (by decide +kernel)
  obtain ⟨⟨ms, hms⟩, hkept⟩ := properties_kept hloads cardDocument_holds rfl
  obtain ⟨qs, hqs, hkeys, -⟩ := hkept ms hms
  exact ⟨_, hloads, cardDocument_holds, ms, qs, hms, hqs, hkeys⟩

/-- Two keys with the same text. -/
def sameKeys : List (Value × Value) :=
  [(.num (.whole 1), .str "string"), (.str "1", .str "integer")]

/-- As types, two keys with the same text are refused; as properties they become one. -/
theorem properties_merged :
    (∀ g, ¬ Document.Loads ⟨[(.str "types", .map sameKeys)]⟩ g) ∧
    ∃ d g, Document.Loads d g ∧ d.Holds (.map [(.str "properties", .map sameKeys)]) ∧
      ∀ ms, TreeOf (.map [(.str "properties", .map sameKeys)]) ms → ∃ q,
        ms.get? "properties" = some (.obj [("1", q)]) := by
  refine ⟨fun g hg => ?_, ?_⟩
  · have hnodup := hg.accepted.nodup_names
    exact absurd hnodup (by decide)
  · let d : Document :=
      ⟨[(.str "types", .map [(.str "Card", .map [(.str "properties", .map sameKeys)])])]⟩
    have hloads := d.loads_of_exec (by decide +kernel)
    refine ⟨d, _, hloads, .top (e := (.str "Card", _)) (.head _), fun ms hms => ?_⟩
    obtain ⟨entries, hentries, hget⟩ := hms.properties rfl
    have hnames := keys_of_readProperties hentries
    match entries, hnames with
    | [(_, _), (_, q)], rfl => exact ⟨q, hget⟩

end Raml

end RamlSchema
