/-
RamlSchema/Proofs/Raml/Reordering.lean

Declarations whose mappings are written in another order.

Facets are read one by one, and what they say is applied in their order.  Facets for
different members commute: each writes a member of its own, and a base type is laid under
what is written, before or after it (`Facet.read_comm`).  So where the facets of a
mapping are for different members, only what they say counts, and that is the same, up to
orders, for values that are the same up to orders.  What a declaration gets at its end,
a type and a name to display, depends on which members there are.  The same goes for
properties, of which each has a name of its own, and for plain data.

Main result: `expand_reordered`.
-/
import RamlSchema.Proofs.Raml.Declarations
import RamlSchema.Proofs.Raml.WellFormed

namespace RamlSchema

/-! ### Trees -/

namespace Json

/-- The same value but for the order of keys, at any depth. -/
inductive Reordered : Json → Json → Prop
  | null : Reordered .null .null
  | bool {b : Bool} : Reordered (.bool b) (.bool b)
  | num {n : Number} : Reordered (.num n) (.num n)
  | str {s : String} : Reordered (.str s) (.str s)
  | arr {js js' : List Json} : List.Forall₂ Reordered js js' → Reordered (.arr js) (.arr js')
  | obj {ms ms' : Members Json} : (Members.keys ms).Perm (Members.keys ms') →
      (∀ key j j', ms.get? key = some j → ms'.get? key = some j' → Reordered j j') →
      Reordered (.obj ms) (.obj ms')

/-- Members that read the same but for orders. -/
def ReadAlike (ms ms' : Members Json) : Prop :=
  ∀ key, Option.Rel Reordered (ms.get? key) (ms'.get? key)

/-- Members without repeated keys that are the same but for orders. -/
structure AlikeMembers (ms ms' : Members Json) : Prop where
  nodup : ms.keys.Nodup
  nodup' : ms'.keys.Nodup
  read : ReadAlike ms ms'

variable {ms ms' entries entries' mid : Members Json}

theorem ReadAlike.contains_eq (h : ReadAlike ms ms') (key : String) :
    ms.contains key = ms'.contains key := by
  rw [Members.contains, Members.contains]
  rcases SchemaNode.cases_of_rel (h key) with ⟨hj, hj'⟩ | ⟨j, j', hj, hj', -⟩ <;> rw [hj, hj']
  rfl

/-- A member that both have unless they have it already. -/
theorem ReadAlike.insertIfNew (h : ReadAlike ms ms') (key : String) {j : Json}
    (hj : j.Reordered j) : ReadAlike (ms.insertIfNew key j) (ms'.insertIfNew key j) := by
  intro key'
  rw [Members.get?_insertIfNew, Members.get?_insertIfNew]
  rcases SchemaNode.cases_of_rel (h key') with ⟨hi, hi'⟩ | ⟨i, i', hi, hi', hii'⟩ <;> rw [hi, hi']
  · simp only [Option.none_or]
    split
    · exact .some hj
    · exact .none
  · exact .some hii'

theorem AlikeMembers.reordered (h : AlikeMembers ms ms') : Reordered (.obj ms) (.obj ms') := by
  refine .obj ((List.perm_ext_iff_of_nodup h.nodup h.nodup').mpr fun key => ?_)
    fun key j j' hj hj' => ?_
  · rw [← Members.contains_iff_mem_keys, ← Members.contains_iff_mem_keys, h.read.contains_eq]
  · have hrel := h.read key
    rw [hj, hj'] at hrel
    cases hrel with
    | some hjj' => exact hjj'

/-- Members under distinct keys, in any order. -/
theorem alikeMembers_ofList (hperm : entries.Perm mid)
    (h : List.Forall₂ (Labelled Reordered) mid entries') (hnodup : entries.keys.Nodup) :
    AlikeMembers (Members.ofList entries) (Members.ofList entries') := by
  have hkeys : entries'.keys = mid.keys := by
    clear hperm
    induction h with
    | nil => rfl
    | cons hm _ ih => simp only [Members.keys, List.map_cons, hm.1] at ih ⊢; rw [ih]
  have hnodup' : entries'.keys.Nodup := hkeys ▸ (hperm.map Prod.fst).nodup hnodup
  rw [Members.ofList_of_nodup hnodup, Members.ofList_of_nodup hnodup']
  refine ⟨hnodup, hnodup', fun key => ?_⟩
  rw [Members.get?_perm hperm hnodup]
  exact Members.get?_related h key

end Json

/-! ### Values in another order -/

namespace Yaml.Value

/-- The same value but for the order of entries in mappings, at any depth. -/
inductive Reordered : Value → Value → Prop
  | null : Reordered .null .null
  | bool {b : Bool} : Reordered (.bool b) (.bool b)
  | num {n : Number} : Reordered (.num n) (.num n)
  | str {s : String} : Reordered (.str s) (.str s)
  | seq {xs ys : List Value} : List.Forall₂ Reordered xs ys → Reordered (.seq xs) (.seq ys)
  | map {es fs gs : List (Value × Value)} : es.Perm fs →
      List.Forall₂ Reordered (fs.map Prod.fst) (gs.map Prod.fst) →
      List.Forall₂ Reordered (fs.map Prod.snd) (gs.map Prod.snd) → Reordered (.map es) (.map gs)
  | tagged {tag : String} {v w : Value} : Reordered v w → Reordered (.tagged tag v) (.tagged tag w)

/-- Two entries of which the keys are the same but for orders, and so are the values. -/
def ReorderedEntry (f g : Value × Value) : Prop :=
  f.1.Reordered g.1 ∧ f.2.Reordered g.2

theorem reordered_map_iff {es gs : List (Value × Value)} : Reordered (.map es) (.map gs) ↔
    ∃ fs, es.Perm fs ∧ List.Forall₂ ReorderedEntry fs gs := by
  constructor
  · rintro ⟨⟩
    rename_i fs hperm hkeys hvalues
    rw [List.forall₂_map_left_iff, List.forall₂_map_right_iff] at hkeys hvalues
    exact ⟨fs, hperm, List.Forall₂.mp (fun _ _ => And.intro) hkeys hvalues⟩
  · rintro ⟨fs, hperm, h⟩
    refine .map hperm ?_ ?_ <;> rw [List.forall₂_map_left_iff, List.forall₂_map_right_iff]
    · exact h.imp fun _ _ => And.left
    · exact h.imp fun _ _ => And.right

end Yaml.Value

namespace Raml

open Yaml

variable {path : KeyPath} {name : Option String} {es gs : List (Value × Value)}
  {ms ms' : Members Json} {key : String} {v v' : Value}

theorem keyText_reordered (h : v.Reordered v') : keyText path v = keyText path v' := by
  cases h <;> rfl

/-- What is read of entries, one by one, in another order. -/
theorem mapM_reordered {β : Type} {S : β → β → Prop} {read : Value × Value → Except Error β}
    (h : Value.Reordered (.map es) (.map gs))
    (hread : ∀ e ∈ es, ∀ g, Value.ReorderedEntry e g → Except.Rel S (read e) (read g)) :
    Except.Rel (fun as bs => ∃ cs, as.Perm cs ∧ List.Forall₂ S cs bs) (es.mapM read)
      (gs.mapM read) := by
  obtain ⟨fs, hperm, hentries⟩ := Value.reordered_map_iff.mp h
  have hfs : ∀ f ∈ fs, ∀ g, Value.ReorderedEntry f g → Except.Rel S (read f) (read g) :=
    fun f hf => hread f (hperm.mem_iff.mpr hf)
  have hrelated := ((List.forall₂_and_left _ _).mpr ⟨hfs, hentries⟩).imp fun f g h => h.1 g h.2
  exact (mapM_perm hperm).trans (mapM_related hrelated) fun _ cs _ hcs h => ⟨cs, hcs, h⟩

/-! ### Data -/

/-- No mapping, at any depth, has two keys with the same text. -/
inductive Keyed : Value → Prop
  | null : Keyed .null
  | bool {b : Bool} : Keyed (.bool b)
  | num {n : Number} : Keyed (.num n)
  | str {s : String} : Keyed (.str s)
  | seq {xs : List Value} : (∀ x ∈ xs, Keyed x) → Keyed (.seq xs)
  | map {es : List (Value × Value)} : (keyTexts es).Nodup → (∀ e ∈ es, Keyed e.2) →
      Keyed (.map es)
  | tagged {tag : String} {v : Value} : Keyed (.tagged tag v)

/-- What is read of entries has the texts of their keys. -/
theorem keys_of_readMembers {entries : Members Json}
    (h : es.mapM (readMember path) = .ok entries) : Members.keys entries = keyTexts es := by
  rw [mapM_eq_ok_iff] at h
  induction h with
  | nil => rfl
  | cons hread _ ih =>
    obtain ⟨text, htext, hread⟩ := Except.bind_eq_ok_iff.mp hread
    obtain ⟨j, -, hread⟩ := Except.bind_eq_ok_iff.mp hread
    cases hread
    rw [keyTexts_cons (keyText_eq_ok_iff.mp htext), ← ih]
    rfl

/-- **Data in another order.** -/
theorem data_reordered (h : v.Reordered v') (hkeyed : Keyed v) :
    Except.Rel Json.Reordered (data path v) (data path v') := by
  induction v using Value.below_induction generalizing v' with
  | null =>
    cases h
    exact .ok .null
  | bool b =>
    cases h
    exact .ok .bool
  | num n =>
    cases h
    refine .ok ?_
    rcases numberData_cases n with hn | ⟨m, hn⟩ <;> rw [hn]
    · exact .null
    · exact .num
  | str s =>
    cases h
    exact .ok .str
  | seq xs ih =>
    cases h with
    | seq hitems =>
      cases hkeyed with
      | seq hkeyed =>
        rw [data, data, dataItems_eq, dataItems_eq]
        have hrelated := (List.forall₂_and_left _ _).mpr
          ⟨fun x hx y hxy => @ih x hx y hxy (hkeyed x hx), hitems⟩
        exact (mapM_related (hrelated.imp fun x y h => h.1 y h.2)).map fun _ _ _ _ => .arr
  | map es ih =>
    cases hkeyed with
    | map hkeys hkeyed =>
      obtain ⟨gs, rfl⟩ : ∃ gs, v' = .map gs := by
        cases h
        exact ⟨_, rfl⟩
      have hmember : ∀ e ∈ es, ∀ g, Value.ReorderedEntry e g →
          Except.Rel (Labelled Json.Reordered) (readMember path e) (readMember path g) := by
        intro e he g heg
        rw [readMember, readMember, keyText_reordered heg.1]
        rcases keyText path g.1 with cause | key
        · exact .error
        · exact (ih e he heg.2 (hkeyed e he)).bind fun j j' hj => .ok ⟨rfl, hj⟩
      rw [data, data, dataEntries_eq, dataEntries_eq]
      refine (Except.Rel.map (S := Json.AlikeMembers) (mapM_reordered h hmember) ?_).map
        fun _ _ _ _ => Json.AlikeMembers.reordered
      rintro as bs has - ⟨cs, hperm, hcs⟩
      exact Json.alikeMembers_ofList hperm hcs (keys_of_readMembers has ▸ hkeys)
  | tagged tag v _ =>
    cases h
    exact .error

/-! ### Facets -/

/-- The member that a facet is about. -/
def Facet.member : Facet → String
  | .write key _ => key
  | .under _ => "type"

/-- Facets that say the same but for orders. -/
inductive Facet.Reordered : Facet → Facet → Prop
  | write {key : String} {j j' : Json} : j.Reordered j' → Reordered (.write key j) (.write key j')
  | under {inner inner' : Members Json} : Json.AlikeMembers inner inner' →
      Reordered (.under inner) (.under inner')

theorem Facet.Reordered.value {f f' : Facet} (h : f.Reordered f') :
    f.value.Reordered f'.value := by
  cases h with
  | write h => exact h
  | under h => exact h.reordered

/-- **Facets for different members commute.** -/
theorem Facet.read_comm {f f' : Facet} (h : f.member ≠ f'.member) (key : String)
    (o : Option Json) : f'.read key (f.read key o) = f.read key (f'.read key o) := by
  cases f with
  | write k j =>
    cases f' with
    | write k' j' =>
      simp only [Facet.read]
      split <;> split
      · rename_i hk' hk
        exact absurd (hk.trans hk'.symm) h
      all_goals rfl
    | under inner =>
      simp only [Facet.read]
      split <;> rfl
  | under inner =>
    cases f' with
    | write k' j' =>
      simp only [Facet.read]
      split <;> rfl
    | under inner' => exact absurd rfl h

theorem said_perm {fs hs : List Facet} (h : fs.Perm hs) (hdistinct : (fs.map Facet.member).Nodup)
    (key : String) (o : Option Json) : said fs key o = said hs key o := by
  refine h.foldl_eq' (fun f hf f' hf' o => ?_) o
  by_cases heq : f = f'
  · rw [heq]
  · exact Facet.read_comm (fun hmember => heq (List.inj_on_of_nodup_map hdistinct hf hf' hmember))
      key o

theorem said_reordered {fs hs : List Facet} (h : List.Forall₂ Facet.Reordered fs hs) (key : String)
    {o o' : Option Json} (ho : Option.Rel Json.Reordered o o') :
    Option.Rel Json.Reordered (said fs key o) (said hs key o') := by
  induction h generalizing o o' with
  | nil => exact ho
  | cons hf _ ih =>
    refine ih ?_
    cases hf with
    | write hj =>
      simp only [Facet.read]
      split
      · exact .some hj
      · exact ho
    | under hinner =>
      cases ho with
      | none => exact hinner.read key
      | some hj => exact .some hj

/-- What facets say in another order. -/
theorem readAlike_foldl {fs hs mid : List Facet} (hperm : fs.Perm mid)
    (h : List.Forall₂ Facet.Reordered mid hs) (hdistinct : (fs.map Facet.member).Nodup)
    (name : Option String) : Json.ReadAlike (fs.foldl Facet.apply (named name))
      (hs.foldl Facet.apply (named name)) := by
  intro key
  have hnamed : Option.Rel Json.Reordered ((named name).get? key) ((named name).get? key) := by
    cases name with
    | none => exact .none
    | some n =>
      simp only [named, Members.get?]
      split
      · exact .some .str
      · exact .none
  rw [get?_foldl_apply, get?_foldl_apply, said_perm hperm hdistinct]
  exact said_reordered h key hnamed

theorem reordered_candidates (expression : String) :
    (candidates expression).Reordered (candidates expression) :=
  .arr (.cons .str .nil)

/-- The type that a declaration gets depends on which members there are. -/
theorem readAlike_withType (h : Json.ReadAlike ms ms') :
    Json.ReadAlike (withType ms) (withType ms') := by
  have hdefault : defaultType ms = defaultType ms' := by
    rw [defaultType, defaultType, h.contains_eq, h.contains_eq]
  rw [withType, withType, hdefault]
  exact h.insertIfNew "type" (reordered_candidates _)

theorem readAlike_displayed (h : Json.ReadAlike ms ms') (name : Option String) :
    Json.ReadAlike (displayed name ms) (displayed name ms') := by
  cases name with
  | none => exact h
  | some n => exact h.insertIfNew "displayName" .str

theorem alikeMembers_flagged (h : Json.AlikeMembers ms ms') (isOptional : Bool) :
    Json.AlikeMembers (flagged isOptional ms) (flagged isOptional ms') := by
  have hnodup : ∀ ms : Members Json, ms.keys.Nodup → (flagged isOptional ms).keys.Nodup := by
    intro ms hms
    unfold flagged
    split
    · exact hms
    · exact Members.nodup_keys_insert hms _ _
  refine ⟨hnodup ms h.nodup, hnodup ms' h.nodup', fun key => ?_⟩
  by_cases hkey : key = "required"
  · rw [hkey, get?_flagged_required, get?_flagged_required]
    refine .some ?_
    rcases SchemaNode.cases_of_rel (h.read "required") with ⟨hj, hj'⟩ | ⟨j, j', hj, hj', hjj'⟩ <;>
      rw [hj, hj']
    · exact .bool
    · cases hjj' <;> exact .bool
  · rw [get?_flagged _ _ hkey, get?_flagged _ _ hkey]
    exact h.read key

/-! ### Declarations -/

/-- In no declaration there are both `type` and `schema`, and the properties of a
declaration have distinct names; the same goes for the declarations in it. -/
inductive Orderly : Value → Prop
  | other {v : Value} : (∀ es, v ≠ .map es) → Orderly v
  | map {es : List (Value × Value)} : ¬ ("type" ∈ keyTexts es ∧ "schema" ∈ keyTexts es) →
      (∀ ps, HasFacet es "properties" (.map ps) → (propertyNames ps).Nodup) →
      (∀ ps, HasFacet es "properties" (.map ps) → ∀ p ∈ ps, Orderly p.2) →
      (∀ key ∈ nestingKeys, ∀ fs, HasFacet es key (.map fs) → Orderly (.map fs)) →
      Orderly (.map es)

/-- What `Orderly` asks of a single facet. -/
structure FacetOrderly (key : String) (v : Value) : Prop where
  names : key = "properties" → ∀ ps, v = .map ps → (propertyNames ps).Nodup
  properties : key = "properties" → ∀ ps, v = .map ps → ∀ p ∈ ps, Orderly p.2
  nested : key ∈ nestingKeys → ∀ fs, v = .map fs → Orderly v

theorem Orderly.facet (h : Orderly (.map es)) (hv : HasFacet es key v) : FacetOrderly key v := by
  cases h with
  | other hne => exact absurd rfl (hne es)
  | map _ hnames hproperties hnested =>
    refine ⟨?_, ?_, ?_⟩
    · rintro rfl ps rfl
      exact hnames ps hv
    · rintro rfl ps rfl
      exact hproperties ps hv
    · rintro hkey fs rfl
      exact hnested key hkey fs hv

theorem Orderly.of_facets (hboth : ¬ ("type" ∈ keyTexts es ∧ "schema" ∈ keyTexts es))
    (h : ∀ key v, HasFacet es key v → FacetOrderly key v) : Orderly (.map es) :=
  .map hboth (fun ps hps => (h _ _ hps).names rfl ps rfl)
    (fun ps hps => (h _ _ hps).properties rfl ps rfl)
    fun key hkey fs hfs => (h key _ hfs).nested hkey fs rfl

theorem member_of_readFacet {f : Facet} (h : readFacet path key v = .ok f) :
    f.member = memberKey key := by
  rcases readFacet_cases h with ⟨j, rfl⟩ | ⟨htype, _, inner, -, rfl, -⟩
  · rfl
  · exact htype.symm

/-- The facets of a mapping are about the members that their keys name. -/
theorem members_of_readEntries {fs : List Facet} (h : es.mapM (readEntry path) = .ok fs) :
    fs.map Facet.member = (keyTexts es).map memberKey := by
  rw [mapM_eq_ok_iff] at h
  induction h with
  | nil => rfl
  | cons hread _ ih =>
    obtain ⟨text, htext, hread⟩ := Except.bind_eq_ok_iff.mp hread
    rw [keyTexts_cons (keyText_eq_ok_iff.mp htext), List.map_cons, List.map_cons, ih,
      member_of_readFacet hread]

/-- In a declaration, the facets are about different members. -/
theorem Orderly.nodup_members (h : Orderly (.map es)) (hkeyed : Keyed (.map es)) {fs : List Facet}
    (hfs : es.mapM (readEntry path) = .ok fs) : (fs.map Facet.member).Nodup := by
  cases h with
  | other hne => exact absurd rfl (hne es)
  | map hboth _ _ _ =>
    cases hkeyed with
    | map hkeys _ =>
      rw [members_of_readEntries hfs]
      refine hkeys.map_on fun a ha b hb hab => ?_
      unfold memberKey at hab
      split at hab <;> split at hab <;> simp_all

/-- What comes of a value as a declaration is the same, up to orders, for all orders in
which it can be written. -/
def Orderless (v : Value) : Prop :=
  ∀ v' name path, v.Reordered v' → Keyed v → Orderly v →
    Except.Rel Json.AlikeMembers (expand name path v) (expand name path v')

section

variable (hv : Orderless v) (h : v.Reordered v') (hkeyed : Keyed v)

include hv h hkeyed

theorem readType_reordered (horderly : ∀ fs, v = .map fs → Orderly v) :
    Except.Rel Facet.Reordered (readType path v) (readType path v') := by
  have hdata : Except.Rel Json.Reordered (data path v) (data path v') := data_reordered h hkeyed
  cases h with
  | map hperm hkeys hvalues =>
    rw [readType, readType, expandFacets_eq_expand, expandFacets_eq_expand]
    exact (hv _ none path (.map hperm hkeys hvalues) hkeyed (horderly _ rfl)).map
      fun _ _ _ _ => .under
  | str => exact .ok (.write (reordered_candidates _))
  | _ => exact hdata.map (f := Facet.write "type") (g := Facet.write "type") fun _ _ _ _ => .write

theorem expandItems_reordered (horderly : ∀ fs, v = .map fs → Orderly v) :
    Except.Rel Json.Reordered (expandItems path v) (expandItems path v') := by
  rw [expandItems_eq, expandItems_eq]
  exact (readType_reordered hv h hkeyed horderly).map fun _ _ _ _ hf => hf.value

end

theorem readProperty_reordered {e g : Value × Value} (he : Orderless e.2)
    (h : Value.ReorderedEntry e g) (hkeyed : Keyed e.2) (horderly : Orderly e.2) :
    Except.Rel (Labelled Json.Reordered) (readProperty path e) (readProperty path g) := by
  rw [readProperty, readProperty, keyText_reordered h.1]
  rcases keyText path g.1 with cause | key
  · exact .error
  · exact (he _ _ _ h.2 hkeyed horderly).bind fun ms ms' hms =>
      .ok ⟨rfl, (alikeMembers_flagged hms _).reordered⟩

theorem expandProperties_reordered (hbelow : ∀ ps, v = .map ps → ∀ p ∈ ps, Orderless p.2)
    (h : v.Reordered v') (hkeyed : Keyed v) (hnames : ∀ ps, v = .map ps → (propertyNames ps).Nodup)
    (horderly : ∀ ps, v = .map ps → ∀ p ∈ ps, Orderly p.2) :
    Except.Rel Json.AlikeMembers (expandProperties path v) (expandProperties path v') := by
  have hreordered := h
  cases h with
  | @map es fs gs _ _ _ =>
    cases hkeyed with
    | map _ hkeyed =>
      rw [expandProperties, expandProperties, expandEntries_eq, expandEntries_eq]
      have hproperty : ∀ e ∈ es, ∀ g, Value.ReorderedEntry e g →
          Except.Rel (Labelled Json.Reordered) (readProperty path e) (readProperty path g) :=
        fun e he g heg => readProperty_reordered (hbelow es rfl e he) heg (hkeyed e he)
          (horderly es rfl e he)
      refine (mapM_reordered hreordered hproperty).map ?_
      rintro as bs has - ⟨cs, hperm, hcs⟩
      have hkeys := keys_of_readProperties (mapM_eq_ok_iff.mp has)
      exact Json.alikeMembers_ofList hperm hcs (hkeys ▸ hnames es rfl)
  | _ => exact .error

theorem readFacet_reordered (hv : Orderless v)
    (hbelow : ∀ ps, v = .map ps → ∀ p ∈ ps, Orderless p.2) (h : v.Reordered v') (hkeyed : Keyed v)
    (horderly : FacetOrderly key v) :
    Except.Rel Facet.Reordered (readFacet path key v) (readFacet path key v') := by
  unfold readFacet
  split
  · rename_i hkey
    refine readType_reordered hv h hkeyed (horderly.nested ?_)
    rcases hkey with rfl | rfl <;> simp [nestingKeys]
  · split
    · rename_i hkey
      exact (expandProperties_reordered hbelow h hkeyed (horderly.names hkey)
        (horderly.properties hkey)).map fun _ _ _ _ hms => .write hms.reordered
    · split
      · rename_i hkey
        refine (expandItems_reordered hv h hkeyed (horderly.nested ?_)).map fun _ _ _ _ => .write
        simp [hkey, nestingKeys]
      · exact (data_reordered h hkeyed).map fun _ _ _ _ => .write

theorem alikeMembers_expression (name : Option String) (expression : String) :
    Json.AlikeMembers (displayed name ((named name).insert "type" (candidates expression)))
      (displayed name ((named name).insert "type" (candidates expression))) := by
  have hnodup := (wellFormed_expression name expression).1
  have hfacet : List.Forall₂ Facet.Reordered [.write "type" (candidates expression)]
      [.write "type" (candidates expression)] := .cons (.write (reordered_candidates _)) .nil
  exact ⟨hnodup, hnodup,
    readAlike_displayed (readAlike_foldl (.refl _) hfacet (List.nodup_singleton _) name) name⟩

theorem readEntry_reordered {e g : Value × Value} (he : e ∈ es) (hv : Orderless e.2)
    (hbelow : ∀ ps, e.2 = .map ps → ∀ p ∈ ps, Orderless p.2) (h : Value.ReorderedEntry e g)
    (hkeyed : Keyed e.2) (horderly : Orderly (.map es)) :
    Except.Rel Facet.Reordered (readEntry path e) (readEntry path g) := by
  rw [readEntry, readEntry, ← keyText_reordered h.1]
  rcases htext : keyText path e.1 with cause | key
  · exact .error
  · have hfacet : HasFacet es key e.2 := ⟨e.1, he, keyText_eq_ok_iff.mp htext⟩
    exact readFacet_reordered hv hbelow h.2 hkeyed (horderly.facet hfacet)

theorem orderless_map (hes : ∀ e ∈ es, Orderless e.2)
    (hbelow : ∀ e ∈ es, ∀ ps, e.2 = .map ps → ∀ p ∈ ps, Orderless p.2) :
    Orderless (.map es) := by
  intro v' name path h hkeyed horderly
  obtain ⟨gs, rfl⟩ : ∃ gs, v' = .map gs := by
    cases h
    exact ⟨_, rfl⟩
  have hentry : ∀ e ∈ es, ∀ g, Value.ReorderedEntry e g →
      Except.Rel Facet.Reordered (readEntry path e) (readEntry path g) := by
    intro e he g heg
    cases hkeyed with
    | map _ hkeyed =>
      exact readEntry_reordered he (hes e he) (hbelow e he) heg (hkeyed e he) horderly
  have hnodup : ∀ (ds : List (Value × Value)) fs, ds.mapM (readEntry path) = .ok fs →
      (Members.keys (displayed name (withType (fs.foldl Facet.apply (named name))))).Nodup := by
    intro ds fs hfs
    refine (wellFormed_of_expand (.map ds) name path _ ?_).1
    rw [expand_map_eq, hfs]
    rfl
  rw [expand_map_eq, expand_map_eq]
  refine (mapM_reordered h hentry).map ?_
  rintro as bs has hbs ⟨cs, hperm, hcs⟩
  have hfacets := readAlike_foldl hperm hcs (horderly.nodup_members hkeyed has) name
  exact ⟨hnodup es as has, hnodup gs bs hbs,
    readAlike_displayed (readAlike_withType hfacets) name⟩

/-- **No order matters.** -/
theorem orderless (v : Value) : Orderless v := by
  induction v using Value.nested_induction with
  | null =>
    intro v' name path h _ _
    cases h
    exact .ok (alikeMembers_expression name "string")
  | str s =>
    intro v' name path h _ _
    cases h
    exact .ok (alikeMembers_expression name s)
  | map es ih ihbelow => exact orderless_map ih ihbelow
  | _ =>
    intro v' name path h _ _
    cases h
    exact .error

/-! ### Facets beside a base type -/

/-- Where keys have different texts, the facet with a key is the one for its member. -/
theorem facet?_of_hasFacet (hkeys : (keyTexts es).Nodup) (hv : HasFacet es key v)
    (hkey : key ∉ ["type", "schema"]) : facet? es key = some v := by
  obtain ⟨htype, hschema⟩ : key ≠ "type" ∧ key ≠ "schema" := by simpa using hkey
  obtain ⟨k, hmem, hk⟩ := hv
  obtain ⟨pre, post, rfl⟩ := List.append_of_mem hmem
  have hmember : memberKey key = key := if_neg hschema
  refine facet?_eq_some_iff.mpr ⟨pre, k, post, rfl, isFacet_iff.mpr ⟨key, hk, hmember⟩, ?_⟩
  intro e he
  rw [Bool.eq_false_iff]
  intro hfacet
  obtain ⟨text, htext, htextMember⟩ := isFacet_iff.mp hfacet
  obtain rfl := eq_of_memberKey htextMember htype
  -- its text comes once more
  rw [keyTexts, List.filterMap_append, ← keyTexts, ← keyTexts, keyTexts_cons hk] at hkeys
  refine (List.nodup_cons.mp (List.nodup_append.mp hkeys).2.1).1 ?_
  exact List.mem_filterMap.mpr ⟨e, he, by rw [htext]; rfl⟩

/-- **The order in which a declaration is written does not matter.**  Let two values be the
same but for the order of entries in mappings, at any depth, let no mapping have two keys
with the same text, and let no declaration have two properties with the same name, or both
`type` and `schema`.  Then as declarations both are refused, or the trees that come of them
are the same but for the order of keys.  And each facet of a mapping, but for the type, is
in both trees as it is read by itself, whatever a base type says, before it or behind it. -/
theorem expand_reordered (h : v.Reordered v') (hkeyed : Keyed v) (horderly : Orderly v)
    (name : Option String) (path : KeyPath) :
    Except.Rel Json.Reordered ((expand name path v).map .obj) ((expand name path v').map .obj) ∧
      ∀ es, v = .map es → ∀ key w, HasFacet es key w → key ∉ ["type", "schema"] →
        ∀ ms ms', expand name path v = .ok ms → expand name path v' = .ok ms' →
          ∃ j j', readFacet [] key w = .ok (.write key j) ∧ ms.get? key = some j ∧
            ms'.get? key = some j' ∧ j.Reordered j' := by
  have hrel := orderless v v' name path h hkeyed horderly
  refine ⟨hrel.map fun _ _ _ _ hms => hms.reordered, ?_⟩
  rintro es rfl key w hw hkey ms ms' hms hms'
  cases hkeyed with
  | map hkeys _ =>
    have hfacet := facet?_of_hasFacet hkeys hw hkey
    obtain ⟨htype, -⟩ : key ≠ "type" ∧ key ≠ "schema" := by simpa using hkey
    obtain ⟨k, j, hk, hread, hj⟩ := get?_of_facet? hms hfacet fun he => absurd he htype
    obtain rfl := eq_of_memberKey hk htype
    rw [hms, hms'] at hrel
    cases hrel with
    | ok halike =>
      rcases SchemaNode.cases_of_rel (halike.read k) with ⟨hnone, -⟩ | ⟨i, j', hi, hj', hij'⟩
      · cases hnone.symm.trans hj
      · obtain rfl := Option.some.inj (hi.symm.trans hj)
        exact ⟨i, j', hread, hj, hj', hij'⟩

/-- Properties of a crate. -/
def crateProperties : List (Value × Value) :=
  [(.str "lid?", .null), (.num (.whole 1), .str "integer")]

/-- A base type with these properties. -/
def crateBase : List (Value × Value) :=
  [(.str "description", .str "inner"), (.str "properties", .map crateProperties)]

/-- A declaration with the base type in it, of which it says something else. -/
def crateFacets : List (Value × Value) :=
  [(.str "description", .str "outer"), (.str "type", .map crateBase)]

/-- The same base type with its mappings written backwards. -/
def crateBaseBackwards : List (Value × Value) :=
  [(.str "properties", .map crateProperties.reverse), (.str "description", .str "inner")]

/-- The same declaration with all its mappings written backwards. -/
def crateBackwards : List (Value × Value) :=
  [(.str "type", .map crateBaseBackwards), (.str "description", .str "outer")]

theorem reordered_crate : Value.Reordered (.map crateFacets) (.map crateBackwards) := by
  have hproperties : Value.Reordered (.map crateProperties) (.map crateProperties.reverse) :=
    Value.reordered_map_iff.mpr
      ⟨_, (List.reverse_perm _).symm, .cons ⟨.num, .str⟩ (.cons ⟨.str, .null⟩ .nil)⟩
  have hbase : Value.Reordered (.map crateBase) (.map crateBaseBackwards) :=
    Value.reordered_map_iff.mpr
      ⟨_, (List.reverse_perm _).symm, .cons ⟨.str, hproperties⟩ (.cons ⟨.str, .str⟩ .nil)⟩
  exact Value.reordered_map_iff.mpr
    ⟨_, (List.reverse_perm _).symm, .cons ⟨.str, hbase⟩ (.cons ⟨.str, .str⟩ .nil)⟩

theorem keyed_crate : Keyed (.map crateFacets) := by
  have hproperties : Keyed (.map crateProperties) :=
    .map (by decide) (by simp [crateProperties, Keyed.null, Keyed.str])
  have hbase : Keyed (.map crateBase) :=
    .map (by decide) (by simp [crateBase, Keyed.str, hproperties])
  exact .map (by decide) (by simp [crateFacets, Keyed.str, hbase])

theorem orderly_crate : Orderly (.map crateFacets) := by
  have hplain : ∀ key v, (∀ fs, v ≠ .map fs) → FacetOrderly key v := fun key v hv =>
    ⟨fun _ ps hps => absurd hps (hv ps), fun _ ps hps => absurd hps (hv ps),
      fun _ fs hfs => absurd hfs (hv fs)⟩
  have hbase : Orderly (.map crateBase) := by
    refine .of_facets (by decide) ?_
    rintro key v ⟨k, hmem, hk⟩
    simp only [crateBase, List.mem_cons, List.not_mem_nil, or_false, Prod.mk.injEq] at hmem
    rcases hmem with ⟨rfl, rfl⟩ | ⟨rfl, rfl⟩
    · exact hplain key _ nofun
    · cases hk
      refine ⟨fun _ ps hps => ?_, fun _ ps hps p hp => ?_, fun hkey => absurd hkey (by decide)⟩
      · cases hps
        decide
      · cases hps
        refine .other fun es he => ?_
        simp only [crateProperties, List.mem_cons, List.not_mem_nil, or_false] at hp
        rcases hp with rfl | rfl <;> cases he
  refine .of_facets (by decide) ?_
  rintro key v ⟨k, hmem, hk⟩
  simp only [crateFacets, List.mem_cons, List.not_mem_nil, or_false, Prod.mk.injEq] at hmem
  rcases hmem with ⟨rfl, rfl⟩ | ⟨rfl, rfl⟩
  · exact hplain key _ nofun
  · cases hk
    exact ⟨fun hkey => absurd hkey (by decide), fun hkey => absurd hkey (by decide),
      fun _ _ _ => hbase⟩

/-- Both ways, the outer description is the one that counts. -/
theorem expand_reordered_crate : Value.Reordered (.map crateFacets) (.map crateBackwards) ∧
    Keyed (.map crateFacets) ∧ Orderly (.map crateFacets) ∧ ∃ ms ms',
      expand (some "Crate") [] (.map crateFacets) = .ok ms ∧
      expand (some "Crate") [] (.map crateBackwards) = .ok ms' ∧
      Json.Reordered (.obj ms) (.obj ms') ∧
      ∃ j j', readFacet [] "description" (.str "outer") = .ok (.write "description" j) ∧
        ms.get? "description" = some j ∧ ms'.get? "description" = some j' ∧ j.Reordered j' := by
  obtain ⟨htrees, hfacets⟩ :=
    expand_reordered reordered_crate keyed_crate orderly_crate (some "Crate") []
  have hms : expand (some "Crate") [] (.map crateFacets) = .ok _ := rfl
  have hms' : expand (some "Crate") [] (.map crateBackwards) = .ok _ := rfl
  rw [hms, hms'] at htrees
  cases htrees with
  | ok htrees =>
    have houter :=
      hfacets _ rfl "description" (.str "outer") ⟨_, .head _, rfl⟩ (by decide) _ _ hms hms'
    exact ⟨reordered_crate, keyed_crate, orderly_crate, _, _, hms, hms', htrees, houter⟩

end Raml

end RamlSchema
