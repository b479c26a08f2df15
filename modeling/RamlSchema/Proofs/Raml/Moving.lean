/-
RamlSchema/Proofs/Raml/Moving.lean

Declarations with a base type in them, and declarations that name it.

Where a declaration gives its base type as a mapping, the members of the base are laid
under its own; where it gives a name, they are not there.  So the tree of the one has
the members of both, and the tree of the other those of the declaration and the name
(`Rebased`), as long as the facets of the declaration and those of the base do not
clash (`Fits`).  A declaration in which this happens further down, in a property, in
items or in its own base type, has the same tree in both forms but for what is there.

Main result: `Moves.shifted`.
-/
import RamlSchema.Proofs.Normalize.Bases
import RamlSchema.Proofs.Raml.Loading

namespace RamlSchema

open Yaml

/-! ### Each member by itself -/

/-- What happens to a member that is there: it stays what it is, or becomes one and the
same thing whatever it was. -/
def Settles (op : Option Json → Option Json) : Prop :=
  (∀ j, op (some j) = some j) ∨ ∃ w, ∀ j, op (some j) = some w

theorem Settles.comp {op op' : Option Json → Option Json} (h : Settles op) (h' : Settles op') :
    Settles fun o => op' (op o) := by
  rcases h with hid | ⟨w, hw⟩
  · simp only [Settles, hid]
    exact h'
  · simp only [Settles, hw]
    rcases h' with hid' | ⟨w', hw'⟩
    · exact .inr ⟨w, fun _ => hid' w⟩
    · exact .inr ⟨w', fun _ => hw' w⟩

/-- What happens to each member by itself, and settles properties and items, keeps nodes
the same but for nodes with bases. -/
theorem Json.MovedBelow.map {N : String} {B ms ms' out out' : Members Json}
    (h : Json.MovedBelow N B ms ms') (op : String → Option Json → Option Json)
    (hproperties : Settles (op "properties")) (hitems : Settles (op "items"))
    (hget : ∀ key, out.get? key = op key (ms.get? key))
    (hother : ∀ key, out'.get? key = op key (ms'.get? key)) : Json.MovedBelow N B out out' := by
  cases h with
  | same hsame => exact .same fun key => by rw [hget, hother, hsame]
  | @properties _ _ ps ps' hsame hps hps' hkeys heach =>
    have hsame' : ∀ key, key ≠ "properties" → out.get? key = out'.get? key :=
      fun key hkey => by rw [hget, hother, hsame key hkey]
    rcases hproperties with hid | ⟨w, hw⟩
    · refine .properties hsame' ?_ ?_ hkeys heach
      · rw [hget, hps, hid]
      · rw [hother, hps', hid]
    · refine .same fun key => ?_
      by_cases hkey : key = "properties"
      · rw [hkey, hget, hother, hps, hps', hw, hw]
      · exact hsame' key hkey
  | @items _ _ j j' hsame hj hj' hmoved =>
    have hsame' : ∀ key, key ≠ "items" → out.get? key = out'.get? key :=
      fun key hkey => by rw [hget, hother, hsame key hkey]
    rcases hitems with hid | ⟨w, hw⟩
    · refine .items hsame' ?_ ?_ hmoved
      · rw [hget, hj, hid]
      · rw [hother, hj', hid]
    · refine .same fun key => ?_
      by_cases hkey : key = "items"
      · rw [hkey, hget, hother, hj, hj', hw, hw]
      · exact hsame' key hkey

/-- Properties or items are there in both nodes or in neither. -/
theorem Json.MovedBelow.contains_eq {N : String} {B ms ms' : Members Json}
    (h : Json.MovedBelow N B ms ms') (key : String) : ms.contains key = ms'.contains key := by
  unfold Members.contains
  cases h with
  | same hsame => rw [hsame]
  | properties hsame hps hps' =>
    by_cases hkey : key = "properties"
    · rw [hkey, hps, hps', Option.isSome_some, Option.isSome_some]
    · rw [hsame key hkey]
  | items hsame hj hj' =>
    by_cases hkey : key = "items"
    · rw [hkey, hj, hj', Option.isSome_some, Option.isSome_some]
    · rw [hsame key hkey]

namespace Raml

/-! ### What facets say, key by key -/

/-- What there is under a key behind a facet. -/
def Facet.read (key : String) (o : Option Json) : Facet → Option Json
  | .write k j => if k = key then some j else o
  | .under inner => o.or (inner.get? key)

/-- What there is under a key behind some facets. -/
def said (fs : List Facet) (key : String) (o : Option Json) : Option Json :=
  fs.foldl (Facet.read key) o

theorem get?_apply (f : Facet) (out : Members Json) (key : String) :
    (f.apply out).get? key = f.read key (out.get? key) := by
  cases f with
  | write k j => exact Members.get?_insert out k key j
  | under inner => exact get?_underlay out inner key

theorem get?_foldl_apply (fs : List Facet) (out : Members Json) (key : String) :
    (fs.foldl Facet.apply out).get? key = said fs key (out.get? key) := by
  induction fs generalizing out with
  | nil => rfl
  | cons f fs ih => rw [List.foldl_cons, ih, get?_apply, said, said, List.foldl_cons]

theorem Facet.settles_read (f : Facet) (key : String) : Settles (Facet.read key · f) := by
  cases f with
  | under inner => exact .inl fun _ => rfl
  | write k j =>
    by_cases hk : k = key
    · exact .inr ⟨j, fun _ => if_pos hk⟩
    · exact .inl fun _ => if_neg hk

theorem settles_said (fs : List Facet) (key : String) : Settles (said fs key) := by
  induction fs with
  | nil => exact .inl fun _ => rfl
  | cons f fs ih => exact (f.settles_read key).comp ih

/-- Facets that only write members leave what they do not write. -/
theorem said_of_writes {fs : List Facet} (h : ∀ f ∈ fs, ∃ k j, f = .write k j) (key : String)
    (o : Option Json) : said fs key o = (said fs key none).or o := by
  induction fs generalizing o with
  | nil => exact (Option.none_or).symm
  | cons f fs ih =>
    obtain ⟨⟨k, j, rfl⟩, hrest⟩ := List.forall_mem_cons.mp h
    have hcons : ∀ o, said (.write k j :: fs) key o
        = said fs key (if k = key then some j else o) := fun _ => rfl
    rw [hcons, hcons, ih hrest, ih hrest (if k = key then some j else none), Option.or_assoc]
    by_cases hk : k = key <;> simp [hk]

/-- What they write is said by one of them. -/
theorem mem_of_said {fs : List Facet} (h : ∀ f ∈ fs, ∃ k j, f = .write k j) {key : String}
    {j : Json} (hj : said fs key none = some j) : .write key j ∈ fs := by
  induction fs with
  | nil => exact nomatch hj
  | cons f fs ih =>
    obtain ⟨⟨k, i, rfl⟩, hrest⟩ := List.forall_mem_cons.mp h
    have hcons : said fs key (if k = key then some i else none) = some j := hj
    rw [said_of_writes hrest, Option.or_eq_some_iff] at hcons
    rcases hcons with hj | ⟨-, hj⟩
    · exact List.mem_cons_of_mem _ (ih hrest hj)
    · split at hj
      · rename_i hk
        cases hj
        exact hk ▸ List.mem_cons_self
      · cases hj

/-! ### Declarations with one entry in focus -/

theorem mapM_middle {α β : Type} {f : α → Except Error β} {pre post : List α} {x : α}
    {ys : List β} : (pre ++ x :: post).mapM f = .ok ys ↔ ∃ as y bs, pre.mapM f = .ok as ∧
      f x = .ok y ∧ post.mapM f = .ok bs ∧ ys = as ++ y :: bs := by
  simp only [List.mapM_append, List.mapM_cons, Except.bind_eq_ok_iff]
  constructor
  · rintro ⟨as, has, _, ⟨y, hy, bs, hbs, ⟨⟩⟩, ⟨⟩⟩
    exact ⟨as, y, bs, has, hy, hbs, rfl⟩
  · rintro ⟨as, y, bs, has, hy, hbs, rfl⟩
    exact ⟨as, has, _, ⟨y, hy, bs, hbs, rfl⟩, rfl⟩

/-- What comes of a mapping, with one of its facets in focus. -/
def around (name : Option String) (as bs : List Facet) (f : Facet) : Members Json :=
  displayed name (withType (bs.foldl Facet.apply (f.apply (as.foldl Facet.apply (named name)))))

theorem expand_middle {name : Option String} {pre post : List (Value × Value)} {e : Value × Value}
    {ms : Members Json} : expand name [] (.map (pre ++ e :: post)) = .ok ms ↔
      ∃ as f bs, pre.mapM (readEntry []) = .ok as ∧ readEntry [] e = .ok f ∧
        post.mapM (readEntry []) = .ok bs ∧ ms = around name as bs f := by
  simp only [expand_map_eq, Except.map_eq_ok_iff, mapM_middle]
  constructor
  · rintro ⟨_, ⟨as, f, bs, has, hf, hbs, rfl⟩, rfl⟩
    exact ⟨as, f, bs, has, hf, hbs, by rw [List.foldl_append]; rfl⟩
  · rintro ⟨as, f, bs, has, hf, hbs, rfl⟩
    exact ⟨_, ⟨as, f, bs, has, hf, hbs, rfl⟩, by rw [List.foldl_append]; rfl⟩

/-- Two mappings that differ in one facet only. -/
theorem expand_both {name : Option String} {pre post : List (Value × Value)}
    {e e' : Value × Value} {ms ms' : Members Json}
    (h : expand name [] (.map (pre ++ e :: post)) = .ok ms)
    (h' : expand name [] (.map (pre ++ e' :: post)) = .ok ms') :
    ∃ as f f' bs, pre.mapM (readEntry []) = .ok as ∧ post.mapM (readEntry []) = .ok bs ∧
      readEntry [] e = .ok f ∧ readEntry [] e' = .ok f' ∧ ms = around name as bs f ∧
      ms' = around name as bs f' := by
  obtain ⟨as, f, bs, has, hf, hbs, rfl⟩ := expand_middle.mp h
  obtain ⟨as', f', bs', has', hf', hbs', rfl⟩ := expand_middle.mp h'
  obtain rfl := Except.ok.inj (has.symm.trans has')
  obtain rfl := Except.ok.inj (hbs.symm.trans hbs')
  exact ⟨as, f, f', bs, has, hbs, hf, hf', rfl, rfl⟩

theorem withType_eq_self {out : Members Json} (h : (out.get? "type").isSome) :
    withType out = out := by
  have hcontains : out.contains "type" = true := h
  rw [withType, Members.insertIfNew, if_pos hcontains]

/-- What is read around a facet, where the facet or one before it gives a type. -/
theorem get?_around {name : Option String} {as bs : List Facet} {f : Facet}
    (htype : (said bs "type" (f.read "type" (said as "type" none))).isSome) {key : String}
    (hkey : key ≠ "name") (hdisplay : key ≠ "displayName") :
    (around name as bs f).get? key = said bs key (f.read key (said as key none)) := by
  have hget : ∀ key, key ≠ "name" →
      (bs.foldl Facet.apply (f.apply (as.foldl Facet.apply (named name)))).get? key
        = said bs key (f.read key (said as key none)) := fun key hkey => by
    rw [get?_foldl_apply, get?_apply, get?_foldl_apply, get?_named name hkey]
  rw [around, get?_displayed name _ hdisplay, withType_eq_self, hget key hkey]
  rw [hget "type" (by decide)]
  exact htype

/-! ### Moving a base type -/

/-- A key under which a declaration gives its type. -/
def GivesType (k : Value) : Prop :=
  keyText [] k = .ok "type" ∨ keyText [] k = .ok "schema"

/-- `v'` is `v` with a name for the base type of one of the declarations in it, the mapping
`M`, where `P` holds of the facets beside the type in this declaration and in those of
which it is the base type.  The flag tells whether it is `v` itself that has this base
type, directly or by way of its own. -/
inductive Moves (N : String) (M : List (Value × Value)) (P : List (Value × Value) → Prop) :
    Bool → Value → Value → Prop
  | here {pre post k} : GivesType k → P (pre ++ post) →
      Moves N M P true (.map (pre ++ (k, .map M) :: post)) (.map (pre ++ (k, .str N) :: post))
  | type {root pre post k v v'} : GivesType k → (root = true → P (pre ++ post)) →
      Moves N M P root v v' →
      Moves N M P root (.map (pre ++ (k, v) :: post)) (.map (pre ++ (k, v') :: post))
  | items {root pre post k v v'} : keyText [] k = .ok "items" → Moves N M P root v v' →
      Moves N M P false (.map (pre ++ (k, v) :: post)) (.map (pre ++ (k, v') :: post))
  | property {root pre post ps qs k key v v'} : keyText [] k = .ok "properties" →
      Moves N M P root v v' →
      Moves N M P false (.map (pre ++ (k, .map (ps ++ (key, v) :: qs)) :: post))
        (.map (pre ++ (k, .map (ps ++ (key, v') :: qs)) :: post))

/-- The facets beside the type in a declaration do not clash with the members `B` of its
base type: nothing else gives a type, there are properties in one of them only, items
take the place of no element of an array expression, and the base does not say what is
required. -/
structure Fits (B : Members Json) (own : List (Value × Value)) : Prop where
  type : ∀ key ∈ ["type", "schema", "$ref"], ∀ v, ¬ HasFacet own key v
  properties : ∀ v, HasFacet own "properties" v →
    B.get? "properties" = none ∧ NodeShape.typeText (B.get? "type") ≠ .ok none
  items : ∀ v, HasFacet own "items" v → data [] v ≠ .ok .null ∧
    ∀ n element, NodeShape.ofJson (.obj B) = .ok n → n.type ≠ some (.arrayOf element)
  required : B.get? "required" = none
  nodup : ∀ v j names, HasFacet own "required" v → data [] v = .ok j →
    NodeShape.listed (some j) = .ok names → names.Nodup

/-! ### Facets beside a base type -/

/-- What facets write under a key, of which those in `bs` come after those in `as`. -/
def beside (as bs : List Facet) (key : String) : Option Json :=
  (said bs key none).or (said as key none)

theorem write_of_readFacet {path : KeyPath} {key : String} {v : Value} {f : Facet}
    (htype : key ≠ "type") (hschema : key ≠ "schema") (h : readFacet path key v = .ok f) :
    ∃ j, f = .write key j := by
  rw [readFacet, if_neg (not_or.mpr ⟨htype, hschema⟩)] at h
  split at h
  · rename_i hkey
    obtain ⟨ps, -, rfl⟩ := Except.map_eq_ok_iff.mp h
    exact ⟨.obj ps, by rw [hkey]⟩
  · split at h
    · rename_i hkey
      obtain ⟨j, -, rfl⟩ := Except.map_eq_ok_iff.mp h
      exact ⟨j, by rw [hkey]⟩
    · obtain ⟨j, -, rfl⟩ := Except.map_eq_ok_iff.mp h
      exact ⟨j, rfl⟩

section

variable {B : Members Json} {own es : List (Value × Value)} {fs : List Facet}

/-- The facets beside a base type write members, and not that for the type. -/
theorem Fits.of_mem (h : Fits B own) (hes : es ⊆ own) (hread : es.mapM (readEntry []) = .ok fs)
    {f : Facet} (hf : f ∈ fs) : ∃ key v j, f = .write key j ∧ HasFacet own key v ∧
      readFacet [] key v = .ok (.write key j) ∧ key ∉ ["type", "schema", "$ref"] := by
  obtain ⟨e, he, hread⟩ := exists_of_mem_mapM hread hf
  obtain ⟨key, hkey, hread⟩ := Except.bind_eq_ok_iff.mp hread
  have hfacet : HasFacet own key e.2 := ⟨e.1, hes he, hkey⟩
  have hnot : key ∉ ["type", "schema", "$ref"] := fun hmem => h.type key hmem e.2 hfacet
  obtain ⟨j, rfl⟩ := write_of_readFacet (fun heq => hnot (by simp [heq]))
    (fun heq => hnot (by simp [heq])) hread
  exact ⟨key, e.2, j, rfl, hfacet, hread, hnot⟩

theorem Fits.of_said (h : Fits B own) (hes : es ⊆ own)
    (hread : es.mapM (readEntry []) = .ok fs) {key : String} {j : Json}
    (hj : said fs key none = some j) : ∃ v, HasFacet own key v ∧
      readFacet [] key v = .ok (.write key j) ∧ key ∉ ["type", "schema", "$ref"] := by
  have hwrites : ∀ f ∈ fs, ∃ k j, f = .write k j := fun f hf => by
    obtain ⟨key, v, j, rfl, -⟩ := h.of_mem hes hread hf
    exact ⟨key, j, rfl⟩
  obtain ⟨_, v, _, heq, hfacet, hread, hnot⟩ := h.of_mem hes hread (mem_of_said hwrites hj)
  cases heq
  exact ⟨v, hfacet, hread, hnot⟩

/-- Items that are nothing are nothing as data. -/
theorem data_of_readFacet_items {v : Value}
    (h : readFacet [] "items" v = .ok (.write "items" .null)) : data [] v = .ok .null := by
  obtain ⟨j, hj, heq⟩ := Except.map_eq_ok_iff.mp h
  cases heq
  rw [expandItems_eq, Except.map_eq_ok_iff] at hj
  obtain ⟨f, hf, hvalue⟩ := hj
  rcases readType_cases hf with ⟨s, -, rfl⟩ | ⟨es, inner, -, -, rfl⟩ | ⟨j, -, hj, rfl⟩
  · cases hvalue
  · cases hvalue
  · cases hvalue
    exact data_eq_ok_iff.mp hj

theorem data_of_readFacet_required {v : Value} {j : Json}
    (h : readFacet [] "required" v = .ok (.write "required" j)) : data [] v = .ok j := by
  obtain ⟨i, hi, heq⟩ := Except.map_eq_ok_iff.mp h
  cases heq
  exact data_eq_ok_iff.mp hi

end

section

variable {N : String} {B inner inner' : Members Json} {pre post : List (Value × Value)}
  {as bs : List Facet} (hfits : Fits B (pre ++ post)) (hbs : post.mapM (readEntry []) = .ok bs)
include hfits hbs

/-- What is laid under facets that fit is read where they say nothing. -/
theorem Fits.said_under (key : String) :
    said bs key ((Facet.under inner).read key (said as key none))
      = (beside as bs key).or (inner.get? key) := by
  have hwrites : ∀ f ∈ bs, ∃ k j, f = .write k j := fun f hf => by
    obtain ⟨key, v, j, rfl, -⟩ := hfits.of_mem (List.subset_append_right _ _) hbs hf
    exact ⟨key, j, rfl⟩
  rw [said_of_writes hwrites, Facet.read, beside, Option.or_assoc]

theorem Fits.get?_around (htype : (inner.get? "type").isSome) (name : Option String) {key : String}
    (hkey : key ∉ NodeShape.authoringKeys) :
    (around name as bs (.under inner)).get? key = (beside as bs key).or (inner.get? key) := by
  rw [Raml.get?_around, hfits.said_under hbs]
  · rw [hfits.said_under hbs, Option.isSome_or, htype, Bool.or_true]
  · rintro rfl
    simp [NodeShape.authoringKeys] at hkey
  · rintro rfl
    simp [NodeShape.authoringKeys] at hkey

variable (has : pre.mapM (readEntry []) = .ok as)
include has

theorem Fits.of_beside {key : String} {j : Json} (hj : beside as bs key = some j) :
    ∃ v, HasFacet (pre ++ post) key v ∧ readFacet [] key v = .ok (.write key j) ∧
      key ∉ ["type", "schema", "$ref"] := by
  rcases Option.or_eq_some_iff.mp hj with hj | ⟨-, hj⟩
  · exact hfits.of_said (List.subset_append_right _ _) hbs hj
  · exact hfits.of_said (List.subset_append_left _ _) has hj

theorem Fits.beside_eq_none {key : String} (hkey : key ∈ ["type", "schema", "$ref"]) :
    beside as bs key = none := by
  by_contra hne
  obtain ⟨j, hj⟩ := Option.ne_none_iff_exists'.mp hne
  obtain ⟨-, -, -, hnot⟩ := hfits.of_beside hbs has hj
  exact hnot hkey

/-- **Laid under facets that fit, bases and names stay what they are.** -/
theorem Rebased.around (h : Rebased N B inner inner') (htype : (inner.get? "type").isSome)
    (name : Option String) :
    Rebased N B (around name as bs (.under inner)) (around name as bs (.under inner')) := by
  have htype' : (inner'.get? "type").isSome := by rw [h.named]; rfl
  have hinner : ∀ key ∉ NodeShape.authoringKeys,
      (Raml.around name as bs (.under inner)).get? key = (beside as bs key).or (inner.get? key) :=
    fun _ => hfits.get?_around hbs htype name
  have hother : ∀ key ∉ NodeShape.authoringKeys,
      (Raml.around name as bs (.under inner')).get? key = (beside as bs key).or (inner'.get? key) :=
    fun _ => hfits.get?_around hbs htype' name
  have htypes : ∀ key ∈ ["type", "schema", "$ref"], beside as bs key = none :=
    fun _ => hfits.beside_eq_none hbs has
  refine ⟨?_, ?_, fun key hkey hauthoring => ?_, fun hsome => ?_, fun hsome => ?_, h.required,
    fun names hnames => ?_, ?_⟩
  · rw [hother "type" (by decide), htypes "type" (by decide), Option.none_or, h.named]
  · rw [hinner "type" (by decide), htypes "type" (by decide), Option.none_or, h.type]
  · rw [hinner key hauthoring, hother key hauthoring, h.get? key hkey hauthoring, Option.or_assoc]
  · rw [hother "properties" (by decide)] at hsome
    rcases hj : beside as bs "properties" with - | j
    · rw [hj, Option.none_or] at hsome
      exact h.properties hsome
    · obtain ⟨v, hfacet, -⟩ := hfits.of_beside hbs has hj
      exact hfits.properties v hfacet
  · rw [hother "items" (by decide)] at hsome ⊢
    rcases hj : beside as bs "items" with - | j
    · rw [hj, Option.none_or] at hsome
      exact h.items hsome
    · obtain ⟨v, hfacet, hread, -⟩ := hfits.of_beside hbs has hj
      refine ⟨fun hnull => ?_, (hfits.items v hfacet).2⟩
      obtain rfl := Option.some.inj hnull
      exact (hfits.items v hfacet).1 (data_of_readFacet_items hread)
  · rw [hother "required" (by decide)] at hnames
    rcases hj : beside as bs "required" with - | j
    · rw [hj, Option.none_or] at hnames
      exact h.nodup names hnames
    · rw [hj, Option.some_or] at hnames
      obtain ⟨v, hfacet, hread, -⟩ := hfits.of_beside hbs has hj
      exact hfits.nodup v j names hfacet (data_of_readFacet_required hread) hnames
  · rw [hother "$ref" (by decide), htypes "$ref" (by decide), Option.none_or, h.reference]

end

/-! ### What happens around a facet -/

section

variable {N : String} {B ms ms' : Members Json}

theorem get?_withType_eq (out : Members Json) (key : String) : (withType out).get? key
    = (out.get? key).or (if "type" = key then some (candidates (defaultType out)) else none) :=
  Members.get?_insertIfNew out "type" key _

theorem movedBelow_withType (h : Json.MovedBelow N B ms ms') :
    Json.MovedBelow N B (withType ms) (withType ms') := by
  have hdefault : defaultType ms = defaultType ms' := by
    rw [defaultType, defaultType, h.contains_eq, h.contains_eq]
  refine h.map
    (fun key o => o.or (if "type" = key then some (candidates (defaultType ms)) else none))
    (.inl fun _ => rfl) (.inl fun _ => rfl) (get?_withType_eq ms) fun key => ?_
  rw [hdefault]
  exact get?_withType_eq ms' key

theorem movedBelow_displayed (h : Json.MovedBelow N B ms ms') (name : Option String) :
    Json.MovedBelow N B (displayed name ms) (displayed name ms') := by
  cases name with
  | none => exact h
  | some n =>
    exact h.map (fun key o => o.or (if "displayName" = key then some (.str n) else none))
      (.inl fun _ => rfl) (.inl fun _ => rfl) (fun key => Members.get?_insertIfNew _ _ key _)
      fun key => Members.get?_insertIfNew _ _ key _

theorem movedBelow_around {name : Option String} {as : List Facet} {f f' : Facet}
    (h : Json.MovedBelow N B (f.apply (as.foldl Facet.apply (named name)))
      (f'.apply (as.foldl Facet.apply (named name)))) (bs : List Facet) :
    Json.MovedBelow N B (around name as bs f) (around name as bs f') := by
  refine movedBelow_displayed (movedBelow_withType ?_) name
  exact h.map (said bs) (settles_said bs _) (settles_said bs _) (get?_foldl_apply bs _)
    (get?_foldl_apply bs _)

/-- The flag of a property, told from what the property says itself. -/
def flag (isOptional : Bool) : Option Json → Json
  | some (.bool b) => .bool b
  | _ => .bool (!isOptional)

theorem get?_flagged_required (isOptional : Bool) (facets : Members Json) :
    (flagged isOptional facets).get? "required"
      = some (flag isOptional (facets.get? "required")) := by
  unfold flagged
  split
  · rename_i b h
    rw [h, flag]
  · rename_i h
    rw [Members.get?_insert_self]
    unfold flag
    split
    · exact absurd (by assumption) (h _)
    · rfl

theorem rebased_flagged (h : Rebased N B ms ms') (isOptional : Bool) :
    Rebased N B (flagged isOptional ms) (flagged isOptional ms') := by
  have hrequired : ms.get? "required" = ms'.get? "required" := by
    rw [h.get? "required" (by decide) (by decide), h.required, Option.or_none]
  have hget := fun key (hkey : key ≠ "required") => get?_flagged isOptional ms hkey
  have hother := fun key (hkey : key ≠ "required") => get?_flagged isOptional ms' hkey
  refine ⟨?_, ?_, fun key hkey hauthoring => ?_, ?_, ?_, h.required, fun names hnames => ?_, ?_⟩
  · rw [hother "type" (by decide), h.named]
  · rw [hget "type" (by decide), h.type]
  · by_cases hkey' : key = "required"
    · rw [hkey', get?_flagged_required, get?_flagged_required, hrequired, Option.some_or]
    · rw [hget key hkey', hother key hkey', h.get? key hkey hauthoring]
  · rw [hother "properties" (by decide)]
    exact h.properties
  · rw [hother "items" (by decide)]
    exact h.items
  · rw [get?_flagged_required] at hnames
    unfold flag at hnames
    -- a flag is no list of names
    split at hnames <;> cases hnames <;> exact List.nodup_nil
  · rw [hother "$ref" (by decide), h.reference]

theorem movedBelow_flagged (h : Json.MovedBelow N B ms ms') (isOptional : Bool) :
    Json.MovedBelow N B (flagged isOptional ms) (flagged isOptional ms') := by
  have hget : ∀ (facets : Members Json) key, (flagged isOptional facets).get? key
      = if key = "required" then some (flag isOptional (facets.get? key)) else facets.get? key := by
    intro facets key
    split
    · rename_i hkey
      rw [hkey, get?_flagged_required]
    · rename_i hkey
      exact get?_flagged _ _ hkey
  exact h.map (fun key o => if key = "required" then some (flag isOptional o) else o)
    (.inl fun _ => rfl) (.inl fun _ => rfl) (hget ms) (hget ms')

end

/-! ### Declarations with moved bases -/

/-- What the trees of two declarations have to do with each other: one has the base type
in it and the other names it, or they are the same but for what is below. -/
def Shifts (N : String) (B : Members Json) : Bool → Members Json → Members Json → Prop
  | true => Rebased N B
  | false => Json.MovedBelow N B

section

variable {N name : String} {M : List (Value × Value)} {B ms ms' inner : Members Json}
  {P : List (Value × Value) → Prop} {root : Bool} {v v' : Value}

theorem Shifts.moved (h : Shifts N B root ms ms') : Json.Moved N B (.obj ms) (.obj ms') := by
  cases root with
  | true => exact .base h
  | false => exact .deeper h

theorem Shifts.flagged (h : Shifts N B root ms ms') (isOptional : Bool) :
    Shifts N B root (flagged isOptional ms) (flagged isOptional ms') := by
  cases root with
  | true => exact rebased_flagged h isOptional
  | false => exact movedBelow_flagged h isOptional

theorem Moves.exists_map (h : Moves N M P root v v') : ∃ es es', v = .map es ∧ v' = .map es' := by
  cases h <;> exact ⟨_, _, rfl, rfl⟩

/-- A declaration with a name says what it says without. -/
theorem get?_expand_named {es : List (Value × Value)} {name : Option String}
    (hinner : expandFacets [] [] es = .ok inner) (hms : expand name [] (.map es) = .ok ms)
    {key : String} (hkey : key ∉ NodeShape.authoringKeys) : ms.get? key = inner.get? key := by
  rw [expandFacets_eq, Except.map_eq_ok_iff] at hinner
  obtain ⟨fs, hfs, rfl⟩ := hinner
  rw [expand_map_eq, hfs] at hms
  obtain rfl := Except.ok.inj hms
  have hname : ∀ key, key ≠ "name" →
      (fs.foldl Facet.apply (named name)).get? key = (fs.foldl Facet.apply []).get? key := by
    intro key hkey
    rw [get?_foldl_apply, get?_foldl_apply, get?_named name hkey]
    rfl
  have hdefault : defaultType (fs.foldl Facet.apply (named name))
      = defaultType (fs.foldl Facet.apply []) := by
    unfold defaultType Members.contains
    rw [hname "properties" (by decide), hname "items" (by decide)]
  rw [get?_displayed, get?_withType_eq, get?_withType_eq, hname, hdefault]
  · rintro rfl
    simp [NodeShape.authoringKeys] at hkey
  · rintro rfl
    simp [NodeShape.authoringKeys] at hkey

theorem isSome_type_of_expandFacets {path : KeyPath} {out : Members Json}
    {es : List (Value × Value)} (h : expandFacets path out es = .ok ms) :
    (ms.get? "type").isSome := by
  rw [expandFacets_eq, Except.map_eq_ok_iff] at h
  obtain ⟨fs, -, rfl⟩ := h
  exact isSome_get?_withType _

/-- A mapping that gives the type is laid under the facets before it. -/
theorem GivesType.readEntry_map {k : Value} {es : List (Value × Value)} {f : Facet}
    (hk : GivesType k) (h : readEntry [] (k, .map es) = .ok f) :
    ∃ inner, expandFacets [] [] es = .ok inner ∧ f = .under inner := by
  obtain ⟨key, hkey, h⟩ := Except.bind_eq_ok_iff.mp h
  have hor : key = "type" ∨ key = "schema" :=
    hk.imp (fun h => Except.ok.inj (hkey.symm.trans h)) fun h => Except.ok.inj (hkey.symm.trans h)
  rw [readFacet, if_pos hor] at h
  obtain ⟨inner, hinner, rfl⟩ := Except.map_eq_ok_iff.mp h
  exact ⟨inner, expandFacets_eq_ok_iff.mp hinner, rfl⟩

/-- A name that gives the type is written. -/
theorem GivesType.readEntry_str {k : Value} {s : String} {f : Facet}
    (hk : GivesType k) (h : readEntry [] (k, .str s) = .ok f) :
    f = .write "type" (candidates s) := by
  obtain ⟨key, hkey, h⟩ := Except.bind_eq_ok_iff.mp h
  have hor : key = "type" ∨ key = "schema" :=
    hk.imp (fun h => Except.ok.inj (hkey.symm.trans h)) fun h => Except.ok.inj (hkey.symm.trans h)
  rw [readFacet, if_pos hor] at h
  exact (Except.ok.inj h).symm

theorem readEntry_items {k : Value} {es : List (Value × Value)} {f : Facet}
    (hk : keyText [] k = .ok "items") (h : readEntry [] (k, .map es) = .ok f) :
    ∃ inner, expandFacets [] [] es = .ok inner ∧ f = .write "items" (.obj inner) := by
  obtain ⟨key, hkey, h⟩ := Except.bind_eq_ok_iff.mp h
  obtain rfl := Except.ok.inj (hk.symm.trans hkey)
  obtain ⟨j, hj, rfl⟩ := Except.map_eq_ok_iff.mp h
  obtain ⟨inner, hinner, rfl⟩ := Except.map_eq_ok_iff.mp hj
  exact ⟨inner, expandFacets_eq_ok_iff.mp hinner, rfl⟩

theorem readEntry_properties {k : Value} {es : List (Value × Value)} {f : Facet}
    (hk : keyText [] k = .ok "properties") (h : readEntry [] (k, .map es) = .ok f) :
    ∃ entries, es.mapM (readProperty ["properties"]) = .ok entries ∧
      f = .write "properties" (.obj (Members.ofList entries)) := by
  obtain ⟨key, hkey, h⟩ := Except.bind_eq_ok_iff.mp h
  obtain rfl := Except.ok.inj (hk.symm.trans hkey)
  obtain ⟨ps, hps, rfl⟩ := Except.map_eq_ok_iff.mp h
  have hps : expandEntries ["properties"] [] es = .ok ps := hps
  rw [expandEntries_eq] at hps
  obtain ⟨entries, hentries, rfl⟩ := Except.map_eq_ok_iff.mp hps
  exact ⟨entries, hentries, rfl⟩

/-- Two lists of members with one member in which they differ. -/
theorem related_middle {R : Json → Json → Prop} (hrefl : ∀ j, R j j) {j j' : Json} (h : R j j')
    (key : String) (ms ns : Members Json) :
    List.Forall₂ (Labelled R) (ms ++ (key, j) :: ns) (ms ++ (key, j') :: ns) := by
  have hsame : ∀ es : Members Json, List.Forall₂ (Labelled R) es es := fun es =>
    List.forall₂_same.mpr fun e _ => ⟨rfl, hrefl e.2⟩
  exact List.rel_append (hsame ms) (.cons ⟨rfl, h⟩ (hsame ns))

/-- Writing related entries gives related members under the same keys. -/
theorem insertMany_related {R : Json → Json → Prop} {out out' entries entries' : Members Json}
    (h : List.Forall₂ (Labelled R) entries entries') (hkeys : out.keys = out'.keys)
    (hget : ∀ k, Option.Rel R (out.get? k) (out'.get? k)) :
    (out.insertMany entries).keys = (out'.insertMany entries').keys ∧
      ∀ k, Option.Rel R ((out.insertMany entries).get? k) ((out'.insertMany entries').get? k) := by
  induction h generalizing out out' with
  | nil => exact ⟨hkeys, hget⟩
  | @cons p q _ _ hpq _ ih =>
    apply ih
    · rw [Members.keys_insert, Members.keys_insert, hkeys, hpq.1]
    · intro k
      rw [Members.get?_insert, Members.get?_insert, hpq.1]
      split
      · exact .some hpq.2
      · exact hget k

/-! ### One step -/

/-- What is said of the trees of two values, whatever their name. -/
def Shifted (N : String) (B : Members Json) (root : Bool) (v v' : Value) : Prop :=
  ∀ name ms ms', expand name [] v = .ok ms → expand name [] v' = .ok ms' → Shifts N B root ms ms'

section

variable {pre post es es' : List (Value × Value)} {k : Value}

theorem Shifted.of_expandFacets (h : Shifted N B root (.map es) (.map es')) {inner' : Members Json}
    (hinner : expandFacets [] [] es = .ok inner) (hother : expandFacets [] [] es' = .ok inner') :
    Shifts N B root inner inner' :=
  h none inner inner' (Except.map_eq_ok_iff.mpr ⟨_, hinner, rfl⟩)
    (Except.map_eq_ok_iff.mpr ⟨_, hother, rfl⟩)

/-- Without a type before it, a type is written as it is laid under what is there. -/
theorem around_write {name : Option String} {as bs : List Facet} {j : Json}
    (h : said as "type" none = none) :
    around name as bs (.write "type" j) = around name as bs (.under [("type", j)]) := by
  have hnone : (as.foldl Facet.apply (named name)).get? "type" = none := by
    rw [get?_foldl_apply, get?_named name (by decide), h]
  have happly : Facet.apply (as.foldl Facet.apply (named name)) (.write "type" j)
      = Facet.apply (as.foldl Facet.apply (named name)) (.under [("type", j)]) := by
    simp [Facet.apply, underlay, Members.insertIfNew, Members.contains, hnone]
  rw [around, around, happly]

/-- The declaration itself has the base type. -/
theorem shifted_here (hB : expand (some N) [] (.map M) = .ok B) (hk : GivesType k)
    (hfits : Fits B (pre ++ post)) :
    Shifted N B true (.map (pre ++ (k, .map M) :: post)) (.map (pre ++ (k, .str N) :: post)) := by
  intro name ms ms' h h'
  obtain ⟨as, f, f', bs, has, hbs, hf, hf', rfl, rfl⟩ := expand_both h h'
  obtain ⟨inner, hinner, rfl⟩ := hk.readEntry_map hf
  obtain rfl := hk.readEntry_str hf'
  have hget : ∀ key ∉ NodeShape.authoringKeys, B.get? key = inner.get? key :=
    fun _ => get?_expand_named hinner hB
  have hbase : Rebased N B inner [("type", candidates N)] := by
    refine ⟨rfl, (hget "type" (by decide)).symm, fun key hkey hauthoring => ?_, nofun, nofun,
      hfits.required, ?_, rfl⟩
    · rw [hget key hauthoring]
      simp [Members.get?, hkey.symm]
    · rintro names ⟨⟩
      exact List.nodup_nil
  have htype : beside as bs "type" = none := hfits.beside_eq_none hbs has (by decide)
  rw [around_write (Option.or_eq_none_iff.mp htype).2]
  exact Rebased.around hfits hbs has hbase (isSome_type_of_expandFacets hinner) name

/-- Its own base type has it, or is the same but for what is below. -/
theorem shifted_type (hk : GivesType k) (hfits : root = true → Fits B (pre ++ post))
    (h : Shifted N B root (.map es) (.map es')) :
    Shifted N B root (.map (pre ++ (k, .map es) :: post))
      (.map (pre ++ (k, .map es') :: post)) := by
  intro name ms ms' hms hms'
  obtain ⟨as, f, f', bs, has, hbs, hf, hf', rfl, rfl⟩ := expand_both hms hms'
  obtain ⟨inner, hinner, rfl⟩ := hk.readEntry_map hf
  obtain ⟨inner', hother, rfl⟩ := hk.readEntry_map hf'
  have hshifts := h.of_expandFacets hinner hother
  cases root with
  | true =>
    exact Rebased.around (hfits rfl) hbs has hshifts (isSome_type_of_expandFacets hinner) name
  | false =>
    refine movedBelow_around ?_ bs
    have hsettles : ∀ key, Settles fun o =>
        ((as.foldl Facet.apply (named name)).get? key).or o := fun key => by
      rcases (as.foldl Facet.apply (named name)).get? key with - | w
      · exact .inl fun _ => rfl
      · exact .inr ⟨w, fun _ => rfl⟩
    exact hshifts.map (fun key o => ((as.foldl Facet.apply (named name)).get? key).or o)
      (hsettles _) (hsettles _) (get?_underlay _ inner) (get?_underlay _ inner')

theorem get?_apply_write {out : Members Json} {key k : String} (hkey : key ≠ k) (j : Json) :
    ((Facet.write k j).apply out).get? key = out.get? key := by
  rw [get?_apply, Facet.read, if_neg hkey.symm]

/-- Its items have it, or something in them. -/
theorem shifted_items (hk : keyText [] k = .ok "items")
    (h : Shifted N B root (.map es) (.map es')) :
    Shifted N B false (.map (pre ++ (k, .map es) :: post))
      (.map (pre ++ (k, .map es') :: post)) := by
  intro name ms ms' hms hms'
  obtain ⟨as, f, f', bs, has, hbs, hf, hf', rfl, rfl⟩ := expand_both hms hms'
  obtain ⟨inner, hinner, rfl⟩ := readEntry_items hk hf
  obtain ⟨inner', hother, rfl⟩ := readEntry_items hk hf'
  refine movedBelow_around ?_ bs
  refine .items (fun key hkey => ?_) (Members.get?_insert_self _ _ _)
    (Members.get?_insert_self _ _ _) (h.of_expandFacets hinner hother).moved
  rw [get?_apply_write hkey, get?_apply_write hkey]

/-- One of its properties has it, or something in that. -/
theorem shifted_property {ps qs : List (Value × Value)} {key : Value}
    (hk : keyText [] k = .ok "properties") (h : Shifted N B root v v') :
    Shifted N B false (.map (pre ++ (k, .map (ps ++ (key, v) :: qs)) :: post))
      (.map (pre ++ (k, .map (ps ++ (key, v') :: qs)) :: post)) := by
  intro name ms ms' hms hms'
  obtain ⟨as, f, f', bs, has, hbs, hf, hf', rfl, rfl⟩ := expand_both hms hms'
  obtain ⟨entries, hentries, rfl⟩ := readEntry_properties hk hf
  obtain ⟨entries', hentries', rfl⟩ := readEntry_properties hk hf'
  -- the property with the key is read anew, and the others are the same
  have hrelated : List.Forall₂ (Labelled (Json.Moved N B)) entries entries' := by
    obtain ⟨cs, p, ds, hcs, hp, hds, rfl⟩ := mapM_middle.mp hentries
    obtain ⟨cs', p', ds', hcs', hp', hds', rfl⟩ := mapM_middle.mp hentries'
    obtain rfl := Except.ok.inj (hcs.symm.trans hcs')
    obtain rfl := Except.ok.inj (hds.symm.trans hds')
    obtain ⟨text, htext, hp⟩ := Except.bind_eq_ok_iff.mp hp
    obtain ⟨facets, hfacets, hp⟩ := Except.bind_eq_ok_iff.mp hp
    obtain ⟨text', htext', hp'⟩ := Except.bind_eq_ok_iff.mp hp'
    obtain ⟨facets', hfacets', hp'⟩ := Except.bind_eq_ok_iff.mp hp'
    obtain rfl := Except.ok.inj (htext.symm.trans htext')
    obtain rfl := Except.ok.inj hp
    obtain rfl := Except.ok.inj hp'
    have hshifts := h _ facets facets' ((expand_eq_ok_iff v _ _ _).mp hfacets)
      ((expand_eq_ok_iff v' _ _ _).mp hfacets')
    exact related_middle Json.Moved.refl (hshifts.flagged _).moved _ cs ds
  obtain ⟨hkeys, hget⟩ := @insertMany_related _ [] [] _ _ hrelated rfl fun _ => .none
  refine movedBelow_around ?_ bs
  refine .properties (fun key hkey => ?_) (Members.get?_insert_self _ _ _)
    (Members.get?_insert_self _ _ _) hkeys fun key j j' hj hj' => ?_
  · rw [get?_apply_write hkey, get?_apply_write hkey]
  · have hrel : Option.Rel (Json.Moved N B) (some j) (some j') := hj ▸ hj' ▸ hget key
    cases hrel with
    | some hmoved => exact hmoved

end

/-- **A moved base type shows in the trees as such.** -/
theorem Moves.shifted (hB : expand (some N) [] (.map M) = .ok B)
    (h : Moves N M (Fits B) root v v') : Shifted N B root v v' := by
  induction h with
  | here hk hfits => exact shifted_here hB hk hfits
  | type hk hfits hmoves ih =>
    obtain ⟨es, es', rfl, rfl⟩ := hmoves.exists_map
    exact shifted_type hk hfits ih
  | items hk hmoves ih =>
    obtain ⟨es, es', rfl, rfl⟩ := hmoves.exists_map
    exact shifted_items hk ih
  | property hk _ ih => exact shifted_property hk ih

end

end Raml

end RamlSchema
