/-
RamlSchema/Proofs/Raml/Facets.lean

Declarations, facet by facet.

A facet is read by itself: what it says does not depend on the facets beside it.
Either it writes a member, or, where a declaration stands inside a declaration, it
lays members under those that are there (`Facet`).  So expanding a declaration is to
read all of its facets and then to apply them in their order, and the same goes for
properties and for the entries of plain data.

Main results: `expandFacets_eq`, `expandEntries_eq` and `dataEntries_eq`;
`expand_induction`, by which what holds of all that comes of declarations is told facet
by facet; and `expand_eq_ok_iff`, by which what comes of a declaration does not depend on
where it stands.
-/
import RamlSchema.Proofs.Except
import RamlSchema.Raml.Expand

namespace RamlSchema

/-! ### Values -/

namespace Yaml.Value

/-- What holds of a value whenever it holds of those right below holds of all values. -/
theorem below_induction {motive : Value → Prop}
    (null : motive .null) (bool : ∀ b, motive (.bool b)) (num : ∀ n, motive (.num n))
    (str : ∀ s, motive (.str s)) (seq : ∀ xs, (∀ x ∈ xs, motive x) → motive (.seq xs))
    (map : ∀ es, (∀ e ∈ es, motive e.2) → motive (.map es))
    (tagged : ∀ tag v, motive v → motive (.tagged tag v)) : ∀ v, motive v
  | .null => null
  | .bool b => bool b
  | .num n => num n
  | .str s => str s
  | .seq xs => seq xs fun x hx =>
    have := List.sizeOf_lt_of_mem hx
    below_induction null bool num str seq map tagged x
  | .map es => map es fun e he =>
    have : sizeOf e.2 < sizeOf es := by
      have hlt := List.sizeOf_lt_of_mem he
      have hsnd : sizeOf e = 1 + sizeOf e.1 + sizeOf e.2 := rfl
      omega
    below_induction null bool num str seq map tagged e.2
  | .tagged tag v => tagged tag v (below_induction null bool num str seq map tagged v)
termination_by v => sizeOf v

/-- The same with what is right below the mappings among the values below: these may be the
properties of a declaration. -/
theorem nested_induction {motive : Value → Prop}
    (null : motive .null) (bool : ∀ b, motive (.bool b)) (num : ∀ n, motive (.num n))
    (str : ∀ s, motive (.str s)) (seq : ∀ xs, motive (.seq xs))
    (map : ∀ es, (∀ e ∈ es, motive e.2) →
      (∀ e ∈ es, ∀ fs, e.2 = .map fs → ∀ p ∈ fs, motive p.2) → motive (.map es))
    (tagged : ∀ tag v, motive (.tagged tag v)) (v : Value) : motive v := by
  suffices h : motive v ∧ ∀ es, v = .map es → ∀ e ∈ es, motive e.2 from h.1
  induction v using below_induction with
  | null => exact ⟨null, nofun⟩
  | bool b => exact ⟨bool b, nofun⟩
  | num n => exact ⟨num n, nofun⟩
  | str s => exact ⟨str s, nofun⟩
  | seq xs _ => exact ⟨seq xs, nofun⟩
  | map es ih =>
    refine ⟨map es (fun e he => (ih e he).1) fun e he => (ih e he).2, fun fs hfs => ?_⟩
    cases hfs
    exact fun e he => (ih e he).1
  | tagged tag v _ => exact ⟨tagged tag v, nofun⟩

end Yaml.Value

namespace Raml

open Yaml

/-! ### Plain data -/

/-- An entry as a member. -/
def readMember (path : KeyPath) (e : Value × Value) : Except Error (String × Json) := do
  let key ← keyText path e.1
  let j ← data path e.2
  return (key, j)

theorem dataItems_eq (path : KeyPath) (xs : List Value) :
    dataItems path xs = xs.mapM (data path) := by
  induction xs with
  | nil => rfl
  | cons x xs ih => rw [List.mapM_cons, ← ih, dataItems]

theorem dataEntries_eq (path : KeyPath) (out : Members Json) (es : List (Value × Value)) :
    dataEntries path out es = (es.mapM (readMember path)).map out.insertMany := by
  induction es generalizing out with
  | nil => rfl
  | cons e es ih =>
    obtain ⟨k, v⟩ := e
    rw [dataEntries, List.mapM_cons, readMember]
    rcases keyText path k with cause | key
    · rfl
    · rcases data path v with cause | j
      · rfl
      · simp only [bind, Except.bind, ih]
        rcases es.mapM (readMember path) with cause | ms <;> rfl

/-! ### Facets -/

/-- What a facet says. -/
inductive Facet where
  /-- Its member is written. -/
  | write (key : String) (value : Json)
  /-- The members of a declaration count where there are none of the name. -/
  | under (inner : Members Json)

/-- The members with what a facet says. -/
def Facet.apply (out : Members Json) : Facet → Members Json
  | .write key value => out.insert key value
  | .under inner => underlay out inner

/-- What a facet gives where it stands for itself. -/
def Facet.value : Facet → Json
  | .write _ value => value
  | .under inner => .obj inner

/-- Reads the facet that gives the type. -/
def readType (path : KeyPath) : Value → Except Error Facet
  | .str expression => .ok (.write "type" (candidates expression))
  | .map es => (expandFacets path [] es).map .under
  | v => (data path v).map (.write "type")

/-- Reads a facet with the given key. -/
def readFacet (path : KeyPath) (key : String) (v : Value) : Except Error Facet :=
  if key = "type" ∨ key = "schema" then readType (path ++ [key]) v
  else if key = "properties" then
    (expandProperties (path ++ [key]) v).map fun ps => .write "properties" (.obj ps)
  else if key = "items" then (expandItems (path ++ [key]) v).map (.write "items")
  else (data (path ++ [key]) v).map (.write key)

/-- Reads an entry of a declaration. -/
def readEntry (path : KeyPath) (e : Value × Value) : Except Error Facet := do
  readFacet path (← keyText path e.1) e.2

theorem expandType_eq (path : KeyPath) (out : Members Json) (v : Value) :
    expandType path out v = (readType path v).map (Facet.apply out) := by
  cases v with
  | map es =>
    rw [expandType, readType]
    rcases expandFacets path [] es with cause | inner <;> rfl
  | str expression => rfl
  | _ =>
    rw [expandType, readType]
    · rcases data path _ with cause | j <;> rfl
    all_goals simp

/-- Items are read as types are. -/
theorem expandItems_eq (path : KeyPath) (v : Value) :
    expandItems path v = (readType path v).map Facet.value := by
  cases v with
  | map es =>
    rw [expandItems, readType]
    rcases expandFacets path [] es with cause | inner <;> rfl
  | str expression => rfl
  | _ =>
    rw [expandItems, readType]
    · rcases data path _ with cause | j <;> rfl
    all_goals simp

/-- The first entry is read, and what it says is applied before the others. -/
theorem expandFacets_cons (path : KeyPath) (out : Members Json) (e : Value × Value)
    (es : List (Value × Value)) :
    expandFacets path out (e :: es)
      = readEntry path e >>= fun f => expandFacets path (f.apply out) es := by
  obtain ⟨k, v⟩ := e
  rw [expandFacets, readEntry]
  rcases keyText path k with cause | key
  · rfl
  · simp only [bind, Except.bind, readFacet, Bool.or_eq_true, decide_eq_true_eq]
    split
    · rw [expandType_eq]
      rcases readType (path ++ [key]) v with cause | f <;> rfl
    · split
      · rcases expandProperties (path ++ [key]) v with cause | ps <;> rfl
      · split
        · rcases expandItems (path ++ [key]) v with cause | j <;> rfl
        · rcases data (path ++ [key]) v with cause | j <;> rfl

/-- **Expanding a declaration is reading its facets and applying them in their order.** -/
theorem expandFacets_eq (path : KeyPath) (out : Members Json) (es : List (Value × Value)) :
    expandFacets path out es
      = (es.mapM (readEntry path)).map fun fs => withType (fs.foldl Facet.apply out) := by
  induction es generalizing out with
  | nil => rfl
  | cons e es ih =>
    rw [expandFacets_cons, List.mapM_cons]
    rcases readEntry path e with cause | f
    · rfl
    · simp only [bind, Except.bind, ih]
      rcases es.mapM (readEntry path) with cause | fs <;> rfl

/-- What comes of a mapping is what its facets say, applied in their order. -/
theorem expand_map_eq (name : Option String) (path : KeyPath) (es : List (Value × Value)) :
    expand name path (.map es) = (es.mapM (readEntry path)).map fun fs =>
      displayed name (withType (fs.foldl Facet.apply (named name))) := by
  rw [expand, expandFacets_eq]
  cases es.mapM (readEntry path) <;> rfl

/-- A mapping in the place of a type or of items is a declaration without a name. -/
theorem expandFacets_eq_expand (path : KeyPath) (es : List (Value × Value)) :
    expandFacets path [] es = expand none path (.map es) := by
  rw [expand]
  cases hfacets : expandFacets path (named none) es <;> exact hfacets

/-- How a type is read: an expression, a declaration without a name, or else data. -/
theorem readType_cases {path : KeyPath} {v : Value} {f : Facet} (h : readType path v = .ok f) :
    (∃ expression, v = .str expression ∧ f = .write "type" (candidates expression)) ∨
      (∃ es inner, v = .map es ∧ expand none path (.map es) = .ok inner ∧ f = .under inner) ∨
      ∃ j, (∀ es, v ≠ .map es) ∧ data path v = .ok j ∧ f = .write "type" j := by
  cases v with
  | map es =>
    rw [readType, expandFacets_eq_expand, Except.map_eq_ok_iff] at h
    obtain ⟨inner, hinner, rfl⟩ := h
    exact .inr (.inl ⟨es, inner, rfl, hinner, rfl⟩)
  | str expression => exact .inl ⟨expression, rfl, (Except.ok.inj h).symm⟩
  | _ =>
    rw [readType, Except.map_eq_ok_iff] at h
    · obtain ⟨j, hj, rfl⟩ := h
      exact .inr (.inr ⟨j, nofun, hj, rfl⟩)
    all_goals simp

/-- What holds of all that comes of declarations, told facet by facet.  It holds of what
comes of an expression and of what is made by facets of some kind, and a facet is of that
kind if it holds of all that comes of the values of which the facet is read. -/
theorem expand_induction {P : Members Json → Prop} {F : Facet → Prop}
    (expression : ∀ name text, P (displayed name ((named name).insert "type" (candidates text))))
    (facets : ∀ name (fs : List Facet), (∀ f ∈ fs, F f) →
      P (displayed name (withType (fs.foldl Facet.apply (named name)))))
    (facet : ∀ path key v f, (∀ name path ms, expand name path v = .ok ms → P ms) →
      (∀ es, v = .map es → ∀ e ∈ es, ∀ name path ms, expand name path e.2 = .ok ms → P ms) →
      readFacet path key v = .ok f → F f)
    (v : Value) : ∀ name path ms, expand name path v = .ok ms → P ms := by
  induction v using Value.nested_induction with
  | null =>
    rintro name path ms ⟨⟩
    exact expression name "string"
  | str text =>
    rintro name path ms ⟨⟩
    exact expression name text
  | map es ih ihbelow =>
    intro name path ms h
    rw [expand_map_eq, Except.map_eq_ok_iff] at h
    obtain ⟨fs, hfs, rfl⟩ := h
    refine facets name fs fun f hf => ?_
    obtain ⟨e, he, hread⟩ := exists_of_mem_mapM hfs hf
    obtain ⟨key, -, hread⟩ := Except.bind_eq_ok_iff.mp hread
    exact facet path key e.2 f (ih e he) (ihbelow e he) hread
  | _ => exact nofun

/-! ### Properties -/

/-- Reads an entry of properties. -/
def readProperty (path : KeyPath) (e : Value × Value) : Except Error (String × Json) := do
  let key ← keyText path e.1
  let facets ← expand (some (propertyName key).1) (path ++ [key]) e.2
  return ((propertyName key).1, .obj (flagged (propertyName key).2 facets))

theorem expandEntries_eq (path : KeyPath) (out : Members Json) (es : List (Value × Value)) :
    expandEntries path out es = (es.mapM (readProperty path)).map out.insertMany := by
  induction es generalizing out with
  | nil => rfl
  | cons e es ih =>
    obtain ⟨k, v⟩ := e
    rw [expandEntries, List.mapM_cons, readProperty]
    rcases keyText path k with cause | key
    · rfl
    · rcases hfacets : expand (some (propertyName key).1) (path ++ [key]) v with cause | facets
      · simp [hfacets, bind, Except.bind, Except.map]
      · simp only [hfacets, bind, Except.bind, ih]
        rcases es.mapM (readProperty path) with cause | ms <;> rfl

/-! ### Places do not matter -/

section

variable {path : KeyPath}

theorem keyText_eq_ok_iff {k : Value} {key : String} :
    keyText path k = .ok key ↔ keyText [] k = .ok key := by
  rcases k with - | ⟨- | -⟩ | _ | _ | _ | _ | _ <;> simp [keyText]

theorem data_eq_ok_iff {v : Value} {j : Json} : data path v = .ok j ↔ data [] v = .ok j := by
  induction v using Value.below_induction generalizing j with
  | seq xs ih =>
    simp only [data, Except.map_eq_ok_iff, dataItems_eq]
    exact exists_congr fun js => and_congr_left' (mapM_eq_ok_congr fun x hx y => ih x hx)
  | map es ih =>
    simp only [data, Except.map_eq_ok_iff, dataEntries_eq]
    refine exists_congr fun js => and_congr_left' <| exists_congr fun ms => and_congr_left' <|
      mapM_eq_ok_congr fun e he y => ?_
    simp only [readMember, Except.bind_eq_ok_iff, @keyText_eq_ok_iff path, ih e he]
  | tagged tag v _ => exact ⟨nofun, nofun⟩
  | _ => rfl

/-- What comes of a value as a declaration does not depend on where it stands. -/
def Placeless (v : Value) : Prop :=
  ∀ name path ms, expand name path v = .ok ms ↔ expand name [] v = .ok ms

theorem Placeless.readType_eq_ok_iff {v : Value} (h : Placeless v) {f : Facet} :
    readType path v = .ok f ↔ readType [] v = .ok f := by
  cases v with
  | map es => simp only [readType, Except.map_eq_ok_iff, expandFacets_eq_expand, h none path]
  | str s => exact Iff.rfl
  | _ => simp only [readType, Except.map_eq_ok_iff, @data_eq_ok_iff path]

theorem readFacet_eq_ok_iff {key : String} {v : Value} {f : Facet} (hv : Placeless v)
    (hbelow : ∀ ps, v = .map ps → ∀ p ∈ ps, Placeless p.2) :
    readFacet path key v = .ok f ↔ readFacet [] key v = .ok f := by
  have hdata : ∀ j, data (path ++ [key]) v = .ok j ↔ data ([] ++ [key]) v = .ok j :=
    fun j => data_eq_ok_iff.trans data_eq_ok_iff.symm
  have htype : ∀ f, readType (path ++ [key]) v = .ok f ↔ readType ([] ++ [key]) v = .ok f :=
    fun f => hv.readType_eq_ok_iff.trans hv.readType_eq_ok_iff.symm
  unfold readFacet
  split
  · exact htype f
  · split
    · cases v with
      | map es =>
        simp only [Except.map_eq_ok_iff, expandProperties, expandEntries_eq]
        refine exists_congr fun ps => and_congr_left' <| exists_congr fun entries =>
          and_congr_left' <| mapM_eq_ok_congr fun e he y => ?_
        have hname : ∀ k, keyText (path ++ [key]) e.1 = .ok k ↔ keyText ([] ++ [key]) e.1 = .ok k :=
          fun k => keyText_eq_ok_iff.trans keyText_eq_ok_iff.symm
        have hfacets : ∀ name k ms, expand name (path ++ [key] ++ [k]) e.2 = .ok ms
            ↔ expand name ([] ++ [key] ++ [k]) e.2 = .ok ms := fun name k ms =>
          (hbelow es rfl e he _ _ _).trans (hbelow es rfl e he _ _ _).symm
        simp only [readProperty, Except.bind_eq_ok_iff, hname, hfacets]
      | _ => exact ⟨nofun, nofun⟩
    · split
      · simp only [expandItems_eq, Except.map_eq_ok_iff, htype]
      · simp only [Except.map_eq_ok_iff, hdata]

theorem expand_eq_ok_iff (v : Value) : Placeless v := by
  induction v using Value.nested_induction with
  | map es ih ihbelow =>
    intro name path ms
    simp only [expand_map_eq, Except.map_eq_ok_iff]
    refine exists_congr fun fs => and_congr_left' <| mapM_eq_ok_congr fun e he f => ?_
    simp only [readEntry, Except.bind_eq_ok_iff, @keyText_eq_ok_iff path]
    exact exists_congr fun key => and_congr_right' (readFacet_eq_ok_iff (ih e he) (ihbelow e he))
  | null => exact fun _ _ _ => Iff.rfl
  | str s => exact fun _ _ _ => Iff.rfl
  | _ => exact fun _ _ _ => ⟨nofun, nofun⟩

theorem expandFacets_eq_ok_iff {es : List (Value × Value)} {ms : Members Json} :
    expandFacets path [] es = .ok ms ↔ expandFacets [] [] es = .ok ms := by
  rw [expandFacets_eq_expand, expandFacets_eq_expand, expand_eq_ok_iff]

end

end Raml

end RamlSchema
