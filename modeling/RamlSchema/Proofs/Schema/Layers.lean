/-
RamlSchema/Proofs/Schema/Layers.lean

Keywords of several nodes laid over a schema, one after another.

Each kind of keyword comes out of the layers in its own way.  Names, be they of
properties, of facets or of what is required, are those of the schema with those of the
layers behind them, each where it comes first.  What stands under a name, and the items,
are those of the last layer that has them.

Main results: `at?_layers` and `get?_extra_layers` for what stands under a name, and
`propertyNames_layers`, `keys_extra_layers` and `required_layers` for the names.
-/
import RamlSchema.Proofs.Normalize.Likeness

namespace RamlSchema

/-! ### Names in the order in which they come first -/

namespace Names

/-- Names that are appended are those that are new, each where it comes first. -/
theorem addAll_eq (names more : List String) :
    addAll names more = names ++ (more.removeAll names).eraseDups := by
  induction more generalizing names with
  | nil => simp [addAll]
  | cons name more ih =>
    show addAll (add names name) more = _
    rw [ih, add]
    by_cases hname : name ∈ names
    · simp [hname, List.removeAll]
    · have hfilter : more.removeAll (names ++ [name])
          = (more.removeAll names).filter fun n => !n == name := by
        simp only [List.removeAll, List.filter_filter]
        refine List.filter_congr fun n _ => ?_
        simp [Bool.and_comm, Bool.beq_eq_decide_eq]
      have hcons : (name :: more).removeAll names = name :: more.removeAll names := by
        simp [List.removeAll, hname]
      rw [if_neg hname, hfilter, hcons, List.eraseDups_cons]
      simp

theorem addAll_nil (names : List String) : addAll [] names = names.eraseDups := by
  simp [addAll_eq, List.removeAll]

theorem eraseDups_of_nodup {names : List String} (h : names.Nodup) : names.eraseDups = names := by
  induction names with
  | nil => rfl
  | cons name names ih =>
    obtain ⟨hname, hrest⟩ := List.nodup_cons.mp h
    have hfilter : (names.filter fun n => !n == name) = names :=
      List.filter_eq_self.mpr fun n hn => by
        simpa using fun he : n = name => hname (he ▸ hn)
    rw [List.eraseDups_cons, hfilter, ih hrest]

/-- Names without repetition stay where they are when others are appended. -/
theorem eraseDups_append_of_nodup {names : List String} (h : names.Nodup) (more : List String) :
    (names ++ more).eraseDups = addAll names more := by
  rw [List.eraseDups_append, eraseDups_of_nodup h, addAll_eq]

theorem addAll_append (names more others : List String) :
    addAll names (more ++ others) = addAll (addAll names more) others :=
  List.foldl_append

/-- It makes no difference whether the names in each of several lists are put together
before they are appended. -/
theorem addAll_flatMap {α : Type} (names : List String) (xs : List α) (f f' : α → List String) :
    addAll names (xs.flatMap fun x => addAll (f x) (f' x))
      = addAll names (xs.flatMap fun x => f x ++ f' x) := by
  induction xs generalizing names with
  | nil => rfl
  | cons x xs ih =>
    simp only [List.flatMap_cons, addAll_append, addAll_addAll, ih]

end Names

namespace Members

variable {α : Type}

/-- Keys that are written are appended where they are new. -/
theorem keys_insertMany (ms : Members α) (entries : List (String × α)) :
    (ms.insertMany entries).keys = Names.addAll ms.keys (keys entries) := by
  induction entries generalizing ms with
  | nil => rfl
  | cons e es ih =>
    show ((ms.insert e.1 e.2).insertMany es).keys = Names.addAll (Names.add ms.keys e.1) (keys es)
    rw [ih, keys_insert, Names.add]

end Members

/-! ### Layers -/

namespace SchemaNode

variable {base : SchemaNode} {sites : List SchemaNode}

/-- A schema with the keywords of several nodes laid over it, in order. -/
def layers (base : SchemaNode) (sites : List SchemaNode) : SchemaNode :=
  sites.foldl overlay base

/-- The names of the properties of a node. -/
def propertyNames (n : SchemaNode) : List String :=
  Members.keys (n.properties.getD [])

theorem layers_append (base : SchemaNode) (sites : List SchemaNode) (site : SchemaNode) :
    base.layers (sites ++ [site]) = (base.layers sites).overlay site := by
  simp [layers]

/-- What is never a site's is that of the schema. -/
theorem layers_root (base : SchemaNode) (sites : List SchemaNode) :
    (base.layers sites).schema = base.schema ∧ (base.layers sites).reference = base.reference ∧
      (base.layers sites).type = base.type := by
  induction sites using List.reverseRecOn with
  | nil => exact ⟨rfl, rfl, rfl⟩
  | append_singleton sites site ih =>
    rw [layers_append]
    exact ih

theorem isSome_properties_layers (base : SchemaNode) (sites : List SchemaNode) :
    (base.layers sites).properties.isSome
      = (base :: sites).any fun n => n.properties.isSome := by
  induction sites using List.reverseRecOn with
  | nil => simp [layers]
  | append_singleton sites site ih =>
    rw [layers_append, ← List.cons_append, List.any_append, ← ih]
    rcases hps : site.properties with - | ps <;> simp [overlay, overlayProperties, hps]

theorem propertyNames_overlay (base site : SchemaNode) :
    (base.overlay site).propertyNames = Names.addAll base.propertyNames site.propertyNames := by
  rcases hps : site.properties with - | ps
  · simp [propertyNames, overlay, overlayProperties, hps, Names.addAll, Members.keys]
  · simp [propertyNames, overlay, overlayProperties, hps, Members.keys_insertMany]

/-- **Properties keep the order in which they are first declared.** -/
theorem propertyNames_layers (base : SchemaNode) (sites : List SchemaNode) :
    (base.layers sites).propertyNames
      = Names.addAll base.propertyNames (sites.flatMap propertyNames) := by
  induction sites using List.reverseRecOn with
  | nil => rfl
  | append_singleton sites site ih =>
    rw [layers_append, propertyNames_overlay, ih, List.flatMap_append, Names.addAll_append,
      List.flatMap_singleton]

/-- So do facets. -/
theorem keys_extra_layers (base : SchemaNode) (sites : List SchemaNode) :
    Members.keys (base.layers sites).extra
      = Names.addAll (Members.keys base.extra) (sites.flatMap fun n => Members.keys n.extra) := by
  induction sites using List.reverseRecOn with
  | nil => rfl
  | append_singleton sites site ih =>
    rw [layers_append, List.flatMap_append, Names.addAll_append, List.flatMap_singleton, ← ih]
    exact Members.keys_insertMany _ _

/-- **The last layer that has something at a step is the one that counts.** -/
theorem at?_layers (h : ∀ site ∈ sites, site.Distinct) (step : Step) :
    (base.layers sites).at? step = (base :: sites).reverse.findSome? fun n => n.at? step := by
  induction sites using List.reverseRecOn with
  | nil => simp [layers]
  | append_singleton sites site ih =>
    rw [layers_append, at?_overlay _ (h site (by simp)), ih fun n hn => h n (by simp [hn]),
      ← List.cons_append, List.reverse_append, List.findSome?_append]
    simp

theorem get?_extra_layers (h : ∀ site ∈ sites, site.Distinct) (key : String) :
    Members.get? (base.layers sites).extra key
      = (base :: sites).reverse.findSome? fun n => Members.get? n.extra key := by
  induction sites using List.reverseRecOn with
  | nil => simp [layers]
  | append_singleton sites site ih =>
    have hsite : Members.get? ((base.layers sites).overlay site).extra key = _ :=
      Members.get?_insertMany _ (h site (by simp)).extra key
    rw [layers_append, hsite, ih fun n hn => h n (by simp [hn]), ← List.cons_append,
      List.reverse_append, List.findSome?_append]
    simp

/-- Required names, which are left out where there are none. -/
def named (names : List String) : Option (List String) :=
  if names.isEmpty then none else some names

@[simp] theorem getD_named (names : List String) : (named names).getD [] = names := by
  cases names <;> rfl

/-- The names that a node requires. -/
def requiredNames (n : SchemaNode) : List String :=
  n.required.getD []

theorem required_eq_named {n : SchemaNode} (h : n.required ≠ some []) :
    n.required = named n.requiredNames := by
  rcases hnames : n.required with - | (- | ⟨name, names⟩)
  · simp [named, requiredNames, hnames]
  · exact absurd hnames h
  · simp [named, requiredNames, hnames]

/-- **Required names are appended layer by layer**, where they are new. -/
theorem required_layers (h : ∀ n ∈ base :: sites, n.required ≠ some []) :
    (base.layers sites).required
      = named (Names.addAll base.requiredNames (sites.flatMap requiredNames)) := by
  induction sites using List.reverseRecOn with
  | nil => exact required_eq_named (h base (by simp))
  | append_singleton sites site ih =>
    have hbefore := ih fun n hn => h n (by simp at hn ⊢; tauto)
    have hsite : site.required = named site.requiredNames := required_eq_named (h site (by simp))
    have hlast : ((base.layers sites).overlay site).required
        = overlayRequired (base.layers sites).required site.required := rfl
    rw [layers_append, hlast, hbefore, hsite, List.flatMap_append, Names.addAll_append,
      List.flatMap_singleton]
    exact NodeShape.overlayRequired_names _ _

end SchemaNode

end RamlSchema
