/-
RamlSchema/Proofs/Normalize/Errors.lean

Where errors point.

The path of an error is written down the tree of one type, step by step, and starts
anew at each type that is converted on the way, while the depth goes on.  A way leads
from the root of a tree to a node, or to items that are none (`Json.Way`).  What is
wrong there (`PointsAt`) is told from the value alone (`Json.Flawed`), from the types
in progress, or from the depth at which the node is visited.

Main results: `Json.Flawed.not_inOrder`, by which a flawed node is not in order, and
`errors_located`.
-/
import RamlSchema.Proofs.Normalize.Items
import RamlSchema.Proofs.Normalize.Places
import RamlSchema.Proofs.Normalize.Provenance

namespace RamlSchema

open Relation Json NodeShape

/-! ### Ways down a tree -/

namespace Json

/-- What a step leads to from a node: a property; below an array expression, the node that
stands for the element; the node that declared items stand for, or items that stand for
no node. -/
inductive StepsTo (ms : Members Json) : Step → Json → Prop
  | property {ps name c} :
      ms.get? "properties" = some (.obj ps) → (name, c) ∈ ps → StepsTo ms (.property name) c
  | element {e} :
      WritesType ms (some (.arrayOf e)) → '|' ∉ e.toList → StepsTo ms .items (.ofType (.str e))
  | items {v c} : DeclaresItems ms v → ItemsNode v c → StepsTo ms .items c
  | value {v} : DeclaresItems ms v → (∀ c, ¬ ItemsNode v c) → StepsTo ms .items v

/-- The ways from the root of a tree down to a value. -/
inductive Way (tree : Json) : List Step → Json → Prop
  | root : Way tree [] tree
  | step {steps ms step c} :
      Way tree steps (.obj ms) → StepsTo ms step c → Way tree (steps ++ [step]) c

/-- What is wrong by itself with a value that stands as a node, where the step `last?` has
led to it. -/
inductive Flawed (g : TypeGraph) (last? : Option Step) : Json → Malformation → Prop
  | notMapping {v : Json} : v.kind ≠ .mapping → Flawed g last? v (.notMapping v.kind)
  | properties {ms : Members Json} {v : Json} :
      ms.get? "properties" = some v → v.kind ∉ [.null, .mapping] →
      Flawed g last? (.obj ms) (.propertiesNotMapping v.kind)
  | type {ms : Members Json} {v : Json} :
      ms.get? "type" = some v → v.kind ∉ [.null, .string, .array] →
      Flawed g last? (.obj ms) (.typeNotString v.kind)
  | candidates {ms : Members Json} :
      ms.get? "type" = some (.arr []) → Flawed g last? (.obj ms) .noCandidate
  | candidate {ms : Members Json} {v : Json} {vs} :
      ms.get? "type" = some (.arr (v :: vs)) → v.kind ≠ .string →
      Flawed g last? (.obj ms) (.candidateNotString v.kind)
  | blank {ms : Members Json} {v s} :
      ms.get? "type" = some v → Says s v → TypeExpr.Blank s.toList →
      Flawed g last? (.obj ms) .blankType
  | member {ms : Members Json} {v s} :
      ms.get? "type" = some v → Says s v → ¬ TypeExpr.Blank s.toList →
      (∀ t, ¬ TypeExpr.Reads (Text.trimChars s.toList) t) →
      Flawed g last? (.obj ms) (.emptyMember (Text.trim s))
  | items {v : Json} :
      last? = some .items → v.kind ∉ [.string, .array, .mapping] →
      Flawed g last? v (.itemsNotType v.kind)
  | name {ms : Members Json} {v : Json} {vs} :
      ms.get? "required" = some (.arr vs) → v ∈ vs → v.kind ≠ .string →
      Flawed g last? (.obj ms) .requiredNotNames
  | required {ms : Members Json} {v : Json} :
      ms.get? "required" = some v → v.kind ∉ [.null, .boolean, .array] →
      Flawed g last? (.obj ms) .requiredNotList
  | object {ms ps : Members Json} {n} :
      ms.get? "properties" = some (.obj ps) → ps ≠ [] → ofJson (.obj ms) = .ok n →
      (∀ name, n.typeName? = some name → name ≠ "object" ∧ name ∉ g.names) →
      Flawed g last? (.obj ms) (.propertiesOnType (describeType n.schemaType))

end Json

variable {g : TypeGraph} {o : Options} {p : Progress} {l : Location} {raw c : Json}
  {ms : Members Json} {n : NodeShape} {step : Step} {last? : Option Step} {cause : Malformation}
  {name : String} {e : ConvertError}

/-- A part stands a step below its node. -/
theorem Json.stepsTo_of_part (hn : ofJson (.obj ms) = .ok n) (h : (step, .node c) ∈ n.parts) :
    StepsTo ms step c := by
  rcases List.mem_append.mp h with hitem | hproperty
  · obtain ⟨hpart, rfl⟩ : n.itemPart? = some (.node c) ∧ Step.items = step := by
      simpa [itemParts] using hitem
    rcases itemPart?_eq_node_iff.mp hpart with ⟨e, he, hbar, rfl⟩ | ⟨hnone, v, hv, hc⟩
    · exact .element ((writesType_arrayOf_iff hn).mpr he) hbar
    · obtain ⟨hget, hne⟩ := items?_eq_some_iff.mp hv
      rw [members_of_ofJson hn] at hget
      exact .items ⟨hget, hne, fun e he => hnone e ((writesType_arrayOf_iff hn).mp he)⟩ hc
  · obtain ⟨⟨name, v⟩, hmem, hpair⟩ := List.mem_map.mp hproperty
    obtain ⟨rfl, rfl⟩ : Step.property name = step ∧ v = c := by simpa using hpair
    rcases hps : n.properties with - | ps
    · simp [hps] at hmem
    · rw [hps] at hmem
      exact .property ((properties_eq_some_iff hn).mp hps) hmem

theorem descend_flatMap_keys (U : String) (steps : List Step) (step : Step) :
    (⟨U, steps.flatMap Step.keys⟩ : Location).descend step.keys
      = ⟨U, (steps ++ [step]).flatMap Step.keys⟩ := by
  rw [Location.descend, List.flatMap_append, List.flatMap_singleton]

/-- To a node at its place leads a way of that place's keys. -/
theorem TypeGraph.NodeAt.way (h : g.NodeAt l raw) :
    ∃ U tree steps, l = ⟨U, steps.flatMap Step.keys⟩ ∧ g.tree? U = some tree ∧
      tree.Way steps raw := by
  induction h with
  | root htree => exact ⟨_, _, [], rfl, htree, .root⟩
  | @part l raw n step c _ hn hpart ih =>
    obtain ⟨U, tree, steps, rfl, htree, hway⟩ := ih
    obtain ⟨ms, rfl⟩ : ∃ ms, raw = .obj ms := ⟨n.members, (of_ofJson hn).1⟩
    exact ⟨U, tree, steps ++ [step], descend_flatMap_keys U steps step, htree,
      hway.step (stepsTo_of_part hn hpart)⟩

/-! ### Flaws -/

theorem NodeShape.nonblank_eq_error {s : String} (h : nonblank s = .error cause) :
    TypeExpr.Blank s.toList ∧ cause = .blankType := by
  by_cases hblank : TypeExpr.Blank s.toList
  · simp only [nonblank] at h
    split at h
    · exact ⟨hblank, (Except.error.inj h).symm⟩
    · cases h
  · rw [nonblank_eq_ok_iff.mpr ⟨hblank, rfl⟩] at h
    cases h

/-- A text that does not pass is blank. -/
theorem Json.flawed_of_says {s : String} {v : Json} (hget : ms.get? "type" = some v)
    (hsaid : Says s v) (h : typeText (some v) = .error cause) : Flawed g last? (.obj ms) cause := by
  rw [hsaid.typeText_eq] at h
  obtain ⟨hblank, rfl⟩ := nonblank_eq_error (Except.map_eq_error_iff.mp h)
  exact .blank hget hsaid hblank

/-- A type that gives no text is flawed. -/
theorem Json.flawed_of_typeText (h : typeText (ms.get? "type") = .error cause) :
    Flawed g last? (.obj ms) cause := by
  rcases hget : ms.get? "type" with - | (- | b | x | s | (- | ⟨v, vs⟩) | ns) <;> rw [hget] at h
  case some.str => exact flawed_of_says hget .text h
  case some.arr.nil =>
    obtain rfl := Except.error.inj h
    exact .candidates hget
  case some.arr.cons =>
    rcases v with - | b | x | s | js | ns
    case str => exact flawed_of_says hget (.candidate vs) h
    all_goals
      obtain rfl := Except.error.inj h
      exact .candidate hget (by simp [kind])
  all_goals
    cases h
    try exact .type hget (by simp [kind])

/-- Properties that are no mapping are flawed. -/
theorem Json.flawed_of_propertiesOf (h : propertiesOf (ms.get? "properties") = .error cause) :
    Flawed g last? (.obj ms) cause := by
  rcases hget : ms.get? "properties" with - | (- | b | x | s | js | ns) <;> rw [hget] at h
  all_goals
    cases h
    try exact .properties hget (by simp [kind])

/-- A text that is no expression is flawed, and no text gives an object at most. -/
theorem Json.flawed_of_typeOf {ps : Option (Members Json)} {text : Option String}
    (htext : typeText (ms.get? "type") = .ok text)
    (h : (text <|> ps.map fun _ => "object").mapM typeOf = .error cause) :
    Flawed g last? (.obj ms) cause := by
  rcases text with - | text
  · have hobject : typeOf "object" = .ok (.named "object") := rfl
    rcases ps with - | ps <;> simp [hobject] at h
    cases h
  · have herror : typeOf text = .error cause := by
      rcases ht : typeOf text with e | t
      · simpa [ht] using h
      · simp [ht] at h
    obtain ⟨s, j, hget, hsaid, rfl⟩ := says_of_typeText htext
    obtain ⟨hnone, rfl⟩ := typeOf_eq_error_iff.mp herror
    rw [hget, hsaid.typeText_eq] at htext
    obtain ⟨text, hs, -⟩ := Except.map_eq_ok_iff.mp htext
    refine .member hget hsaid (nonblank_eq_ok_iff.mp hs).1 fun t ht => ?_
    cases hnone.symm.trans (TypeExpr.reads_iff.mp ht)

/-- **A node without a shape is flawed.** -/
theorem Json.flawed_of_ofJson (h : ofJson raw = .error cause) : raw.Flawed g last? cause := by
  rcases raw with - | b | x | s | js | ms
  case obj =>
    obtain hps | ⟨ps, -, h⟩ := Except.bind_eq_error_iff.mp h
    · exact flawed_of_propertiesOf hps
    obtain htext | ⟨text, htext, h⟩ := Except.bind_eq_error_iff.mp h
    · exact flawed_of_typeText htext
    obtain htype | ⟨type, -, h⟩ := Except.bind_eq_error_iff.mp h
    · exact flawed_of_typeOf htext htype
    · cases h
  all_goals
    obtain rfl := Except.error.inj h
    exact .notMapping (by simp [kind])

/-- Items that do not pass stand for no node. -/
theorem NodeShape.flawed_of_checkItems (hn : ofJson (.obj ms) = .ok n)
    (h : n.checkItems = .error cause) :
    ∃ v, StepsTo ms .items v ∧ v.Flawed g (some .items) cause := by
  unfold checkItems at h
  split at h
  · cases h
  · rename_i hnone
    have htype : ∀ e, ¬ WritesType ms (some (.arrayOf e)) :=
      fun e he => hnone e ((writesType_arrayOf_iff hn).mp he)
    rcases hi : n.items? with - | v <;> rw [hi] at h
    · cases h
    · obtain ⟨hget, hne⟩ := items?_eq_some_iff.mp hi
      rw [members_of_ofJson hn] at hget
      have hkind : v.kind ∉ [.string, .array, .mapping] ∧ cause = .itemsNotType v.kind := by
        rcases v with - | b | x | s | js | ns <;> cases h <;> simp [kind]
      refine ⟨v, .value ⟨hget, hne, htype⟩ ?_, hkind.2 ▸ .items rfl hkind.1⟩
      rintro c (s | js | ns) <;> simp [kind] at hkind

theorem NodeShape.namesOf_eq_error {vs : List Json} (h : namesOf vs = .error cause) :
    cause = .requiredNotNames ∧ ∃ v ∈ vs, v.kind ≠ .string := by
  induction vs with
  | nil => cases h
  | cons v vs ih =>
    rcases v with - | b | x | s | js | ns
    case str =>
      obtain ⟨hcause, w, hw, hkind⟩ := ih (Except.map_eq_error_iff.mp h)
      exact ⟨hcause, w, List.mem_cons_of_mem _ hw, hkind⟩
    all_goals
      obtain rfl := Except.error.inj h
      exact ⟨rfl, _, List.mem_cons_self, by simp [kind]⟩

theorem NodeShape.flawed_of_checkRequired (hn : ofJson (.obj ms) = .ok n)
    (h : n.checkRequired = .error cause) : Flawed g last? (.obj ms) cause := by
  have hlisted : listed (ms.get? "required") = .error cause := by
    rw [checkRequired, members_of_ofJson hn] at h
    exact Except.map_eq_error_iff.mp h
  rcases hget : ms.get? "required" with - | (- | b | x | s | vs | ns) <;> rw [hget] at hlisted
  case some.arr =>
    obtain ⟨rfl, v, hv, hkind⟩ := namesOf_eq_error hlisted
    exact .name hget hv hkind
  all_goals
    cases hlisted
    try exact .required hget (by simp [kind])

theorem NodeShape.flawed_of_checkProperties (hn : ofJson (.obj ms) = .ok n)
    (h : n.checkProperties g = .error cause) : Flawed g last? (.obj ms) cause := by
  unfold checkProperties at h
  split at h
  · rename_i hfail
    obtain rfl := Except.error.inj h
    rcases hps : n.properties with - | ps <;> simp [hps] at hfail
    obtain ⟨hne, hmay⟩ := hfail
    refine .object ((properties_eq_some_iff hn).mp hps) hne hn fun name hname => ?_
    rw [← Bool.not_eq_true, mayHaveProperties_iff] at hmay
    exact ⟨fun h => hmay ⟨name, hname, .inl h⟩, fun h => hmay ⟨name, hname, .inr h⟩⟩
  · cases h

/-- A node that does not pass a check is flawed, or its items are. -/
theorem NodeShape.flawed_of_fail (last? : Option Step) (hn : ofJson (.obj ms) = .ok n)
    (h : .fail e ∈ n.tasks g l) :
    (∃ cause, e = .malformed l cause ∧ Flawed g last? (.obj ms) cause) ∨
      ∃ v cause, e = .malformed (l.descend ["items"]) cause ∧ StepsTo ms .items v ∧
        v.Flawed g (some .items) cause := by
  rcases fail_mem_tasks.mp h with ⟨cause, hc, rfl⟩ | ⟨cause, hc, rfl⟩ | ⟨cause, hc, rfl⟩
  · obtain ⟨v, hstep, hv⟩ := flawed_of_checkItems hn hc
    exact .inr ⟨v, cause, rfl, hstep, hv⟩
  · exact .inl ⟨cause, rfl, flawed_of_checkRequired hn hc⟩
  · exact .inl ⟨cause, rfl, flawed_of_checkProperties hn hc⟩

theorem NodeShape.Says.unique {s s' : String} {v : Json} (h : Says s v) (h' : Says s' v) :
    s = s' := by
  cases h <;> cases h' <;> rfl

/-- **A node that is flawed is not in order.** -/
theorem Json.Flawed.not_inOrder (h : Flawed g last? (.obj ms) cause) : ¬ InOrder g ms := by
  rintro ⟨⟨t, ht⟩, hproperties, -, hrequired, hobject⟩
  have htype : ∀ v, ms.get? "type" = some v → v = .null ∨ ∃ s t, Says s v ∧
      ¬ TypeExpr.Blank s.toList ∧ TypeExpr.Reads (Text.trimChars s.toList) t := by
    intro v hv
    cases ht with
    | absent hget => cases hget.symm.trans hv
    | null hget => exact .inl (Option.some.inj (hget.symm.trans hv)).symm
    | written hget hsaid hblank hreads =>
      obtain rfl := Option.some.inj (hget.symm.trans hv)
      exact .inr ⟨_, _, hsaid, hblank, hreads⟩
  cases h with
  | notMapping hkind => exact hkind rfl
  | properties hget hkind =>
    obtain rfl | ⟨ps, rfl⟩ := hproperties _ hget <;> simp [kind] at hkind
  | type hget hkind =>
    obtain rfl | ⟨s, t, ⟨⟩, -⟩ := htype _ hget <;> simp [kind] at hkind
  | candidates hget =>
    obtain h | ⟨s, t, h, -⟩ := htype _ hget <;> cases h
  | candidate hget hkind =>
    obtain h | ⟨s, t, h, -⟩ := htype _ hget <;> cases h
    exact hkind rfl
  | blank hget hsaid hblank =>
    obtain rfl | ⟨s, t, hsaid', hnonblank, -⟩ := htype _ hget
    · cases hsaid
    · exact hnonblank (hsaid.unique hsaid' ▸ hblank)
  | member hget hsaid _ hreads =>
    obtain rfl | ⟨s, t, hsaid', -, hreads'⟩ := htype _ hget
    · cases hsaid
    · exact hreads t (hsaid.unique hsaid' ▸ hreads')
  | items _ hkind => simp [kind] at hkind
  | name hget hv hkind =>
    obtain h | ⟨b, h⟩ | ⟨names, h⟩ := hrequired _ hget <;> cases h
    obtain ⟨s, -, rfl⟩ := List.mem_map.mp hv
    exact hkind rfl
  | required hget hkind =>
    obtain rfl | ⟨b, rfl⟩ | ⟨names, rfl⟩ := hrequired _ hget <;> simp [kind] at hkind
  | object hget hne hn hname =>
    obtain ⟨t, name, ht, hsingle, hok⟩ := hobject _ hget hne
    rw [← typeName?_eq_singleType hn ht ((properties_eq_some_iff hn).mpr hget)] at hsingle
    obtain ⟨hnotObject, hnotDeclared⟩ := hname name hsingle
    exact hok.elim hnotObject hnotDeclared

/-! ### Errors -/

/-- The error of a call of `name` from the progress `p` points at the end of a way down the
tree of `U`, and something is the matter there. -/
inductive PointsAt (g : TypeGraph) (o : Options) (name : String) (p : Progress) (U : String)
    (steps : List Step) (raw : Json) : ConvertError → Prop
  | malformed {cause : Malformation} :
      raw.Flawed g steps.getLast? cause →
      PointsAt g o name p U steps raw (.malformed ⟨U, steps.flatMap Step.keys⟩ cause)
  /-- Its single type is in progress, and so is `U`, the last type before it is reached
  again. -/
  | cyclic {n : NodeShape} {T cycle} :
      o.onCycle = .error → ofJson raw = .ok n → n.typeName? = some T → cycle.head? = some T →
      cycle.dropLast.getLast? = some U → RoundTrip g cycle →
      PointsAt g o name p U steps raw (.cyclic ⟨U, steps.flatMap Step.keys⟩ cycle)
  | tooDeep {q} :
      Visits g o name p (o.maxDepth + 1) ⟨U, steps.flatMap Step.keys⟩ raw q →
      PointsAt g o name p U steps raw (.tooDeep ⟨U, steps.flatMap Step.keys⟩ o.maxDepth)

theorem PointsAt.location {U : String} {steps : List Step} (h : PointsAt g o name p U steps raw e) :
    e.location = ⟨U, steps.flatMap Step.keys⟩ := by
  cases h <;> rfl

/-- To a node that is visited leads a way down the tree of a type to which the called one
leads. -/
theorem Visits.way {d : Nat} {q : Progress} (hp : p.Idle g o) (h : Visits g o name p d l raw q) :
    ∃ U tree steps, l = ⟨U, steps.flatMap Step.keys⟩ ∧ ReflTransGen (References g) name U ∧
      g.tree? U = some tree ∧ tree.Way steps raw := by
  obtain ⟨-, hstands, hreach⟩ := h.stands hp
  obtain ⟨U, tree, steps, rfl, htree, hway⟩ := (hstands.nodeAt raw rfl).way
  exact ⟨U, tree, steps, rfl, hreach, htree, hway⟩

/-- What is raised at a node points at it, or at its items. -/
theorem Raises.pointsAt (hp : p.Idle g o) (h : Raises g o name p e) :
    ∃ U tree steps raw, ReflTransGen (References g) name U ∧ g.tree? U = some tree ∧
      tree.Way steps raw ∧ PointsAt g o name p U steps raw e := by
  cases h with
  | @shape d l raw q cause hv hs =>
    obtain ⟨U, tree, steps, rfl, hreach, htree, hway⟩ := hv.way hp
    exact ⟨U, tree, steps, raw, hreach, htree, hway, .malformed (flawed_of_ofJson hs)⟩
  | @check d l raw q n e hv hs hfail =>
    obtain ⟨U, tree, steps, rfl, hreach, htree, hway⟩ := hv.way hp
    obtain ⟨ms, rfl⟩ : ∃ ms, raw = .obj ms := ⟨n.members, (of_ofJson hs).1⟩
    obtain ⟨cause, rfl, hflawed⟩ | ⟨v, cause, rfl, hstep, hflawed⟩ :=
      flawed_of_fail steps.getLast? hs hfail
    · exact ⟨U, tree, steps, _, hreach, htree, hway, .malformed hflawed⟩
    · -- items that are no node stand a step further down
      refine ⟨U, tree, _, v, hreach, htree, hway.step hstep,
        descend_flatMap_keys U steps .items ▸ .malformed ?_⟩
      rwa [List.getLast?_concat]
  | @cycle d l raw q n done q' T hv hs htasks hT hmem ho =>
    obtain ⟨hq, hl, -⟩ := hv.stands hp
    have hlead := hl.leads hq hs (List.append_nil _).symm htasks
    obtain ⟨hround, hfirst, hlast⟩ := (hlead.valid hq).roundTrip (hl.of_leads hlead).current
      (hl.references hs hT) hmem
    obtain ⟨U, tree, steps, rfl, hreach, htree, hway⟩ := hv.way hp
    exact ⟨U, tree, steps, raw, hreach, htree, hway,
      .cyclic ho hs (NodeShape.declared?_eq_some_iff.mp hT).1 hfirst hlast hround⟩
  | @limit l raw q hv =>
    obtain ⟨U, tree, steps, rfl, hreach, htree, hway⟩ := hv.way hp
    exact ⟨U, tree, steps, raw, hreach, htree, hway, .tooDeep hv⟩

/-- **Errors point at the node that is to blame.**  In any state of a session, the path of
an error of a call starts at the root of a type to which the called one leads, and its
keys, escaped, are those along a way down the tree of that type.  At the end of the way
stands a value that is malformed by itself, or a node whose single type is in progress,
or a node that is visited one level too deep. -/
theorem errors_located (hp : p.Reachable g o) (hname : name ∈ g.names)
    (he : (call g o p name).1 = .error e) :
    ∃ U tree steps raw, ReflTransGen (References g) name U ∧ g.tree? U = some tree ∧
      tree.Way steps raw ∧
      e.location.text = Pointer.append (Pointer.root U) (steps.flatMap Step.keys) ∧
      PointsAt g o name p U steps raw e := by
  obtain ⟨U, tree, steps, raw, hreach, htree, hway, hpoints⟩ :=
    (call_raises hname he).pointsAt hp.idle
  refine ⟨U, tree, steps, raw, hreach, htree, hway, ?_, hpoints⟩
  rw [hpoints.location, Location.text]

/-- A box is reached through the elements of an array, and a property of it has items that
are none. -/
def shelfGraph : TypeGraph :=
  .ofList
    [("Shelf", .ofProperties [("boxes", .ofType (.str "Box[]"))]),
      ("Box", .ofProperties [("a/b~c", .obj [("items", .num (.whole 3))])]),
      ("Loop", .ofProperties [("next", .ofType (.str "Loop"))])]

/-- The shelf fails in the tree of the box, when the box has failed before. -/
theorem errors_located_shelf :
    ∃ e tree steps raw,
      (call shelfGraph {} (calls shelfGraph {} {} ["Box"]).2 "Shelf").1 = .error e ∧
      e.location.text = "Box#/properties/a~1b~0c/items" ∧
      ReflTransGen (References shelfGraph) "Shelf" "Box" ∧ shelfGraph.tree? "Box" = some tree ∧
      tree.Way steps raw ∧ raw.Flawed shelfGraph steps.getLast? (.itemsNotType .number) := by
  have hcall : (call shelfGraph {} (calls shelfGraph {} {} ["Box"]).2 "Shelf").1
      = .error (.malformed ⟨"Box", ["properties", "a/b~c", "items"]⟩ (.itemsNotType .number)) :=
    rfl
  obtain ⟨U, tree, steps, raw, hreach, htree, hway, -, hpoints⟩ :=
    errors_located (reachable_calls .start ["Box"]) (by decide) hcall
  obtain rfl : "Box" = U := congrArg Location.typeName hpoints.location
  generalize herror : ConvertError.malformed _ _ = e at hpoints
  cases hpoints with
  | malformed hflawed =>
    obtain rfl := (ConvertError.malformed.inj herror).2
    exact ⟨_, tree, steps, raw, hcall, by decide, hreach, htree, hway, hflawed⟩
  | cyclic => cases herror
  | tooDeep => cases herror

/-- A cycle that is not broken, and the tree of the box one level too deep. -/
example :
    (call shelfGraph { onCycle := .error } {} "Loop").1
        = .error (.cyclic ⟨"Loop", ["properties", "next"]⟩ ["Loop", "Loop"]) ∧
      (call shelfGraph { maxDepth := 2 } {} "Shelf").1 = .error (.tooDeep ⟨"Box", []⟩ 2) :=
  ⟨rfl, rfl⟩

end RamlSchema
