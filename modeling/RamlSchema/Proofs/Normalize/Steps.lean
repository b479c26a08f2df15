/-
RamlSchema/Proofs/Normalize/Steps.lean

The conversion as a system that takes step after step.

A step changes the progress in one way: a report, a type that is entered, given
up or done, a type that is put in a place, or a reference that closes a cycle.
`Advances` lists these steps with what is known when they are taken;
`p.current?` is the type whose tree is being converted.  `Progress.Valid` is
what holds throughout, `Progress.Extends` what is never taken back.

Main results: every step keeps `Valid` (`Advances.valid`), the conversion of a
part, of tasks and of a type is a sequence of steps that ends with the types in
progress with which it began (`Converts.leads`, `Completes.leads`), and what it
gives renders what it was given.  Whatever each step keeps is therefore kept by
all conversions.
-/
import RamlSchema.Proofs.Members
import RamlSchema.Proofs.Normalize.Rendering
import Mathlib.Data.List.Chain

namespace RamlSchema

open Relation

/-! ### The steps -/

namespace Progress

/-- The type whose tree is being converted. -/
def current? (p : Progress) : Option String :=
  p.inProgress.getLast?

/-- The schemas that may stand in the place of a type when `defs` are done: the
type's own, if it has been put in some place, and a reference to it, if that
closes a cycle. -/
def base (p : Progress) (defs : Members SchemaNode) (T : String) (b : SchemaNode) : Prop :=
  (defs.get? T = some b ∧ T ∈ p.nested) ∨ (b = .referenceTo T ∧ T ∈ p.cycleTargets)

end Progress

section

variable (g : TypeGraph) (o : Options)

/-- One step of a conversion. -/
inductive Advances : Progress → Progress → Prop
  | report {p} (e : Event) : Advances p (p.emit e)
  | enter {p T tree} :
      g.tree? T = some tree → p.definition? T = none → T ∉ p.inProgress →
      (∀ U, p.current? = some U → References g U T) →
      Advances p (p.enter T)
  | abandon {p T} : p.current? = some T → Advances p (p.leave T)
  | complete {p T tree n} :
      p.current? = some T → g.tree? T = some tree →
      Renders g (p.base p.definitions) (.node tree) n →
      Advances p ((p.leave T).define T n)
  | nest {p U T l} :
      p.current? = some U → References g U T → T ∈ p.definitions.keys →
      Advances p (p.nest T l)
  | breakCycle {p U T l} :
      p.current? = some U → References g U T → T ∈ p.inProgress → o.onCycle = .reference →
      Advances p (p.breakCycle T l)

/-- Any number of steps. -/
abbrev Reaches : Progress → Progress → Prop :=
  ReflTransGen (Advances g o)

end

namespace Progress

/-- What holds of a progress at all times. -/
structure Valid (g : TypeGraph) (p : Progress) : Prop where
  nodup_definitions : p.definitions.keys.Nodup
  nodup_inProgress : p.inProgress.Nodup
  /-- A type in progress is not done. -/
  apart : ∀ T ∈ p.inProgress, T ∉ p.definitions.keys
  definitions_declared : ∀ T ∈ p.definitions.keys, T ∈ g.names
  inProgress_declared : ∀ T ∈ p.inProgress, T ∈ g.names
  nested_defined : ∀ T ∈ p.nested, T ∈ p.definitions.keys
  /-- A cycle that is broken is one. -/
  targets_cyclic : ∀ T ∈ p.cycleTargets, TransGen (References g) T T
  /-- Each type in progress refers to the next one. -/
  chain : p.inProgress.IsChain (References g)
  /-- A schema is made of those that were done before it. -/
  history : ∀ D T d, D ++ [(T, d)] <+: p.definitions →
    ∃ tree, g.tree? T = some tree ∧ Renders g (p.base D) (.node tree) d

/-- Nothing of a progress has been taken back. -/
structure Extends (p p' : Progress) : Prop where
  definitions : p.definitions <+: p'.definitions
  nested : p.nested ⊆ p'.nested
  cycleTargets : p.cycleTargets ⊆ p'.cycleTargets

/-- A conversion has led from one progress to another. -/
structure Leads (g : TypeGraph) (o : Options) (p p' : Progress) : Prop where
  reaches : Reaches g o p p'
  inProgress : p'.inProgress = p.inProgress

variable {g : TypeGraph} {o : Options} {p p' p'' : Progress} {T U : String} {n : SchemaNode}

theorem valid_empty : Valid g {} where
  nodup_definitions := List.nodup_nil
  nodup_inProgress := List.nodup_nil
  apart := by simp
  definitions_declared := by simp [Members.keys]
  inProgress_declared := by simp
  nested_defined := by simp
  targets_cyclic := by simp
  chain := .nil
  history := by simp

theorem Extends.refl (p : Progress) : p.Extends p :=
  ⟨List.prefix_rfl, List.Subset.refl _, List.Subset.refl _⟩

theorem Extends.trans (h : p.Extends p') (h' : p'.Extends p'') : p.Extends p'' :=
  ⟨h.definitions.trans h'.definitions, List.Subset.trans h.nested h'.nested,
    List.Subset.trans h.cycleTargets h'.cycleTargets⟩

theorem Extends.definition? (h : p.Extends p') (hT : p.definition? T = some n) :
    p'.definition? T = some n :=
  Members.get?_of_prefix h.definitions hT

theorem Extends.keys (h : p.Extends p') (hT : T ∈ p.definitions.keys) :
    T ∈ p'.definitions.keys := by
  obtain ⟨n, hn⟩ := Members.exists_get?_of_mem_keys hT
  exact Members.mem_keys_of_get? (h.definition? hn)

theorem Extends.base (h : p.Extends p') {b : SchemaNode} (hb : p.base p.definitions T b) :
    p'.base p'.definitions T b := by
  rcases hb with ⟨hget, hnested⟩ | ⟨rfl, htarget⟩
  · exact .inl ⟨h.definition? hget, h.nested hnested⟩
  · exact .inr ⟨rfl, h.cycleTargets htarget⟩

theorem Valid.targets_declared (h : p.Valid g) (hT : T ∈ p.cycleTargets) : T ∈ g.names := by
  obtain ⟨U, -, href⟩ := TransGen.tail'_iff.mp (h.targets_cyclic T hT)
  exact href.target_mem

theorem definition?_eq_none_iff : p.definition? T = none ↔ T ∉ p.definitions.keys :=
  Members.get?_eq_none_iff

/-- A type is not among those that were done before it. -/
theorem Valid.notMem_front (h : p.Valid g) {D : Members SchemaNode}
    (hD : D ++ [(T, n)] <+: p.definitions) : T ∉ D.keys := by
  have hnodup : (Members.keys (D ++ [(T, n)])).Nodup :=
    (hD.sublist.map Prod.fst).nodup h.nodup_definitions
  rw [Members.keys_append, List.nodup_append] at hnodup
  exact fun hT => hnodup.2.2 T hT T (by simp [Members.keys]) rfl

/-- What was done before a type that is done. -/
theorem exists_front (h : p.definition? T = some n) :
    ∃ D : Members SchemaNode, D ++ [(T, n)] <+: p.definitions := by
  obtain ⟨D, rest, hD⟩ := List.append_of_mem (Members.mem_of_get? h)
  exact ⟨D, rest, by simp [hD]⟩

/-- What follows for each schema from those that were done before it holds of all
schemas. -/
theorem definition?_induction {Q : String → SchemaNode → Prop}
    (next : ∀ (D : Members SchemaNode) T d, D ++ [(T, d)] <+: p.definitions →
      (∀ U b, D.get? U = some b → Q U b) → Q T d) :
    ∀ T d, p.definition? T = some d → Q T d := by
  -- on the front of what is done, as the schemas were added
  have hall : ∀ D : Members SchemaNode, D <+: p.definitions → ∀ T d, D.get? T = some d → Q T d := by
    intro D
    induction D using List.reverseRecOn with
    | nil => exact fun _ _ _ hget => nomatch hget
    | append_singleton D e ih =>
      obtain ⟨T, d⟩ := e
      intro hD U b hget
      have hfront : D <+: p.definitions := (List.prefix_append D _).trans hD
      rw [Members.get?_append, Option.or_eq_some_iff] at hget
      rcases hget with hget | ⟨-, hget⟩
      · exact ih hfront U b hget
      · obtain ⟨rfl, rfl⟩ : T = U ∧ d = b := by simpa [Members.get?] using hget
        exact next D T d hD (ih hfront)
  exact hall p.definitions List.prefix_rfl

/-- The same where it follows from how the schema was made. -/
theorem Valid.definition_induction {Q : String → SchemaNode → Prop} (h : p.Valid g)
    (next : ∀ D T tree d, D ++ [(T, d)] <+: p.definitions →
      (∀ U b, D.get? U = some b → Q U b) → g.tree? T = some tree →
      Renders g (p.base D) (.node tree) d → Q T d) :
    ∀ T d, p.definition? T = some d → Q T d := by
  refine definition?_induction fun D T d hD hbefore => ?_
  obtain ⟨tree, htree, hd⟩ := h.history D T d hD
  exact next D T tree d hD hbefore htree hd

/-! ### What a step does to the types in progress -/

theorem inProgress_enter (h : T ∉ p.inProgress) : (p.enter T).inProgress = p.inProgress ++ [T] := by
  simp [enter, Names.add, h]

theorem current?_enter (h : T ∉ p.inProgress) : (p.enter T).current? = some T := by
  simp [current?, inProgress_enter h]

/-- The current type comes last. -/
theorem exists_of_current? (h : p.current? = some T) : ∃ Us, p.inProgress = Us ++ [T] := by
  obtain ⟨Us, hUs⟩ := List.getLast?_eq_some_iff.mp h
  exact ⟨Us, hUs⟩

theorem current?_mem (h : p.current? = some T) : T ∈ p.inProgress :=
  List.mem_of_getLast? h

theorem inProgress_leave {Us : List String} (h : p.inProgress = Us ++ [T]) (hT : T ∉ Us) :
    (p.leave T).inProgress = Us := by
  have hne : ∀ U ∈ Us, U ≠ T := fun U hU he => hT (he ▸ hU)
  simp only [leave, h, List.filter_append, List.filter_singleton]
  rw [List.filter_eq_self.mpr (by simpa using hne)]
  simp

/-- Leaving a type that was entered restores what was in progress before. -/
theorem inProgress_leave_enter (h : T ∉ p.inProgress)
    (hp : p'.inProgress = (p.enter T).inProgress) : (p'.leave T).inProgress = p.inProgress :=
  inProgress_leave (hp.trans (inProgress_enter h)) h

/-! ### Every step keeps what is valid -/

theorem Valid.emit (h : p.Valid g) (e : Event) : (p.emit e).Valid g :=
  ⟨h.nodup_definitions, h.nodup_inProgress, h.apart, h.definitions_declared,
    h.inProgress_declared, h.nested_defined, h.targets_cyclic, h.chain, h.history⟩

theorem Valid.enter (h : p.Valid g) (hT : T ∈ g.names) (hdef : p.definition? T = none)
    (hp : T ∉ p.inProgress) (href : ∀ U, p.current? = some U → References g U T) :
    (p.enter T).Valid g := by
  have henter := inProgress_enter hp
  refine ⟨h.nodup_definitions, ?_, ?_, h.definitions_declared, ?_, h.nested_defined,
    h.targets_cyclic, ?_, h.history⟩
  · exact Names.nodup_add h.nodup_inProgress T
  · intro U hU
    rcases Names.mem_add.mp hU with hU | rfl
    · exact h.apart U hU
    · exact definition?_eq_none_iff.mp hdef
  · intro U hU
    rcases Names.mem_add.mp hU with hU | rfl
    · exact h.inProgress_declared U hU
    · exact hT
  · -- the type that was current so far refers to the one that is entered
    rw [henter, List.isChain_append]
    refine ⟨h.chain, .singleton T, fun U hU V hV => ?_⟩
    simp only [List.head?_cons, Option.mem_some_iff] at hV
    subst hV
    exact href U hU

theorem Valid.leave (h : p.Valid g) (hT : p.current? = some T) : (p.leave T).Valid g := by
  obtain ⟨Us, hUs⟩ := exists_of_current? hT
  have hnodup := h.nodup_inProgress
  have hchain := h.chain
  rw [hUs] at hnodup hchain
  -- the current type comes last and only once, so the others stay as they are
  have hleave : (p.leave T).inProgress = Us := by
    apply inProgress_leave hUs
    intro hmem
    exact (List.nodup_append.mp hnodup).2.2 T hmem T (by simp) rfl
  have hsub : ∀ U ∈ Us, U ∈ p.inProgress := fun U hU => by simp [hUs, hU]
  refine ⟨h.nodup_definitions, ?_, ?_, h.definitions_declared, ?_, h.nested_defined,
    h.targets_cyclic, ?_, h.history⟩
  · rw [hleave]
    exact (List.nodup_append.mp hnodup).1
  · rw [hleave]
    exact fun U hU => h.apart U (hsub U hU)
  · rw [hleave]
    exact fun U hU => h.inProgress_declared U (hsub U hU)
  · rw [hleave]
    exact (List.isChain_append.mp hchain).1

theorem definitions_define (hT : T ∉ p.definitions.keys) :
    (p.define T n).definitions = p.definitions ++ [(T, n)] :=
  Members.insert_of_notMem hT n

theorem notMem_inProgress_leave : T ∉ (p.leave T).inProgress := by
  simp [leave]

theorem Valid.define (h : p.Valid g) {tree : Json} (hdef : T ∉ p.definitions.keys)
    (hp : T ∉ p.inProgress) (htree : g.tree? T = some tree)
    (hn : Renders g (p.base p.definitions) (.node tree) n) : (p.define T n).Valid g := by
  have hdefinitions := definitions_define (n := n) hdef
  have hkeys : (p.define T n).definitions.keys = p.definitions.keys ++ [T] := by
    rw [hdefinitions]
    simp [Members.keys]
  refine ⟨?_, h.nodup_inProgress, ?_, ?_, h.inProgress_declared, ?_, h.targets_cyclic,
    h.chain, ?_⟩
  · rw [hkeys, List.nodup_append]
    refine ⟨h.nodup_definitions, by simp, fun a ha b hb hab => ?_⟩
    simp only [List.mem_singleton] at hb
    exact hdef (hb ▸ hab ▸ ha)
  · intro U hU hmem
    rw [hkeys, List.mem_append, List.mem_singleton] at hmem
    rcases hmem with hmem | rfl
    · exact h.apart U hU hmem
    · exact hp hU
  · intro U hU
    rw [hkeys, List.mem_append, List.mem_singleton] at hU
    rcases hU with hU | rfl
    · exact h.definitions_declared U hU
    · exact (g.tree?_isSome_iff U).mp (by simp [htree])
  · intro U hU
    rw [hkeys]
    exact List.mem_append_left _ (h.nested_defined U hU)
  · intro D U d hD
    rw [hdefinitions, List.prefix_concat_iff] at hD
    rcases hD with hD | hD
    · -- the new schema itself
      obtain ⟨rfl, hUd⟩ := List.append_inj' hD rfl
      simp only [List.cons.injEq, Prod.mk.injEq, and_true] at hUd
      obtain ⟨rfl, rfl⟩ := hUd
      exact ⟨tree, htree, hn⟩
    · exact h.history D U d hD

theorem Valid.nest (h : p.Valid g) (hT : T ∈ p.definitions.keys) (l : Location) :
    (p.nest T l).Valid g := by
  unfold Progress.nest
  split
  · exact h
  · refine ⟨h.nodup_definitions, h.nodup_inProgress, h.apart, h.definitions_declared,
      h.inProgress_declared, ?_, h.targets_cyclic, h.chain, ?_⟩
    · intro U hU
      rcases List.mem_append.mp hU with hU | hU
      · exact h.nested_defined U hU
      · rw [List.mem_singleton.mp hU]
        exact hT
    · -- what stood in a place still may
      intro D U d hD
      obtain ⟨tree, htree, hd⟩ := h.history D U d hD
      refine ⟨tree, htree, hd.mono fun V b hb => ?_⟩
      exact hb.imp_left fun hb => ⟨hb.1, List.mem_append_left _ hb.2⟩

/-- A type in progress leads to the one whose tree is being converted. -/
theorem Valid.reaches_current (h : p.Valid g) (hU : p.current? = some U)
    (hT : T ∈ p.inProgress) : ReflTransGen (References g) T U := by
  refine List.IsChain.backwards_induction (ReflTransGen (References g) · U) p.inProgress h.chain
    (fun _ _ href hreach => .head href hreach) (fun hne => ?_) T hT
  obtain rfl : p.inProgress.getLast hne = U := by
    rw [current?, List.getLast?_eq_some_getLast hne] at hU
    exact Option.some.inj hU
  exact .refl

theorem Valid.breakCycle (h : p.Valid g) (hU : p.current? = some U) (href : References g U T)
    (hT : T ∈ p.inProgress) (l : Location) : (p.breakCycle T l).Valid g := by
  refine ⟨h.nodup_definitions, h.nodup_inProgress, h.apart, h.definitions_declared,
    h.inProgress_declared, h.nested_defined, ?_, h.chain, ?_⟩
  · intro V hV
    rcases Names.mem_add.mp hV with hV | rfl
    · exact h.targets_cyclic V hV
    · -- from the target down to the current type, and back to the target
      exact .tail' (h.reaches_current hU hT) href
  · intro D U d hD
    obtain ⟨tree, htree, hd⟩ := h.history D U d hD
    refine ⟨tree, htree, hd.mono fun V b hb => ?_⟩
    exact hb.imp_right fun hb => ⟨hb.1, Names.mem_add.mpr (.inl hb.2)⟩

end Progress

open Progress

variable {g : TypeGraph} {o : Options} {p p' : Progress}

/-- Every step keeps what is valid. -/
theorem Advances.valid (h : Advances g o p p') (hp : p.Valid g) : p'.Valid g := by
  cases h with
  | report e => exact hp.emit e
  | @enter T tree htree hdef hT href =>
    have hmem := (g.tree?_isSome_iff T).mp (by simp [htree])
    exact hp.enter hmem hdef hT href
  | abandon hT => exact hp.leave hT
  | complete hT htree hn =>
    have hdef := hp.apart _ (current?_mem hT)
    exact (hp.leave hT).define hdef notMem_inProgress_leave htree hn
  | nest _ _ hT => exact hp.nest hT _
  | breakCycle hU href hT _ => exact hp.breakCycle hU href hT _

/-- No step takes anything back. -/
theorem Advances.extends (h : Advances g o p p') (hp : p.Valid g) : p.Extends p' := by
  cases h with
  | report e => exact ⟨List.prefix_rfl, List.Subset.refl _, List.Subset.refl _⟩
  | enter htree hdef hT href =>
    exact ⟨List.prefix_rfl, List.Subset.refl _, List.Subset.refl _⟩
  | abandon hT => exact ⟨List.prefix_rfl, List.Subset.refl _, List.Subset.refl _⟩
  | @complete T tree n hT htree hn =>
    have hdef : T ∉ (p.leave T).definitions.keys := hp.apart _ (current?_mem hT)
    refine ⟨?_, List.Subset.refl _, List.Subset.refl _⟩
    rw [definitions_define hdef]
    exact List.prefix_append _ _
  | @nest U T l hU href hT =>
    unfold Progress.nest
    split
    · exact .refl p
    · exact ⟨List.prefix_rfl, List.subset_append_left _ _, List.Subset.refl _⟩
  | breakCycle hU href hT ho =>
    exact ⟨List.prefix_rfl, List.Subset.refl _, fun V hV => Names.mem_add.mpr (.inl hV)⟩

theorem Reaches.valid (h : Reaches g o p p') (hp : p.Valid g) : p'.Valid g := by
  induction h with
  | refl => exact hp
  | tail _ hstep ih => exact hstep.valid ih

theorem Reaches.extends (h : Reaches g o p p') (hp : p.Valid g) : p.Extends p' := by
  induction h with
  | refl => exact .refl p
  | tail hsteps hstep ih => exact ih.trans (hstep.extends (Reaches.valid hsteps hp))

/-! ### Conversions are sequences of steps -/

namespace Progress

theorem Leads.refl (p : Progress) : p.Leads g o p :=
  ⟨.refl, rfl⟩

theorem Leads.trans {p'' : Progress} (h : p.Leads g o p') (h' : p'.Leads g o p'') :
    p.Leads g o p'' :=
  ⟨h.reaches.trans h'.reaches, h'.inProgress.trans h.inProgress⟩

theorem Leads.valid (h : p.Leads g o p') (hp : p.Valid g) : p'.Valid g :=
  Reaches.valid h.reaches hp

theorem Leads.extends (h : p.Leads g o p') (hp : p.Valid g) : p.Extends p' :=
  Reaches.extends h.reaches hp

theorem Leads.current? (h : p.Leads g o p') : p'.current? = p.current? :=
  congrArg List.getLast? h.inProgress

/-- A step that leaves the types in progress alone. -/
theorem Leads.single (h : Advances g o p p') (hp : p'.inProgress = p.inProgress) :
    p.Leads g o p' :=
  ⟨.single h, hp⟩

theorem mem_nested_nest_iff (p : Progress) {T U : String} {l : Location} :
    U ∈ (p.nest T l).nested ↔ U ∈ p.nested ∨ U = T := by
  unfold nest
  split
  · rename_i h
    have hT : T ∈ p.nested := by simpa [isNested] using h
    exact ⟨.inl, fun h => h.elim id fun hU => hU ▸ hT⟩
  · simp

theorem definitions_nest (p : Progress) (T : String) (l : Location) :
    (p.nest T l).definitions = p.definitions := by
  unfold nest
  split <;> rfl

theorem definition?_nest (p : Progress) (T : String) (l : Location) (U : String) :
    (p.nest T l).definition? U = p.definition? U := by
  rw [definition?, definitions_nest, definition?]

theorem inProgress_nest (p : Progress) (T : String) (l : Location) :
    (p.nest T l).inProgress = p.inProgress := by
  unfold nest
  split <;> rfl

theorem cycleTargets_nest (p : Progress) (T : String) (l : Location) :
    (p.nest T l).cycleTargets = p.cycleTargets := by
  unfold nest
  split <;> rfl

end Progress

/-- A part that stands at its place, in the tree of the type that is being
converted. -/
structure Part.Stands (g : TypeGraph) (p : Progress) (part : Part) (l : Location) : Prop where
  nodeAt : ∀ raw, part = .node raw → g.NodeAt l raw
  current : p.current? = some l.typeName

namespace Part.Stands

variable {part : Part} {l : Location} {raw : Json} {n : NodeShape} {T U : String}

theorem within (h : part.Stands g p l) : part.Within g l.typeName :=
  fun raw hraw => (h.nodeAt raw hraw).hasNode

/-- The tree of a type stands where the type has been entered. -/
theorem root {tree : Json} (htree : g.tree? T = some tree) (hT : T ∉ p.inProgress) :
    Stands g (p.enter T) (.node tree) ⟨T, []⟩ where
  nodeAt := by
    rintro raw ⟨⟩
    exact .root htree
  current := current?_enter hT

/-- The parts of a node stand where its tasks convert them. -/
theorem tasks (h : Stands g p (.node raw) l) (hn : NodeShape.ofJson raw = .ok n) :
    ∀ step part, (step, part) ∈ (n.tasks g l).filterMap Task.part? →
      part.Stands g p (l.descend step.keys) := by
  rw [NodeShape.part?_tasks]
  intro step part hpart
  refine ⟨?_, h.current⟩
  rintro c rfl
  exact .part (h.nodeAt raw rfl) hn hpart

/-- A part stands where it stood when a conversion has come to its end. -/
theorem of_leads (h : part.Stands g p l) (hp : p.Leads g o p') : part.Stands g p' l :=
  ⟨h.nodeAt, hp.current?.trans h.current⟩

/-- Behind a report, the parts of the other tasks stand where they stood. -/
theorem after_report {e : Event} {ts : List Task}
    (h : ∀ step part, (step, part) ∈ (.report e :: ts).filterMap Task.part? →
      part.Stands g p (l.descend step.keys)) :
    ∀ step part, (step, part) ∈ ts.filterMap Task.part? →
      part.Stands g (p.emit e) (l.descend step.keys) :=
  fun step part hpart => ⟨(h step part hpart).nodeAt, (h step part hpart).current⟩

/-- So they do behind a part that has been converted. -/
theorem after_part {s : Step} {c : Part} {ts : List Task}
    (h : ∀ step part, (step, part) ∈ (.convert s c :: ts).filterMap Task.part? →
      part.Stands g p (l.descend step.keys)) (hp : p.Leads g o p') :
    ∀ step part, (step, part) ∈ ts.filterMap Task.part? →
      part.Stands g p' (l.descend step.keys) :=
  fun step part hpart => (h step part (List.mem_cons_of_mem _ hpart)).of_leads hp

theorem references (h : Stands g p (.node raw) l) (hn : NodeShape.ofJson raw = .ok n)
    (hT : n.declared? g = some T) : References g l.typeName T :=
  h.within.references hn hT

/-- The type that is being converted is the one that refers to the node's type. -/
theorem current_references (h : Stands g p (.node raw) l) (hn : NodeShape.ofJson raw = .ok n)
    (hT : n.declared? g = some T) (hU : p.current? = some U) : References g U T := by
  obtain rfl := Option.some.inj (h.current.symm.trans hU)
  exact h.references hn hT

end Part.Stands

mutual

/-- **The conversion of a part is a sequence of steps**, and what it gives
renders the part. -/
theorem Converts.leads {k : Nat} {part : Part} {l : Location} {p p' : Progress}
    {r : Except ConvertError SchemaNode} (hp : p.Valid g) (hl : part.Stands g p l) :
    Converts g o k part l p r p' →
      p.Leads g o p' ∧ ∀ n, r = .ok n → Renders g (p'.base p'.definitions) part n
  | .written => by
    refine ⟨.single (.report _) rfl, ?_⟩
    rintro n ⟨⟩
    exact .written
  | .tooDeep => ⟨.refl p, nofun⟩
  | .malformed _ => ⟨.refl p, nofun⟩
  | .failed hn htasks =>
    have hts := htasks.leads hp (hl.tasks hn)
    ⟨hts.1, nofun⟩
  | .plain hn htasks hT => by
    have hts := htasks.leads hp (hl.tasks hn)
    refine ⟨hts.1, ?_⟩
    rintro n ⟨⟩
    obtain ⟨hparts, hsound⟩ := hts.2 _ rfl
    rw [NodeShape.part?_tasks] at hparts
    exact .plain hn (NodeShape.sound_iff.mpr hsound) hparts hT
  | @Converts.cycle _ _ _ _ _ _ n done p₁ T hn htasks hT hmem ho => by
    have hts := htasks.leads hp (hl.tasks hn)
    obtain ⟨hparts, hsound⟩ := hts.2 _ rfl
    rw [NodeShape.part?_tasks] at hparts
    -- the type becomes a cycle target, so that a reference may stand in its place
    have hstep : Advances g o p₁ (p₁.breakCycle T l) :=
      .breakCycle (hl.of_leads hts.1).current (hl.references hn hT) hmem ho
    refine ⟨hts.1.trans (.single hstep rfl), ?_⟩
    rintro m ⟨⟩
    refine .reference hn (NodeShape.sound_iff.mpr hsound) (hparts.mono fun V b hb => ?_) hT
      (.inr ⟨rfl, Names.mem_add.mpr (.inr rfl)⟩)
    exact (hstep.extends (hts.1.valid hp)).base hb
  | .cyclic hn htasks hT hmem ho =>
    have hts := htasks.leads hp (hl.tasks hn)
    ⟨hts.1, nofun⟩
  | @Converts.inlined _ _ _ _ _ _ n done p₁ T b p₂ hn htasks hT hmem hbase => by
    have hts := htasks.leads hp (hl.tasks hn)
    obtain ⟨hparts, hsound⟩ := hts.2 _ rfl
    rw [NodeShape.part?_tasks] at hparts
    have hp₁ := hts.1.valid hp
    have hl₁ := hl.of_leads hts.1
    -- the schema of the type is done now, and it is nested where it is put
    have hb := hbase.leads hp₁ hmem fun U hU => hl₁.current_references hn hT hU
    have hdef := hb.2 _ rfl
    have hstep : Advances g o p₂ (p₂.nest T l) :=
      .nest (hl₁.of_leads hb.1).current (hl.references hn hT) (Members.mem_keys_of_get? hdef)
    have hlast : p₁.Leads g o (p₂.nest T l) := hb.1.trans (.single hstep (inProgress_nest p₂ T l))
    refine ⟨hts.1.trans hlast, ?_⟩
    rintro m ⟨⟩
    refine .reference hn (NodeShape.sound_iff.mpr hsound) (hparts.mono fun V c hc => ?_) hT
      (.inl ⟨?_, (mem_nested_nest_iff p₂).mpr (.inr rfl)⟩)
    · exact (hlast.extends hp₁).base hc
    · rw [definitions_nest]
      exact hdef
  | .lost hn htasks hT hmem hbase => by
    have hts := htasks.leads hp (hl.tasks hn)
    have hb := hbase.leads (hts.1.valid hp) hmem fun U hU =>
      (hl.of_leads hts.1).current_references hn hT hU
    exact ⟨hts.1.trans hb.1, nofun⟩

theorem Performs.leads {k : Nat} {l : Location} {ts : List Task} {p p' : Progress}
    {r : Except ConvertError (List (Step × SchemaNode))} (hp : p.Valid g)
    (hl : ∀ step part, (step, part) ∈ ts.filterMap Task.part? →
      part.Stands g p (l.descend step.keys)) :
    Performs g o k l ts p r p' →
      p.Leads g o p' ∧ ∀ done, r = .ok done →
        RendersAll g (p'.base p'.definitions) (ts.filterMap Task.part?) done ∧
          ∀ e, .fail e ∉ ts
  | .nil => by
    refine ⟨.refl p, ?_⟩
    rintro done ⟨⟩
    exact ⟨.nil, by simp⟩
  | @Performs.report _ _ _ _ e _ _ _ _ hts => by
    have h := hts.leads (hp.emit e) (Part.Stands.after_report hl)
    have hstep : p.Leads g o (p.emit e) := .single (.report e) rfl
    refine ⟨hstep.trans h.1, fun done hdone => ?_⟩
    obtain ⟨hparts, hfail⟩ := h.2 done hdone
    exact ⟨hparts, by simpa using hfail⟩
  | .fail => ⟨.refl p, nofun⟩
  | .stop hn =>
    have h := hn.leads hp (hl _ _ List.mem_cons_self)
    ⟨h.1, nofun⟩
  | .later hn hts =>
    have h := hn.leads hp (hl _ _ List.mem_cons_self)
    have hrest := hts.leads (h.1.valid hp) (Part.Stands.after_part hl h.1)
    ⟨h.1.trans hrest.1, nofun⟩
  | .convert hn hts => by
    have h := hn.leads hp (hl _ _ List.mem_cons_self)
    have hp₁ := h.1.valid hp
    have hrest := hts.leads hp₁ (Part.Stands.after_part hl h.1)
    refine ⟨h.1.trans hrest.1, ?_⟩
    rintro done ⟨⟩
    obtain ⟨hparts, hfail⟩ := hrest.2 _ rfl
    -- what the first part was made of is still there after the others
    refine ⟨.cons ((h.2 _ rfl).mono fun V b hb => ?_) hparts, by simpa using hfail⟩
    exact (hrest.1.extends hp₁).base hb

theorem Completes.leads {k : Nat} {T : String} {p p' : Progress}
    {r : Except ConvertError SchemaNode} (hp : p.Valid g) (hT : T ∉ p.inProgress)
    (hU : ∀ U, p.current? = some U → References g U T) :
    Completes g o k T p r p' →
      p.Leads g o p' ∧ ∀ n, r = .ok n → p'.definition? T = some n
  | .known hdef => by
    refine ⟨.refl p, ?_⟩
    rintro n ⟨⟩
    exact hdef
  | .undeclared _ _ => ⟨.refl p, nofun⟩
  | @Completes.defined _ _ _ _ tree _ n p₁ hdef htree hn => by
    -- entered, converted and done
    have henter : Advances g o p (p.enter T) := .enter htree hdef hT hU
    have h := hn.leads (henter.valid hp) (.root htree hT)
    have hstep : Advances g o p₁ ((p₁.leave T).define T n) :=
      .complete (h.1.current?.trans (current?_enter hT)) htree (h.2 _ rfl)
    refine ⟨⟨(ReflTransGen.single henter).trans (h.1.reaches.tail hstep),
      inProgress_leave_enter hT h.1.inProgress⟩, ?_⟩
    rintro m ⟨⟩
    exact Members.get?_insert_self _ _ _
  | @Completes.abandoned _ _ _ _ tree _ e p₁ hdef htree hn => by
    have henter : Advances g o p (p.enter T) := .enter htree hdef hT hU
    have h := hn.leads (henter.valid hp) (.root htree hT)
    have hstep : Advances g o p₁ (p₁.leave T) :=
      .abandon (h.1.current?.trans (current?_enter hT))
    exact ⟨⟨(ReflTransGen.single henter).trans (h.1.reaches.tail hstep),
      inProgress_leave_enter hT h.1.inProgress⟩, nofun⟩

end

/-- A type that is converted while no other is in progress. -/
theorem Completes.leads_of_idle {k : Nat} {T : String} {r : Except ConvertError SchemaNode}
    (hp : p.Valid g) (hidle : p.inProgress = []) (h : Completes g o k T p r p') :
    p.Leads g o p' ∧ ∀ n, r = .ok n → p'.definition? T = some n :=
  h.leads hp (by simp [hidle]) (by simp [current?, hidle])

end RamlSchema
