/-
RamlSchema/Proofs/Normalize/Tracing.lean

What the trace of a conversion tells of its progress.

`Records` lists the steps of a conversion once more, this time with the events that
they report.  Only the completion of a type reports that it was normalized, only the
first place in which a type is put reports that it was hoisted, and only a reference
that is written reports a broken cycle; whatever else is reported is a remark on a
node as it is written.  So the trace is an account of the progress
(`Progress.Recorded`).

Main results: conversions are sequences of such steps (`Completes.records`), and
`trace_accounts` reads the definitions, the nested types, the cycle targets and the
failures of a run off its trace.
-/
import RamlSchema.Proofs.Normalize.Places

namespace RamlSchema

open Relation Progress

/-! ### Events -/

namespace Event

/-- The type of which an event says that it was converted. -/
def normalized? : Event → Option String
  | .normalized T => some T
  | _ => none

/-- The type of which an event says that it was put in a place. -/
def hoisted? : Event → Option String
  | .hoisted T _ => some T
  | _ => none

/-- The failure of which an event warns. -/
def skipped? : Event → Option Failure
  | .skipped T e => some ⟨T, e⟩
  | _ => none

/-- An event that is about a node as it is written. -/
inductive Remark : Event → Prop
  | arrayInUnion {l member} : Remark (.arrayInUnion l member)
  | arrayOfUnion {l element} : Remark (.arrayOfUnion l element)

variable {e : Event} {T : String}

theorem normalized?_eq_some_iff : e.normalized? = some T ↔ e = .normalized T := by
  cases e <;> simp [normalized?]

end Event

/-- The reports of a node are remarks. -/
theorem NodeShape.remark_of_mem_tasks {g : TypeGraph} {n : NodeShape} {l : Location} {e : Event}
    (h : .report e ∈ n.tasks g l) : e.Remark := by
  have hcheck : ∀ place x, Task.report e ∉ Task.check place x := by
    intro place x
    rcases x with cause | ⟨⟩ <;> simp [Task.check]
  have hparts (ps : List (Step × Part)) : .report e ∉ ps.map Task.ofPart := by
    simp [Task.ofPart]
  simp only [tasks, List.mem_append, hcheck, hparts, or_false] at h
  rcases htype : n.type with - | (name | element | members) <;> simp [reports, htype] at h
  obtain ⟨m, -, rfl⟩ := h
  exact .arrayInUnion

/-! ### Steps with their events -/

/-- The schemas that may stand in the place of `T` in the tree of `U` when `defs` are
done: the schema of `T`, and a reference to `T` that was written in that tree. -/
def Progress.placed (p : Progress) (defs : Members SchemaNode) (U T : String)
    (b : SchemaNode) : Prop :=
  defs.get? T = some b ∨ (b = .referenceTo T ∧ ∃ l, l.typeName = U ∧ .cycleBroken T l ∈ p.trace)

/-- One step of a conversion, as the trace tells it. -/
inductive Records (g : TypeGraph) : Progress → Progress → Prop
  | remark {p e} : e.Remark → Records g p (p.emit e)
  | enter {p T} : Records g p (p.enter T)
  | leave {p T} : Records g p (p.leave T)
  | complete {p T tree n} :
      T ∉ p.definitions.keys → g.tree? T = some tree →
      Renders g (p.placed p.definitions T) (.node tree) n →
      Records g p (p.define T n)
  | nest {p T l} : T ∈ p.definitions.keys → Records g p (p.nest T l)
  | breakCycle {p T l raw n} :
      g.NodeAt l raw → NodeShape.ofJson raw = .ok n → n.declared? g = some T →
      ReflTransGen (References g) T l.typeName →
      Records g p (p.breakCycle T l)

variable {g : TypeGraph} {o : Options} {p p' : Progress}

/-- What is done stays done, and what is told stays told. -/
theorem Records.grows (h : Records g p p') :
    p.definitions <+: p'.definitions ∧ p.trace <+: p'.trace := by
  cases h with
  | remark _ => exact ⟨List.prefix_rfl, List.prefix_append _ _⟩
  | enter => exact ⟨List.prefix_rfl, List.prefix_rfl⟩
  | leave => exact ⟨List.prefix_rfl, List.prefix_rfl⟩
  | complete hT _ _ =>
    rw [definitions_define hT]
    exact ⟨List.prefix_append _ _, List.prefix_append _ _⟩
  | nest _ =>
    unfold Progress.nest
    split
    · exact ⟨List.prefix_rfl, List.prefix_rfl⟩
    · exact ⟨List.prefix_rfl, List.prefix_append _ _⟩
  | breakCycle _ _ _ _ => exact ⟨List.prefix_rfl, List.prefix_append _ _⟩

theorem Records.grows_steps (h : ReflTransGen (Records g) p p') :
    p.definitions <+: p'.definitions ∧ p.trace <+: p'.trace := by
  induction h with
  | refl => exact ⟨List.prefix_rfl, List.prefix_rfl⟩
  | tail _ hstep ih => exact ⟨ih.1.trans hstep.grows.1, ih.2.trans hstep.grows.2⟩

/-- What may stand in a place may stand there when more is done and told. -/
theorem Progress.placed.mono {defs defs' : Members SchemaNode} {U T : String} {b : SchemaNode}
    (hb : p.placed defs U T b) (hdefs : defs <+: defs') (htrace : p.trace <+: p'.trace) :
    p'.placed defs' U T b := by
  rcases hb with hget | ⟨rfl, l, hl, hmem⟩
  · exact .inl (Members.get?_of_prefix hdefs hget)
  · exact .inr ⟨rfl, l, hl, htrace.subset hmem⟩

/-- So it may behind further steps. -/
theorem Progress.placed.later {U T : String} {b : SchemaNode}
    (hb : p.placed p.definitions U T b) (h : ReflTransGen (Records g) p p') :
    p'.placed p'.definitions U T b :=
  hb.mono (Records.grows_steps h).1 (Records.grows_steps h).2

mutual

/-- The conversion of a part is a sequence of such steps, and a reference in what it
gives was written in the tree of the part or came with a schema. -/
theorem Converts.records {k : Nat} {part : Part} {l : Location} {p p' : Progress}
    {r : Except ConvertError SchemaNode} (hp : p.Valid g) (hl : part.Stands g p l) :
    Converts g o k part l p r p' →
      ReflTransGen (Records g) p p' ∧
        ∀ n, r = .ok n → Renders g (p'.placed p'.definitions l.typeName) part n
  | .written => by
    refine ⟨.single (.remark .arrayOfUnion), ?_⟩
    rintro n ⟨⟩
    exact .written
  | .tooDeep => ⟨.refl, nofun⟩
  | .malformed _ => ⟨.refl, nofun⟩
  | .failed hn htasks =>
    have hts := htasks.records hp (fun _ => NodeShape.remark_of_mem_tasks) (hl.tasks hn)
    ⟨hts.1, nofun⟩
  | .plain hn htasks hT => by
    have hts := htasks.records hp (fun _ => NodeShape.remark_of_mem_tasks) (hl.tasks hn)
    refine ⟨hts.1, ?_⟩
    rintro n ⟨⟩
    obtain ⟨hparts, hsound⟩ := hts.2 _ rfl
    rw [NodeShape.part?_tasks] at hparts
    exact .plain hn (NodeShape.sound_iff.mpr hsound) hparts hT
  | @Converts.cycle _ _ _ _ _ _ n done p₁ T hn htasks hT hmem _ => by
    have hts := htasks.records hp (fun _ => NodeShape.remark_of_mem_tasks) (hl.tasks hn)
    obtain ⟨hparts, hsound⟩ := hts.2 _ rfl
    rw [NodeShape.part?_tasks] at hparts
    -- the target leads to the type that is being converted, at whose node the
    -- reference is written
    have hlead := (htasks.leads hp (hl.tasks hn)).1
    have hpath := (hlead.valid hp).reaches_current (hl.of_leads hlead).current hmem
    have hstep : Records g p₁ (p₁.breakCycle T l) :=
      .breakCycle (hl.nodeAt _ rfl) hn hT hpath
    refine ⟨hts.1.tail hstep, ?_⟩
    rintro m ⟨⟩
    refine .reference hn (NodeShape.sound_iff.mpr hsound)
      (hparts.mono fun V b hb => hb.later (.single hstep)) hT (.inr ⟨rfl, l, rfl, ?_⟩)
    exact List.mem_append_right _ (.head _)
  | .cyclic hn htasks _ _ _ =>
    have hts := htasks.records hp (fun _ => NodeShape.remark_of_mem_tasks) (hl.tasks hn)
    ⟨hts.1, nofun⟩
  | @Converts.inlined _ _ _ _ _ _ n done p₁ T b p₂ hn htasks hT hmem hbase => by
    have hts := htasks.records hp (fun _ => NodeShape.remark_of_mem_tasks) (hl.tasks hn)
    obtain ⟨hparts, hsound⟩ := hts.2 _ rfl
    rw [NodeShape.part?_tasks] at hparts
    have hlead := (htasks.leads hp (hl.tasks hn)).1
    have hl₁ := hl.of_leads hlead
    have href : ∀ U, p₁.current? = some U → References g U T :=
      fun U hU => hl₁.current_references hn hT hU
    -- the schema of the type is done before it is put in its place
    have hdef := (hbase.leads (hlead.valid hp) hmem href).2 _ rfl
    have hlast := (hbase.records (hlead.valid hp) hmem href).tail
      (.nest (l := l) (Members.mem_keys_of_get? hdef))
    refine ⟨hts.1.trans hlast, ?_⟩
    rintro m ⟨⟩
    refine .reference hn (NodeShape.sound_iff.mpr hsound)
      (hparts.mono fun V c hc => hc.later hlast) hT (.inl ?_)
    rw [definitions_nest]
    exact hdef
  | .lost hn htasks hT hmem hbase => by
    have hts := htasks.records hp (fun _ => NodeShape.remark_of_mem_tasks) (hl.tasks hn)
    have hlead := (htasks.leads hp (hl.tasks hn)).1
    have hl₁ := hl.of_leads hlead
    have hb := hbase.records (hlead.valid hp) hmem fun U hU => hl₁.current_references hn hT hU
    exact ⟨hts.1.trans hb, nofun⟩

theorem Performs.records {k : Nat} {l : Location} {ts : List Task} {p p' : Progress}
    {r : Except ConvertError (List (Step × SchemaNode))} (hp : p.Valid g)
    (hremark : ∀ e, .report e ∈ ts → e.Remark)
    (hl : ∀ step part, (step, part) ∈ ts.filterMap Task.part? →
      part.Stands g p (l.descend step.keys)) :
    Performs g o k l ts p r p' →
      ReflTransGen (Records g) p p' ∧ ∀ done, r = .ok done →
        RendersAll g (p'.placed p'.definitions l.typeName) (ts.filterMap Task.part?) done ∧
          ∀ e, .fail e ∉ ts
  | .nil => by
    refine ⟨.refl, ?_⟩
    rintro done ⟨⟩
    exact ⟨.nil, by simp⟩
  | @Performs.report _ _ _ _ event _ _ _ _ hts => by
    have h := hts.records (hp.emit event) (fun e he => hremark e (.tail _ he))
      (Part.Stands.after_report hl)
    refine ⟨.head (.remark (hremark event (.head _))) h.1, fun done hdone => ?_⟩
    obtain ⟨hparts, hfail⟩ := h.2 done hdone
    exact ⟨hparts, by simpa using hfail⟩
  | .fail => ⟨.refl, nofun⟩
  | .stop hn =>
    have h := hn.records hp (hl _ _ List.mem_cons_self)
    ⟨h.1, nofun⟩
  | .later hn hts =>
    have h := hn.records hp (hl _ _ List.mem_cons_self)
    have hlead := (hn.leads hp (hl _ _ List.mem_cons_self)).1
    have hrest := hts.records (hlead.valid hp) (fun e he => hremark e (.tail _ he))
      (Part.Stands.after_part hl hlead)
    ⟨h.1.trans hrest.1, nofun⟩
  | .convert hn hts => by
    have h := hn.records hp (hl _ _ List.mem_cons_self)
    have hlead := (hn.leads hp (hl _ _ List.mem_cons_self)).1
    have hrest := hts.records (hlead.valid hp) (fun e he => hremark e (.tail _ he))
      (Part.Stands.after_part hl hlead)
    refine ⟨h.1.trans hrest.1, ?_⟩
    rintro done ⟨⟩
    obtain ⟨hparts, hfail⟩ := hrest.2 _ rfl
    exact ⟨.cons ((h.2 _ rfl).mono fun V b hb => hb.later hrest.1) hparts, by simpa using hfail⟩

/-- **The conversion of a type is a sequence of steps that the trace tells.** -/
theorem Completes.records {k : Nat} {T : String} {p p' : Progress}
    {r : Except ConvertError SchemaNode} (hp : p.Valid g) (hT : T ∉ p.inProgress)
    (hU : ∀ U, p.current? = some U → References g U T) :
    Completes g o k T p r p' → ReflTransGen (Records g) p p'
  | .known _ => .refl
  | .undeclared _ _ => .refl
  | @Completes.defined _ _ _ _ tree _ n p₁ hdef htree hn => by
    have henter : Advances g o p (p.enter T) := .enter htree hdef hT hU
    have hvalid := henter.valid hp
    have h := hn.records hvalid (.root htree hT)
    -- the type was in progress up to here, so it is done for the first time
    have hlead := (hn.leads hvalid (.root htree hT)).1
    have hmem := current?_mem (hlead.current?.trans (current?_enter hT))
    have hnew : T ∉ (p₁.leave T).definitions.keys := (hlead.valid hvalid).apart T hmem
    exact ((h.1.head .enter).tail .leave).tail (.complete hnew htree (h.2 n rfl))
  | @Completes.abandoned _ _ _ _ tree _ e p₁ hdef htree hn => by
    have henter : Advances g o p (p.enter T) := .enter htree hdef hT hU
    have h := hn.records (henter.valid hp) (.root htree hT)
    exact (h.1.head .enter).tail .leave

end

theorem call_records (hp : p.Idle g o) (name : String) :
    ReflTransGen (Records g) p (call g o p name).2 :=
  (call_completes p name).records hp.valid hp.notMem hp.references

/-! ### The trace as an account -/

/-- The trace tells what is done, what is nested and what the cycle targets are. -/
structure Progress.Recorded (p : Progress) : Prop where
  normalized : p.trace.filterMap Event.normalized? = p.definitions.keys
  hoisted : p.trace.filterMap Event.hoisted? = p.nested
  nodup_nested : p.nested.Nodup
  /-- A type is put in a place after it was converted. -/
  order : ∀ T l, .hoisted T l ∈ p.trace → [.normalized T, .hoisted T l].Sublist p.trace
  cycleBroken : ∀ T, (∃ l, .cycleBroken T l ∈ p.trace) ↔ T ∈ p.cycleTargets

namespace Progress

variable {α : Type} {f : Event → Option α} {e : Event}

theorem filterMap_emit_none (h : f e = none) :
    (p.emit e).trace.filterMap f = p.trace.filterMap f := by
  simp [emit, h]

theorem filterMap_emit_some {a : α} (h : f e = some a) :
    (p.emit e).trace.filterMap f = p.trace.filterMap f ++ [a] := by
  simp [emit, h]

theorem recorded_empty : Recorded {} where
  normalized := rfl
  hoisted := rfl
  nodup_nested := List.nodup_nil
  order := nofun
  cycleBroken := by simp

namespace Recorded

/-- The order of what has been told stays, and nothing is told to be put in a place. -/
theorem order_emit (h : p.Recorded) (he : e.hoisted? = none) {T : String} {l : Location}
    (hmem : .hoisted T l ∈ (p.emit e).trace) :
    [.normalized T, .hoisted T l].Sublist (p.emit e).trace := by
  rcases List.mem_append.mp hmem with hmem | hmem
  · exact (h.order T l hmem).trans (List.sublist_append_left _ _)
  · rw [← List.mem_singleton.mp hmem] at he
    cases he

/-- Where no cycle is broken, the events of broken cycles are the same. -/
theorem cycleBroken_emit (h : p.Recorded) (he : ∀ T l, e ≠ .cycleBroken T l) (T : String) :
    (∃ l, .cycleBroken T l ∈ (p.emit e).trace) ↔ T ∈ p.cycleTargets := by
  rw [← h.cycleBroken T]
  exact exists_congr fun l => by simp [emit, (he T l).symm]

/-- An event that is of none of the kinds tells nothing. -/
theorem emit (h : p.Recorded) (hnormalized : e.normalized? = none) (hhoisted : e.hoisted? = none)
    (hbroken : ∀ T l, e ≠ .cycleBroken T l) : (p.emit e).Recorded where
  normalized := (filterMap_emit_none hnormalized).trans h.normalized
  hoisted := (filterMap_emit_none hhoisted).trans h.hoisted
  nodup_nested := h.nodup_nested
  order _ _ := h.order_emit hhoisted
  cycleBroken := h.cycleBroken_emit hbroken

theorem define {T : String} {n : SchemaNode} (h : p.Recorded) (hT : T ∉ p.definitions.keys) :
    (p.define T n).Recorded where
  normalized := by
    have hkeys : (p.define T n).definitions.keys = p.definitions.keys ++ [T] := by
      simp [definitions_define hT, Members.keys]
    rw [hkeys, ← h.normalized]
    exact filterMap_emit_some rfl
  hoisted := (filterMap_emit_none rfl).trans h.hoisted
  nodup_nested := h.nodup_nested
  order _ _ := h.order_emit (e := .normalized T) rfl
  cycleBroken := h.cycleBroken_emit (by simp)

theorem nest {T : String} (h : p.Recorded) (hT : T ∈ p.definitions.keys) (l : Location) :
    (p.nest T l).Recorded := by
  unfold Progress.nest
  split
  · exact h
  · rename_i hnested
    have hnew : T ∉ p.nested := by simpa [isNested] using hnested
    refine ⟨(filterMap_emit_none rfl).trans h.normalized, ?_, ?_, fun U m hmem => ?_,
      h.cycleBroken_emit (by simp)⟩
    · rw [← h.hoisted]
      exact filterMap_emit_some rfl
    · rw [List.nodup_append]
      refine ⟨h.nodup_nested, List.nodup_singleton T, fun U hU V hV he => hnew ?_⟩
      exact List.mem_singleton.mp hV ▸ he ▸ hU
    · rcases List.mem_append.mp hmem with hmem | hmem
      · exact (h.order U m hmem).trans (List.sublist_append_left _ _)
      · -- a type that is done was reported as such
        obtain ⟨rfl, rfl⟩ : U = T ∧ m = l := by simpa using hmem
        rw [← h.normalized] at hT
        obtain ⟨e, he, htype⟩ := List.mem_filterMap.mp hT
        obtain rfl := Event.normalized?_eq_some_iff.mp htype
        exact (List.singleton_sublist.mpr he).append (List.Sublist.refl [Event.hoisted U m])

theorem breakCycle {T : String} (h : p.Recorded) (l : Location) : (p.breakCycle T l).Recorded where
  normalized := (filterMap_emit_none rfl).trans h.normalized
  hoisted := (filterMap_emit_none rfl).trans h.hoisted
  nodup_nested := h.nodup_nested
  order _ _ := h.order_emit (e := .cycleBroken T l) rfl
  cycleBroken U := by
    simp only [Progress.breakCycle, Progress.emit, Names.mem_add, List.mem_append,
      List.mem_singleton, exists_or, h.cycleBroken U]
    simp

/-- Each step keeps the account. -/
theorem step (h : p.Recorded) (hstep : Records g p p') : p'.Recorded := by
  cases hstep with
  | remark he => cases he <;> exact h.emit rfl rfl nofun
  | enter => exact ⟨h.normalized, h.hoisted, h.nodup_nested, h.order, h.cycleBroken⟩
  | leave => exact ⟨h.normalized, h.hoisted, h.nodup_nested, h.order, h.cycleBroken⟩
  | complete hT _ _ => exact h.define hT
  | nest hT => exact h.nest hT _
  | breakCycle _ _ _ _ => exact h.breakCycle _

theorem steps (h : p.Recorded) (hsteps : ReflTransGen (Records g) p p') : p'.Recorded := by
  induction hsteps with
  | refl => exact h
  | tail _ hstep ih => exact ih.step hstep

end Recorded

end Progress

/-- No step of a conversion warns of a failure. -/
theorem Records.skipped (h : Records g p p') :
    p'.trace.filterMap Event.skipped? = p.trace.filterMap Event.skipped? := by
  cases h with
  | remark he => cases he <;> exact filterMap_emit_none rfl
  | enter => rfl
  | leave => rfl
  | complete _ _ _ => exact filterMap_emit_none rfl
  | nest _ =>
    unfold Progress.nest
    split
    · rfl
    · exact filterMap_emit_none rfl
  | breakCycle _ _ _ _ => exact filterMap_emit_none rfl

theorem Records.skipped_steps (h : ReflTransGen (Records g) p p') :
    p'.trace.filterMap Event.skipped? = p.trace.filterMap Event.skipped? := by
  induction h with
  | refl => rfl
  | tail _ hstep ih => exact hstep.skipped.trans ih

/-! ### The trace of a run -/

/-- After each turn the trace is an account of the progress, and of the failures. -/
theorem recorded_turns (g : TypeGraph) (o : Options) (names : List String) :
    (turns g o names).1.Recorded ∧
      (turns g o names).1.trace.filterMap Event.skipped? = (turns g o names).2 := by
  refine turns_cases (Q := fun _ s => s.1.Recorded ∧ s.1.trace.filterMap Event.skipped? = s.2)
    ⟨recorded_empty, rfl⟩ (fun _ _ _ _ _ ih => ih) (fun _ name s n p' hs hcall ih => ?_)
    (fun _ name s e p' hs hcall ih => ?_) names
  all_goals
    have hsteps := call_records hs name
    rw [hcall] at hsteps
    have hskipped := (Records.skipped_steps hsteps).trans ih.2
  · exact ⟨ih.1.steps hsteps, hskipped⟩
  · refine ⟨(ih.1.steps hsteps).emit rfl rfl nofun, ?_⟩
    rw [← hskipped]
    exact filterMap_emit_some rfl

/-- **Each type is converted once, and the trace says so.**  The types that a run
reports as normalized are those that are done, in the order in which they were done,
each of them once; those that it reports as hoisted are the nested ones, each of them
once and after it was normalized; the references that it reports are those to the
cycle targets; and its warnings are its failures, in order. -/
theorem trace_accounts (g : TypeGraph) (o : Options) :
    let p := (converted g o).1
    let trace := (normalize g o).trace
    (trace.filterMap Event.normalized? = p.definitions.keys ∧ p.definitions.keys.Nodup) ∧
      (trace.filterMap Event.hoisted? = p.nested ∧ p.nested.Nodup) ∧
      (∀ T l, .hoisted T l ∈ trace → [.normalized T, .hoisted T l].Sublist trace) ∧
      (∀ T, (∃ l, .cycleBroken T l ∈ trace) ↔ T ∈ p.cycleTargets) ∧
      trace.filterMap Event.skipped? = (normalize g o).failures := by
  intro p trace
  obtain ⟨h, hskipped⟩ := recorded_turns g o g.names
  have hnodup := (idle_converted (g := g) (o := o)).valid.nodup_definitions
  exact ⟨⟨h.normalized, hnodup⟩, ⟨h.hoisted, h.nodup_nested⟩, h.order, h.cycleBroken, hskipped⟩

end RamlSchema
