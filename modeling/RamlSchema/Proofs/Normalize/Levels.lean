/-
RamlSchema/Proofs/Normalize/Levels.lean

How many levels a conversion takes.

A conversion goes down the tree of a type, from there into the tree of a type that
is referred to, and so on.  The types whose trees it is in are the types in
progress, and no type is among them twice.  So the levels of all types together,
each the height of its tree and one for the step into it, are enough, cycles or
not, and the limit of the options is never what ends a conversion.

Main results: `Completes.enough`, by which levels do not run out if there are as
many as the types that are not in progress take (`Progress.spare`), and
`Completes.deepen`, by which levels that are not needed change nothing; from the
two, `levels_suffice` for calls and for the conversion of a graph.
-/
import RamlSchema.Proofs.Normalize.Calls
import RamlSchema.Proofs.Normalize.Height
import RamlSchema.Proofs.Normalize.Replay
import Mathlib.Algebra.BigOperators.Group.List.Basic
import Mathlib.Algebra.GroupWithZero.Nat

namespace RamlSchema

open Progress

/-! ### Levels -/

/-- The height of the tree of a type. -/
def TypeGraph.height (g : TypeGraph) (T : String) : Nat :=
  (g.tree? T).elim 0 Json.height

/-- The levels that the declared types take together: the heights of their trees,
and one for each. -/
def TypeGraph.levels (g : TypeGraph) : Nat :=
  (g.names.map fun T => g.height T + 1).sum

/-- The levels that the types which are not in progress take together. -/
def Progress.spare (g : TypeGraph) (p : Progress) : Nat :=
  ((g.names.filter (· ∉ p.inProgress)).map fun T => g.height T + 1).sum

variable {g : TypeGraph} {o o' : Options} {p p' : Progress}

theorem TypeGraph.height_of_tree? {T : String} {tree : Json} (h : g.tree? T = some tree) :
    g.height T = tree.height := by
  rw [TypeGraph.height, h, Option.elim_some]

theorem Progress.spare_of_idle (h : p.inProgress = []) : p.spare g = g.levels := by
  simp [spare, TypeGraph.levels, h]

theorem Progress.spare_congr (h : p'.inProgress = p.inProgress) : p'.spare g = p.spare g := by
  rw [spare, spare, h]

/-- A type that is entered takes its levels from those that are spare. -/
theorem Progress.spare_enter {T : String} (hT : T ∈ g.names) (h : T ∉ p.inProgress) :
    g.height T + 1 + (p.enter T).spare g = p.spare g := by
  have hmem : T ∈ g.names.filter (· ∉ p.inProgress) := by simp [hT, h]
  have herase : g.names.filter (· ∉ (p.enter T).inProgress)
      = (g.names.filter (· ∉ p.inProgress)).erase T := by
    have hnodup : g.names.Nodup := g.nodup_names
    rw [(hnodup.filter _).erase_eq_filter, List.filter_filter]
    refine List.filter_congr fun U _ => ?_
    rw [Bool.eq_iff_iff]
    simp [inProgress_enter h, and_comm]
  rw [spare, herase]
  exact List.sum_map_erase (fun T => g.height T + 1) hmem

/-! ### Levels do not run out -/

theorem not_exhausted_malformed {α : Type} {l : Location} {cause : Malformation} :
    ¬ Exhausted (.error (.malformed l cause) : Except ConvertError α) := by
  rintro ⟨_, _, h⟩
  cases h

theorem not_exhausted_cyclic {α : Type} {l : Location} {cycle : List String} :
    ¬ Exhausted (.error (.cyclic l cycle) : Except ConvertError α) := by
  rintro ⟨_, _, h⟩
  cases h

/-- A check that fails is not a matter of levels. -/
theorem NodeShape.not_exhausted_of_fail {n : NodeShape} {l : Location} {e : ConvertError}
    (h : .fail e ∈ n.tasks g l) : ¬ Exhausted (.error e : Except ConvertError SchemaNode) := by
  rcases fail_mem_tasks.mp h with ⟨cause, -, rfl⟩ | ⟨cause, -, rfl⟩ | ⟨cause, -, rfl⟩
  all_goals exact not_exhausted_malformed

/-- A level further down, the parts of a node have the levels they take. -/
theorem NodeShape.height_tasks {raw : Json} {n : NodeShape} {l : Location} {k spare : Nat}
    (hn : NodeShape.ofJson raw = .ok n) (hk : (Part.node raw).height + spare < k + 1) :
    ∀ step part, (step, part) ∈ (n.tasks g l).filterMap Task.part? → part.height + spare < k := by
  rw [NodeShape.part?_tasks]
  intro step part hpart
  have hlt := Part.height_lt hn hpart
  rw [Part.height] at hk
  omega

mutual

/-- Levels do not run out below a part if there are as many as it takes, together
with the types that are not in progress. -/
theorem Converts.enough {k : Nat} {part : Part} {l : Location} {p p' : Progress}
    {r : Except ConvertError SchemaNode} (hp : p.Valid g) (hl : part.Stands g p l)
    (hk : part.height + p.spare g < k) : Converts g o k part l p r p' → ¬ Exhausted r
  | .written => Exhausted.not_ok
  | .tooDeep => absurd hk (Nat.not_lt_zero _)
  | .malformed _ => not_exhausted_malformed
  | .failed hs htasks => fun hr =>
    htasks.enough hp (hl.tasks hs) (NodeShape.height_tasks hs hk)
      (fun _ => NodeShape.not_exhausted_of_fail) hr.error
  | .plain _ _ _ => Exhausted.not_ok
  | .cycle _ _ _ _ _ => Exhausted.not_ok
  | .cyclic _ _ _ _ _ => not_exhausted_cyclic
  | .inlined _ _ _ _ _ => Exhausted.not_ok
  | .lost hs htasks hT hmem hbase => by
    have hlead := (htasks.leads hp (hl.tasks hs)).1
    have hl₁ := hl.of_leads hlead
    have hdeclared := (NodeShape.declared?_eq_some_iff.mp hT).2
    refine hbase.enough (hlead.valid hp) hdeclared hmem
      (fun U hU => hl₁.current_references hs hT hU) ?_
    rw [spare_congr hlead.inProgress]
    omega

theorem Performs.enough {k : Nat} {l : Location} {ts : List Task} {p p' : Progress}
    {r : Except ConvertError (List (Step × SchemaNode))} (hp : p.Valid g)
    (hl : ∀ step part, (step, part) ∈ ts.filterMap Task.part? →
      part.Stands g p (l.descend step.keys))
    (hk : ∀ step part, (step, part) ∈ ts.filterMap Task.part? → part.height + p.spare g < k)
    (hfail : ∀ e, .fail e ∈ ts → ¬ Exhausted (.error e : Except ConvertError SchemaNode)) :
    Performs g o k l ts p r p' → ¬ Exhausted r
  | .nil => Exhausted.not_ok
  | @Performs.report _ _ _ _ e _ _ _ _ hts =>
    hts.enough (hp.emit e) (Part.Stands.after_report hl) hk
      fun e' he => hfail e' (List.mem_cons_of_mem _ he)
  | .fail => fun hr => hfail _ List.mem_cons_self hr.error
  | .stop hn => fun hr =>
    hn.enough hp (hl _ _ List.mem_cons_self) (hk _ _ List.mem_cons_self) hr.error
  | .later hn hts => by
    have hlead := (hn.leads hp (hl _ _ List.mem_cons_self)).1
    refine fun hr => hts.enough (hlead.valid hp) (Part.Stands.after_part hl hlead) (fun s c hc => ?_)
      (fun e he => hfail e (List.mem_cons_of_mem _ he)) hr
    rw [spare_congr hlead.inProgress]
    exact hk s c (List.mem_cons_of_mem _ hc)
  | .convert _ _ => Exhausted.not_ok

/-- Nor below a type, if there are as many as the types that are not in progress
take. -/
theorem Completes.enough {k : Nat} {T : String} {p p' : Progress}
    {r : Except ConvertError SchemaNode} (hp : p.Valid g) (hdeclared : T ∈ g.names)
    (hT : T ∉ p.inProgress) (hU : ∀ U, p.current? = some U → References g U T)
    (hk : p.spare g ≤ k) : Completes g o k T p r p' → ¬ Exhausted r
  | .known _ => Exhausted.not_ok
  | .undeclared _ _ => not_exhausted_malformed
  | .defined _ _ _ => Exhausted.not_ok
  | .abandoned hdef htree hn => by
    have henter : Advances g o p (p.enter T) := .enter htree hdef hT hU
    have hspare := spare_enter hdeclared hT
    rw [TypeGraph.height_of_tree? htree] at hspare
    refine fun hr => hn.enough (henter.valid hp) (.root htree hT) ?_ hr.error
    rw [Part.height]
    omega

end

/-! ### Levels that are not needed -/

mutual

/-- More levels, and another limit that is never met, change nothing. -/
theorem Converts.deepen {k : Nat} (m : Nat) {part : Part} {l : Location} {p p' : Progress}
    {r : Except ConvertError SchemaNode} (ho : o'.onCycle = o.onCycle) (hr : ¬ Exhausted r) :
    Converts g o k part l p r p' → Converts g o' (m + k) part l p r p'
  | .written => .written
  | .tooDeep => absurd ⟨_, _, rfl⟩ hr
  | .malformed hs => .malformed hs
  | .failed hs htasks => .failed hs (htasks.deepen m ho fun h => hr h.error)
  | .plain hs htasks hT => .plain hs (htasks.deepen m ho Exhausted.not_ok) hT
  | .cycle hs htasks hT hmem hpolicy =>
    .cycle hs (htasks.deepen m ho Exhausted.not_ok) hT hmem (ho.trans hpolicy)
  | .cyclic hs htasks hT hmem hpolicy =>
    .cyclic hs (htasks.deepen m ho Exhausted.not_ok) hT hmem (ho.trans hpolicy)
  | .inlined hs htasks hT hmem hbase =>
    .inlined hs (htasks.deepen m ho Exhausted.not_ok) hT hmem
      (hbase.deepen m ho Exhausted.not_ok)
  | .lost hs htasks hT hmem hbase =>
    .lost hs (htasks.deepen m ho Exhausted.not_ok) hT hmem (hbase.deepen m ho hr)

theorem Performs.deepen {k : Nat} (m : Nat) {l : Location} {ts : List Task} {p p' : Progress}
    {r : Except ConvertError (List (Step × SchemaNode))} (ho : o'.onCycle = o.onCycle)
    (hr : ¬ Exhausted r) : Performs g o k l ts p r p' → Performs g o' (m + k) l ts p r p'
  | .nil => .nil
  | .report hts => .report (hts.deepen m ho hr)
  | .fail => .fail
  | .stop hn => .stop (hn.deepen m ho fun h => hr h.error)
  | .later hn hts => .later (hn.deepen m ho Exhausted.not_ok) (hts.deepen m ho hr)
  | .convert hn hts =>
    .convert (hn.deepen m ho Exhausted.not_ok) (hts.deepen m ho Exhausted.not_ok)

theorem Completes.deepen {k : Nat} (m : Nat) {T : String} {p p' : Progress}
    {r : Except ConvertError SchemaNode} (ho : o'.onCycle = o.onCycle) (hr : ¬ Exhausted r) :
    Completes g o k T p r p' → Completes g o' (m + k) T p r p'
  | .known hdef => .known hdef
  | .undeclared hdef htree => .undeclared hdef htree
  | .defined hdef htree hn => .defined hdef htree (hn.deepen m ho Exhausted.not_ok)
  | .abandoned hdef htree hn => .abandoned hdef htree (hn.deepen m ho fun h => hr h.error)

end

/-! ### Calls and runs -/

/-- Calls leave no type in progress. -/
theorem calls_idle {names : List String} (hp : p.Idle g o) : (calls g o p names).2.Idle g o := by
  induction names generalizing p with
  | nil => exact hp
  | cons name names ih => exact ih (call_idle hp name)

theorem call_enough (hp : p.Idle g o) (ho : g.levels ≤ o.maxDepth) (name : String) :
    ¬ Exhausted (call g o p name).1 := by
  by_cases hname : name ∈ g.names
  · refine (call_completes p name).enough hp.valid hname hp.notMem hp.references ?_
    rw [spare_of_idle hp.inProgress]
    omega
  · -- a type that is not declared has no tree to go down
    rw [call_undeclared hp hname]
    exact not_exhausted_malformed

/-- No type of a graph fails for want of levels. -/
def Options.Suffice (o : Options) (g : TypeGraph) : Prop :=
  ∀ f ∈ (normalize g o).failures, ∀ l limit, f.error ≠ .tooDeep l limit

/-- With the levels of all types there is none that fails so. -/
theorem Options.suffice_of_levels (h : g.levels ≤ o.maxDepth) : o.Suffice g := by
  intro f hf l limit he
  obtain ⟨-, p, hp, hcall⟩ := exists_call_of_failure hf
  exact call_enough hp h f.name ⟨l, limit, he ▸ hcall⟩

theorem call_deepen {name : String} (ho : o'.onCycle = o.onCycle) (hlimit : o.maxDepth ≤ o'.maxDepth)
    (hr : ¬ Exhausted (call g o p name).1) : call g o' p name = call g o p name := by
  obtain ⟨m, hm⟩ := Nat.exists_eq_add_of_le' hlimit
  rw [call, normalizeType, hm]
  exact completes_iff.mp ((call_completes p name).deepen m ho hr)

theorem turns_deepen {names : List String} (ho : g.levels ≤ o.maxDepth)
    (hpolicy : o'.onCycle = o.onCycle) (hlimit : o.maxDepth ≤ o'.maxDepth) :
    turns g o' names = turns g o names := by
  refine turns_induction (g := g) (o := o) (Q := fun names s => turns g o' names = s) rfl
    (fun names name s hs ih => ?_) names
  have hcall := call_deepen hpolicy hlimit (call_enough hs ho name)
  rw [turns, List.foldl_append, ← turns, ih]
  show normalizeNext g o' s name = normalizeNext g o s name
  rw [normalizeNext_eq, normalizeNext_eq, hcall]

/-- With the levels of all types, a limit makes no difference. -/
theorem normalize_deepen (ho : g.levels ≤ o.maxDepth) (hpolicy : o'.onCycle = o.onCycle)
    (huri : o'.schemaUri = o.schemaUri) (hlimit : o.maxDepth ≤ o'.maxDepth) :
    normalize g o' = normalize g o := by
  have hturns : turns g o' g.names = turns g o g.names := turns_deepen ho hpolicy hlimit
  have hdocuments : ∀ p : Progress, p.documents g o' = p.documents g o := by
    intro p
    rw [Progress.documents, Progress.documents, huri]
  simp only [turns] at hturns
  simp only [normalize, hturns, hdocuments]

/-- **Conversions come to an end by themselves.**  With as many levels as the
declared types take together, no call runs out of them, whatever calls went
before, and the conversion of a graph comes to the same under every limit. -/
theorem levels_suffice (ho : g.levels ≤ o.maxDepth) :
    (∀ names name, ¬ Exhausted (call g o (calls g o {} names).2 name).1) ∧
    (∀ f ∈ (normalize g o).failures, ∀ l limit, f.error ≠ .tooDeep l limit) ∧
    ∀ limit, g.levels ≤ limit → normalize g { o with maxDepth := limit } = normalize g o := by
  refine ⟨fun names name => ?_, ?_, fun limit hlimit => ?_⟩
  · exact call_enough (calls_idle idle_empty) ho name
  · refine turns_cases (g := g) (o := o)
      (Q := fun _ s => ∀ f ∈ s.2, ∀ l limit, f.error ≠ .tooDeep l limit) (fun _ h => nomatch h)
      (fun _ _ _ _ _ ih => ih) (fun _ _ _ _ _ _ _ ih => ih)
      (fun names name s e p hs h ih f hf l limit he => ?_) g.names
    rcases List.mem_append.mp hf with hf | hf
    · exact ih f hf l limit he
    · obtain rfl := List.mem_singleton.mp hf
      have hcall := call_enough hs ho name
      rw [h] at hcall
      exact hcall ⟨l, limit, congrArg Except.error he⟩
  · -- both are what the lowest of these limits gives
    have hlowest : ∀ limit, g.levels ≤ limit →
        normalize g { o with maxDepth := limit } = normalize g { o with maxDepth := g.levels } :=
      fun limit hlimit => normalize_deepen le_rfl rfl rfl hlimit
    exact (hlowest limit hlimit).trans (hlowest o.maxDepth ho).symm

/-- A forest of trees whose children are forests. -/
def forestGraph : TypeGraph :=
  .ofList
    [("Forest", .ofType (.str "Tree[]")),
      ("Tree", .ofProperties [("children", .ofType (.str "Forest"))])]

/-- Four levels are enough for it. -/
theorem levels_suffice_forest :
    forestGraph.levels = 4 ∧
      ¬ Exhausted (call forestGraph { maxDepth := 4 }
        (calls forestGraph { maxDepth := 4 } {} ["Forest"]).2 "Tree").1 ∧
      normalize forestGraph {} = normalize forestGraph { maxDepth := 4 } := by
  have hlevels : forestGraph.levels = 4 := by decide
  have h := levels_suffice (g := forestGraph) (o := { maxDepth := 4 }) hlevels.le
  exact ⟨hlevels, h.1 _ _, h.2.2 128 (by decide)⟩

end RamlSchema
