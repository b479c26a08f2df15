/-
RamlSchema/Proofs/Normalize/Visits.lean

Which nodes a call visits, and at which of them it fails.

A call visits the root of its type's tree, from a node the parts right below it, and
from a node whose type is declared and neither done nor in progress the root of that
type's tree, each time one level deeper (`Visits`).  Which parts are visited, and in
which progress, depends on what was done before: the tasks in front of a part, or all
tasks of the node, are performed first.

An error is raised at a node that the call visits (`Raises`): the node has no shape,
does not pass a check, its type is in progress where cycles are errors, or no level is
left for it.

Main results: `call_raises`, and `Visits.stands`, by which a node that is visited
stands in the tree of the type that is being converted, one that the called type leads
to.
-/
import RamlSchema.Proofs.Normalize.Calls

namespace RamlSchema

open Relation Progress

variable {g : TypeGraph} {o : Options} {p p' q q' : Progress} {l : Location}

/-! ### Tasks in a row -/

/-- Tasks behind tasks that have been performed. -/
theorem Performs.append {k : Nat} {ts us : List Task} {done more : List (Step × SchemaNode)}
    (h : Performs g o k l ts p (.ok done) q) (h' : Performs g o k l us q (.ok more) q') :
    Performs g o k l (ts ++ us) p (.ok (done ++ more)) q' := by
  induction ts generalizing p done with
  | nil =>
    cases h
    exact h'
  | cons t ts ih =>
    cases h with
    | report hts => exact .report (ih hts)
    | convert hn hts => exact .convert hn (ih hts)

/-! ### Visits -/

section Rules

variable (g : TypeGraph) (o : Options)

/-- The nodes that the call of `name` from the progress `p` visits, with the depth, the
place and the progress in which it does. -/
inductive Visits (name : String) (p : Progress) : Nat → Location → Json → Progress → Prop
  | start {tree} :
      p.definition? name = none → g.tree? name = some tree →
      Visits name p 0 ⟨name, []⟩ tree (p.enter name)
  /-- A part, when the tasks in front of it have been performed. -/
  | part {d l raw q n before step c behind done q'} :
      Visits name p d l raw q → d ≤ o.maxDepth → NodeShape.ofJson raw = .ok n →
      n.tasks g l = before ++ .convert step (.node c) :: behind →
      Performs g o (o.maxDepth - d) l before q (.ok done) q' →
      Visits name p (d + 1) (l.descend step.keys) c q'
  /-- The root of the tree of a declared type, when all tasks have been performed. -/
  | reference {d l raw q n done q' T tree} :
      Visits name p d l raw q → d ≤ o.maxDepth → NodeShape.ofJson raw = .ok n →
      Performs g o (o.maxDepth - d) l (n.tasks g l) q (.ok done) q' →
      n.declared? g = some T → T ∉ q'.inProgress →
      q'.definition? T = none → g.tree? T = some tree →
      Visits name p (d + 1) ⟨T, []⟩ tree (q'.enter T)

/-- How a call fails, at a node that it visits. -/
inductive Raises (name : String) (p : Progress) : ConvertError → Prop
  | shape {d l raw q cause} :
      Visits g o name p d l raw q → NodeShape.ofJson raw = .error cause →
      Raises name p (.malformed l cause)
  | check {d l raw q n e} :
      Visits g o name p d l raw q → NodeShape.ofJson raw = .ok n → .fail e ∈ n.tasks g l →
      Raises name p e
  | cycle {d l raw q n done q' T} :
      Visits g o name p d l raw q → NodeShape.ofJson raw = .ok n →
      Performs g o (o.maxDepth - d) l (n.tasks g l) q (.ok done) q' →
      n.declared? g = some T → T ∈ q'.inProgress → o.onCycle = .error →
      Raises name p (.cyclic l (q'.cycleThrough T))
  | limit {l raw q} :
      Visits g o name p (o.maxDepth + 1) l raw q → Raises name p (.tooDeep l o.maxDepth)

end Rules

/-! ### Failures are raised -/

theorem eq_levels {d k m : Nat} (h : d + k = m) : k = m - d :=
  (Nat.sub_eq_of_eq_add' h.symm).symm

mutual

theorem Converts.raises {name : String} {p q q' : Progress} {d k : Nat} {part : Part}
    {l : Location} {r : Except ConvertError SchemaNode}
    (hv : ∀ raw, part = .node raw → Visits g o name p d l raw q) (hk : d + k = o.maxDepth + 1) :
    Converts g o k part l q r q' → ∀ e, r = .error e → Raises g o name p e
  | .written => nofun
  | .tooDeep => by
    rintro _ ⟨⟩
    obtain rfl : d = o.maxDepth + 1 := hk
    exact .limit (hv _ rfl)
  | .malformed hs => by
    rintro _ ⟨⟩
    exact .shape (hv _ rfl) hs
  | .failed hs htasks => by
    rintro _ ⟨⟩
    exact Performs.raises (hv _ rfl) (Nat.succ.inj hk) hs (List.nil_append _).symm .nil htasks
      _ rfl
  | .plain _ _ _ => nofun
  | .cycle _ _ _ _ _ => nofun
  | .cyclic hs htasks hT hmem ho => by
    rintro _ ⟨⟩
    exact .cycle (hv _ rfl) hs (eq_levels (Nat.succ.inj hk) ▸ htasks) hT hmem ho
  | .inlined _ _ _ _ _ => nofun
  | .lost hs htasks hT hmem hbase => by
    rintro _ ⟨⟩
    have hdeclared := (NodeShape.declared?_eq_some_iff.mp hT).2
    have htasks' := eq_levels (Nat.succ.inj hk) ▸ htasks
    refine hbase.raises hdeclared (fun tree hdef htree =>
      .reference (hv _ rfl) ?_ hs htasks' hT hmem hdef htree) ?_ _ rfl <;> omega

theorem Performs.raises {name : String} {p q₀ q q' : Progress} {d k : Nat} {l : Location}
    {raw : Json} {n : NodeShape} {before ts : List Task} {done : List (Step × SchemaNode)}
    {r : Except ConvertError (List (Step × SchemaNode))} (hv : Visits g o name p d l raw q₀)
    (hk : d + k = o.maxDepth) (hs : NodeShape.ofJson raw = .ok n)
    (htasks : n.tasks g l = before ++ ts) (hbefore : Performs g o k l before q₀ (.ok done) q) :
    Performs g o k l ts q r q' → ∀ e, r = .error e → Raises g o name p e
  | .nil => nofun
  | .report hts =>
    Performs.raises hv hk hs (htasks.trans (List.append_cons _ _ _))
      (hbefore.append (.report .nil)) hts
  | .fail => by
    rintro _ ⟨⟩
    refine .check hv hs ?_
    rw [htasks]
    exact List.mem_append_right _ List.mem_cons_self
  | .stop hn => by
    rintro _ ⟨⟩
    have hk' : d + 1 + k = o.maxDepth + 1 := by omega
    refine hn.raises ?_ hk' _ rfl
    rintro c rfl
    exact .part hv (by omega) hs htasks (eq_levels hk ▸ hbefore)
  | .later hn hts =>
    Performs.raises hv hk hs (htasks.trans (List.append_cons _ _ _))
      (hbefore.append (.convert hn .nil)) hts
  | .convert _ _ => nofun

theorem Completes.raises {name T : String} {p q q' : Progress} {d k : Nat}
    {r : Except ConvertError SchemaNode} (hdeclared : T ∈ g.names)
    (hv : ∀ tree, q.definition? T = none → g.tree? T = some tree →
      Visits g o name p d ⟨T, []⟩ tree (q.enter T)) (hk : d + k = o.maxDepth + 1) :
    Completes g o k T q r q' → ∀ e, r = .error e → Raises g o name p e
  | .known _ => nofun
  | .undeclared _ htree => by
    have hsome := (g.tree?_isSome_iff T).mpr hdeclared
    simp [htree] at hsome
  | .defined _ _ _ => nofun
  | .abandoned hdef htree hn => by
    rintro _ ⟨⟩
    refine hn.raises ?_ hk _ rfl
    rintro raw ⟨⟩
    exact hv _ hdef htree

end

/-- **A call that fails fails at a node that it visits.** -/
theorem call_raises {name : String} (hname : name ∈ g.names) {e : ConvertError}
    (he : (call g o p name).1 = .error e) : Raises g o name p e :=
  (call_completes p name).raises hname (fun _ hdef htree => .start hdef htree) (Nat.zero_add _) e he

/-! ### Where nodes are visited -/

/-- Performing the first tasks of a node leads on. -/
theorem Part.Stands.leads {raw : Json} {n : NodeShape} {k : Nat} {before behind : List Task}
    {done : List (Step × SchemaNode)} (hl : Part.Stands g q (.node raw) l) (hq : q.Valid g)
    (hn : NodeShape.ofJson raw = .ok n) (htasks : n.tasks g l = before ++ behind)
    (h : Performs g o k l before q (.ok done) q') : q.Leads g o q' := by
  refine (h.leads hq fun step part hpart => hl.tasks hn step part ?_).1
  rw [htasks, List.filterMap_append]
  exact List.mem_append_left _ hpart

/-- **A node that is visited stands in the tree of the type that is being converted**, and
the called type leads to that type. -/
theorem Visits.stands {name : String} {d : Nat} {raw : Json} (hp : p.Idle g o)
    (h : Visits g o name p d l raw q) :
    q.Valid g ∧ Part.Stands g q (.node raw) l ∧ ReflTransGen (References g) name l.typeName := by
  induction h with
  | start hdef htree =>
    have henter : Advances g o p (p.enter name) := .enter htree hdef hp.notMem hp.references
    exact ⟨henter.valid hp.valid, .root htree hp.notMem, .refl⟩
  | @part d l raw q n before step c behind done q' _ _ hn htasks hbefore ih =>
    obtain ⟨hq, hl, hreach⟩ := ih
    have hlead := hl.leads hq hn htasks hbefore
    have hpart : (step, .node c) ∈ (n.tasks g l).filterMap Task.part? := by
      rw [htasks, List.filterMap_append]
      exact List.mem_append_right _ List.mem_cons_self
    exact ⟨hlead.valid hq, (hl.tasks hn step (.node c) hpart).of_leads hlead, hreach⟩
  | @reference d l raw q n done q' T tree _ _ hn htasks hT hopen hdef htree ih =>
    obtain ⟨hq, hl, hreach⟩ := ih
    have hlead := hl.leads hq hn (List.append_nil _).symm htasks
    have hl' := hl.of_leads hlead
    have henter : Advances g o q' (q'.enter T) :=
      .enter htree hdef hopen fun U hU => hl'.current_references hn hT hU
    exact ⟨henter.valid (hlead.valid hq), .root htree hopen, hreach.tail (hl'.references hn hT)⟩

end RamlSchema
