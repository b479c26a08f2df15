/-
RamlSchema/Proofs/Normalize/Conversion.lean

The conversion as a relation between the progress before and after it.

`Converts g o k part location p r p'` says: with `k` levels left, the conversion
of `part` takes the progress from `p` to `p'` and gives `r`, a node or an error.
`Performs` says the same of a list of tasks, `Completes` of a type by its name.
There is one rule for each way in which such a step can go, so a fact about all
conversions is proved by recursion on the rules, once for each of them.

Main results: the relations are the functions.  `converts_iff` is about
`visit`, and `completes_iff` about a type by its name.
-/
import RamlSchema.Proofs.Normalize.References

namespace RamlSchema

open RamlSchema.Convert

/-! ### The rules -/

/-- The keywords that a node lays over the schema of its type. -/
def NodeShape.site (n : NodeShape) (done : List (Step × SchemaNode)) : SchemaNode :=
  { n.assemble done with type := none }

section Rules

variable (g : TypeGraph) (o : Options)

mutual

/-- The conversion of a part. -/
inductive Converts : Nat → Part → Location → Progress → Except ConvertError SchemaNode →
    Progress → Prop
  /-- An element that is a union is left as it is written. -/
  | written {k element l p} :
      Converts k (.written element) l p (.ok (.ofType element)) (p.emit (.arrayOfUnion l element))
  /-- No level is left. -/
  | tooDeep {raw l p} :
      Converts 0 (.node raw) l p (.error (.tooDeep l o.maxDepth)) p
  /-- The node has no shape. -/
  | malformed {k raw l p cause} :
      NodeShape.ofJson raw = .error cause →
      Converts (k + 1) (.node raw) l p (.error (.malformed l cause)) p
  /-- One of its tasks fails. -/
  | failed {k raw l p n e p'} :
      NodeShape.ofJson raw = .ok n → Performs k l (n.tasks g l) p (.error e) p' →
      Converts (k + 1) (.node raw) l p (.error e) p'
  /-- Its single type, if it has one, is not declared. -/
  | plain {k raw l p n done p'} :
      NodeShape.ofJson raw = .ok n → Performs k l (n.tasks g l) p (.ok done) p' →
      n.declared? g = none →
      Converts (k + 1) (.node raw) l p (.ok (n.assemble done)) p'
  /-- Its type is in progress, and a reference is written. -/
  | cycle {k raw l p n done p' name} :
      NodeShape.ofJson raw = .ok n → Performs k l (n.tasks g l) p (.ok done) p' →
      n.declared? g = some name → name ∈ p'.inProgress → o.onCycle = .reference →
      Converts (k + 1) (.node raw) l p (.ok ((SchemaNode.referenceTo name).overlay (n.site done)))
        (p'.breakCycle name l)
  /-- Its type is in progress, and the cycle is an error. -/
  | cyclic {k raw l p n done p' name} :
      NodeShape.ofJson raw = .ok n → Performs k l (n.tasks g l) p (.ok done) p' →
      n.declared? g = some name → name ∈ p'.inProgress → o.onCycle = .error →
      Converts (k + 1) (.node raw) l p (.error (.cyclic l (p'.cycleThrough name))) p'
  /-- Its type is put in its place. -/
  | inlined {k raw l p n done p₁ name base p₂} :
      NodeShape.ofJson raw = .ok n → Performs k l (n.tasks g l) p (.ok done) p₁ →
      n.declared? g = some name → name ∉ p₁.inProgress → Completes k name p₁ (.ok base) p₂ →
      Converts (k + 1) (.node raw) l p (.ok (base.overlay (n.site done))) (p₂.nest name l)
  /-- Its type cannot be converted. -/
  | lost {k raw l p n done p₁ name e p₂} :
      NodeShape.ofJson raw = .ok n → Performs k l (n.tasks g l) p (.ok done) p₁ →
      n.declared? g = some name → name ∉ p₁.inProgress → Completes k name p₁ (.error e) p₂ →
      Converts (k + 1) (.node raw) l p (.error e) p₂

/-- Tasks, one by one. -/
inductive Performs : Nat → Location → List Task → Progress →
    Except ConvertError (List (Step × SchemaNode)) → Progress → Prop
  | nil {k l p} : Performs k l [] p (.ok []) p
  | report {k l e ts p r p'} :
      Performs k l ts (p.emit e) r p' → Performs k l (.report e :: ts) p r p'
  | fail {k l e ts p} : Performs k l (.fail e :: ts) p (.error e) p
  /-- The part fails. -/
  | stop {k l step part ts p e p'} :
      Converts k part (l.descend step.keys) p (.error e) p' →
      Performs k l (.convert step part :: ts) p (.error e) p'
  /-- A later task fails. -/
  | later {k l step part ts p n p₁ e p'} :
      Converts k part (l.descend step.keys) p (.ok n) p₁ → Performs k l ts p₁ (.error e) p' →
      Performs k l (.convert step part :: ts) p (.error e) p'
  | convert {k l step part ts p n p₁ done p'} :
      Converts k part (l.descend step.keys) p (.ok n) p₁ → Performs k l ts p₁ (.ok done) p' →
      Performs k l (.convert step part :: ts) p (.ok ((step, n) :: done)) p'

/-- A type by its name. -/
inductive Completes : Nat → String → Progress → Except ConvertError SchemaNode →
    Progress → Prop
  /-- It is done. -/
  | known {k name p n} : p.definition? name = some n → Completes k name p (.ok n) p
  | undeclared {k name p} :
      p.definition? name = none → g.tree? name = none →
      Completes k name p (.error (.malformed ⟨name, []⟩ .undeclared)) p
  /-- It is converted now. -/
  | defined {k name tree p n p'} :
      p.definition? name = none → g.tree? name = some tree →
      Converts k (.node tree) ⟨name, []⟩ (p.enter name) (.ok n) p' →
      Completes k name p (.ok n) ((p'.leave name).define name n)
  /-- It is converted now, and that fails. -/
  | abandoned {k name tree p e p'} :
      p.definition? name = none → g.tree? name = some tree →
      Converts k (.node tree) ⟨name, []⟩ (p.enter name) (.error e) p' →
      Completes k name p (.error e) (p'.leave name)

end

end Rules

/-! ### The functions follow the rules -/

theorem exec_within {α : Type} (name : String) (x : Convert α) (p : Progress) :
    exec (within name x) p
      = ((exec x (p.enter name)).1, (exec x (p.enter name)).2.leave name) := rfl

section Functions

variable {g : TypeGraph} {o : Options} {k : Nat} {deeper : Visitor}

variable (g o k deeper) in
/-- A visitor that follows the rules with `k` levels left. -/
def Follows : Prop :=
  ∀ part l p r p', exec (visitPart deeper part l) p = (r, p') → Converts g o k part l p r p'

theorem performs_of_exec (hdeeper : Follows g o k deeper) {l : Location} {ts : List Task}
    {p p' : Progress} {r : Except ConvertError (List (Step × SchemaNode))}
    (h : exec (perform deeper l ts) p = (r, p')) : Performs g o k l ts p r p' := by
  induction ts generalizing p r with
  | nil =>
    simp only [perform, exec_pure, Prod.mk.injEq] at h
    obtain ⟨rfl, rfl⟩ := h
    exact .nil
  | cons t ts ih =>
    cases t with
    | report e =>
      rw [perform, exec_bind] at h
      exact .report (ih h)
    | fail e =>
      simp only [perform, exec_throw, Prod.mk.injEq] at h
      obtain ⟨rfl, rfl⟩ := h
      exact .fail
    | convert step part =>
      -- the part first, and the tasks behind it unless the part fails
      rw [perform, exec_bind] at h
      rcases hn : exec (visitPart deeper part (l.descend step.keys)) p with ⟨e | n, p₁⟩
      · simp only [hn, Prod.mk.injEq] at h
        obtain ⟨rfl, rfl⟩ := h
        exact .stop (hdeeper _ _ _ _ _ hn)
      · simp only [hn, exec_bind] at h
        rcases hts : exec (perform deeper l ts) p₁ with ⟨e | done, p₂⟩
        · simp only [hts, Prod.mk.injEq] at h
          obtain ⟨rfl, rfl⟩ := h
          exact .later (hdeeper _ _ _ _ _ hn) (ih hts)
        · simp only [hts, exec_pure, Prod.mk.injEq] at h
          obtain ⟨rfl, rfl⟩ := h
          exact .convert (hdeeper _ _ _ _ _ hn) (ih hts)

theorem completes_of_exec (hdeeper : Follows g o k deeper) {name : String} {p p' : Progress}
    {r : Except ConvertError SchemaNode} (h : exec (visitNamed g deeper name) p = (r, p')) :
    Completes g o k name p r p' := by
  rw [visitNamed, exec_bind] at h
  rcases hdef : p.definition? name with - | n
  · rcases htree : g.tree? name with - | tree
    · simp only [exec_get, hdef, htree, exec_throw, Prod.mk.injEq] at h
      obtain ⟨rfl, rfl⟩ := h
      exact .undeclared hdef htree
    · simp only [exec_get, hdef, htree, exec_bind, exec_within] at h
      rcases hn : exec (deeper tree ⟨name, []⟩) (p.enter name) with ⟨e | n, p₁⟩
      · simp only [hn, Prod.mk.injEq] at h
        obtain ⟨rfl, rfl⟩ := h
        exact .abandoned hdef htree (hdeeper (.node tree) _ _ _ _ hn)
      · simp only [hn, exec_modify, exec_pure, Prod.mk.injEq] at h
        obtain ⟨rfl, rfl⟩ := h
        exact .defined hdef htree (hdeeper (.node tree) _ _ _ _ hn)
  · simp only [exec_get, hdef, exec_pure, Prod.mk.injEq] at h
    obtain ⟨rfl, rfl⟩ := h
    exact .known hdef

/-- One level of the conversion, its own keywords and the look-up of its type
apart. -/
theorem exec_visitNode (raw : Json) (l : Location) (p : Progress) :
    exec (visitNode g o deeper raw l) p =
      match NodeShape.ofJson raw with
      | .error cause => (.error (.malformed l cause), p)
      | .ok n =>
        match exec (perform deeper l (n.tasks g l)) p with
        | (.error e, p₁) => (.error e, p₁)
        | (.ok done, p₁) =>
          match n.declared? g with
          | none => (.ok (n.assemble done), p₁)
          | some name =>
            ((exec (resolve g o deeper name l) p₁).1.map (·.overlay (n.site done)),
              (exec (resolve g o deeper name l) p₁).2) := by
  rw [visitNode, exec_bind]
  rcases hshape : NodeShape.ofJson raw with cause | n
  · rfl
  · simp only [require, exec_pure, exec_bind, visitOwn_eq, exec_map]
    rcases exec (perform deeper l (n.tasks g l)) p with ⟨e | done, p₁⟩
    · rfl
    · -- the conversion looks the type up in what it has assembled
      have hname : (n.assemble done).typeName? = n.typeName? := rfl
      simp only [Except.map, hname, NodeShape.declared?]
      rcases n.typeName? with - | name
      · rfl
      · by_cases hg : g.contains name
        · simp only [hg, if_true, Option.filter_some, exec_bind]
          rcases exec (resolve g o deeper name l) p₁ with ⟨e | base, p₂⟩ <;> rfl
        · simp [hg, Option.filter]

theorem exec_resolve (name : String) (l : Location) (p : Progress) :
    exec (resolve g o deeper name l) p =
      if name ∈ p.inProgress then
        match o.onCycle with
        | .reference => (.ok (.referenceTo name), p.breakCycle name l)
        | .error => (.error (.cyclic l (p.cycleThrough name)), p)
      else
        match exec (visitNamed g deeper name) p with
        | (.error e, p₁) => (.error e, p₁)
        | (.ok base, p₁) => (.ok base, p₁.nest name l) := by
  rw [resolve, exec_bind]
  simp only [exec_get]
  split
  · rcases ho : o.onCycle <;> simp [breakCycle, ho, exec_bind, exec_map]; rfl
  · rw [exec_bind]
    rcases exec (visitNamed g deeper name) p with ⟨e | base, p₁⟩ <;> rfl

theorem follows_visitNode (hdeeper : Follows g o k deeper) :
    Follows g o (k + 1) (visitNode g o deeper) := by
  intro part l p r p' h
  rcases part with raw | element
  case written =>
    simp only [visitPart, exec_bind, exec_modify, exec_pure, Prod.mk.injEq] at h
    obtain ⟨rfl, rfl⟩ := h
    exact .written
  simp only [visitPart, exec_visitNode] at h
  rcases hshape : NodeShape.ofJson raw with cause | n
  · simp only [hshape, Prod.mk.injEq] at h
    obtain ⟨rfl, rfl⟩ := h
    exact .malformed hshape
  rcases htasks : exec (perform deeper l (n.tasks g l)) p with ⟨e | done, p₁⟩
  · simp only [hshape, htasks, Prod.mk.injEq] at h
    obtain ⟨rfl, rfl⟩ := h
    exact .failed hshape (performs_of_exec hdeeper htasks)
  have hperforms := performs_of_exec hdeeper htasks
  rcases hname : n.declared? g with - | name
  · simp only [hshape, htasks, hname, Prod.mk.injEq] at h
    obtain ⟨rfl, rfl⟩ := h
    exact .plain hshape hperforms hname
  simp only [hshape, htasks, hname, exec_resolve] at h
  -- a declared type: in progress, and a cycle is closed, or put in its place
  by_cases hp : name ∈ p₁.inProgress
  · rcases ho : o.onCycle
    · simp only [hp, ho, if_true, Except.map, Prod.mk.injEq] at h
      obtain ⟨rfl, rfl⟩ := h
      exact .cycle hshape hperforms hname hp ho
    · simp only [hp, ho, if_true, Except.map, Prod.mk.injEq] at h
      obtain ⟨rfl, rfl⟩ := h
      exact .cyclic hshape hperforms hname hp ho
  · rcases hbase : exec (visitNamed g deeper name) p₁ with ⟨e | base, p₂⟩
    · simp only [hp, hbase, if_false, Except.map, Prod.mk.injEq] at h
      obtain ⟨rfl, rfl⟩ := h
      exact .lost hshape hperforms hname hp (completes_of_exec hdeeper hbase)
    · simp only [hp, hbase, if_false, Except.map, Prod.mk.injEq] at h
      obtain ⟨rfl, rfl⟩ := h
      exact .inlined hshape hperforms hname hp (completes_of_exec hdeeper hbase)

/-- The conversion of nodes follows the rules. -/
theorem follows_visit : ∀ k, Follows g o k (visit g o k)
  | 0 => by
    intro part l p r p' h
    rcases part with raw | element
    · simp only [visitPart, visit, exec_throw, Prod.mk.injEq] at h
      obtain ⟨rfl, rfl⟩ := h
      exact .tooDeep
    · simp only [visitPart, exec_bind, exec_modify, exec_pure, Prod.mk.injEq] at h
      obtain ⟨rfl, rfl⟩ := h
      exact .written
  | k + 1 => follows_visitNode (follows_visit k)

end Functions

/-! ### The rules determine the functions -/

section Determined

variable {g : TypeGraph} {o : Options}

mutual

theorem Converts.exec_eq {k : Nat} {part : Part} {l : Location} {p p' : Progress}
    {r : Except ConvertError SchemaNode} :
    Converts g o k part l p r p' → exec (visitPart (visit g o k) part l) p = (r, p')
  | .written => rfl
  | .tooDeep => by simp [visitPart, visit]
  | .malformed hshape => by simp [visitPart, visit, exec_visitNode, hshape]
  | .failed hshape htasks => by
    simp [visitPart, visit, exec_visitNode, hshape, htasks.exec_eq]
  | .plain hshape htasks hname => by
    simp [visitPart, visit, exec_visitNode, hshape, htasks.exec_eq, hname]
  | .cycle hshape htasks hname hp ho => by
    simp [visitPart, visit, exec_visitNode, hshape, htasks.exec_eq, hname, exec_resolve, hp, ho,
      Except.map]
  | .cyclic hshape htasks hname hp ho => by
    simp [visitPart, visit, exec_visitNode, hshape, htasks.exec_eq, hname, exec_resolve, hp, ho,
      Except.map]
  | .inlined hshape htasks hname hp hbase => by
    simp [visitPart, visit, exec_visitNode, hshape, htasks.exec_eq, hname, exec_resolve, hp,
      hbase.exec_eq, Except.map]
  | .lost hshape htasks hname hp hbase => by
    simp [visitPart, visit, exec_visitNode, hshape, htasks.exec_eq, hname, exec_resolve, hp,
      hbase.exec_eq, Except.map]

theorem Performs.exec_eq {k : Nat} {l : Location} {ts : List Task} {p p' : Progress}
    {r : Except ConvertError (List (Step × SchemaNode))} :
    Performs g o k l ts p r p' → exec (perform (visit g o k) l ts) p = (r, p')
  | .nil => rfl
  | .report hts => by simp [perform, exec_bind, hts.exec_eq]
  | .fail => rfl
  | .stop hn => by simp [perform, exec_bind, hn.exec_eq]
  | .later hn hts => by simp [perform, exec_bind, hn.exec_eq, exec_map, hts.exec_eq, Except.map]
  | .convert hn hts => by
    simp [perform, exec_bind, hn.exec_eq, exec_map, hts.exec_eq, Except.map]

theorem Completes.exec_eq {k : Nat} {name : String} {p p' : Progress}
    {r : Except ConvertError SchemaNode} :
    Completes g o k name p r p' → exec (visitNamed g (visit g o k) name) p = (r, p')
  | .known hdef => by simp [visitNamed, exec_bind, hdef]
  | .undeclared hdef htree => by simp [visitNamed, exec_bind, hdef, htree]
  | .defined hdef htree hn => by
    have hvisit : exec (visit g o k _ _) _ = _ := hn.exec_eq
    rw [visitNamed, exec_bind]
    simp only [exec_get, hdef, htree, exec_bind, exec_within, hvisit]
    rfl
  | .abandoned hdef htree hn => by
    have hvisit : exec (visit g o k _ _) _ = _ := hn.exec_eq
    rw [visitNamed, exec_bind]
    simp only [exec_get, hdef, htree, exec_bind, exec_within, hvisit]

end

/-- **The rules are the conversion of parts.** -/
theorem converts_iff {k : Nat} {part : Part} {l : Location} {p p' : Progress}
    {r : Except ConvertError SchemaNode} :
    Converts g o k part l p r p' ↔ exec (visitPart (visit g o k) part l) p = (r, p') :=
  ⟨Converts.exec_eq, follows_visit k _ _ _ _ _⟩

/-- **The rules are the conversion of types.** -/
theorem completes_iff {k : Nat} {name : String} {p p' : Progress}
    {r : Except ConvertError SchemaNode} :
    Completes g o k name p r p' ↔ exec (visitNamed g (visit g o k) name) p = (r, p') :=
  ⟨Completes.exec_eq, completes_of_exec (follows_visit k)⟩

end Determined

end RamlSchema
