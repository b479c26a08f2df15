/-
RamlSchema/Proofs/Normalize/Order.lean

The order in which types are converted.

Where no reference is written, a call gives what it would give by itself, before
any other call, and leaves behind what the calls so far would have left behind
each by itself (`Progress.Collects`).  Neither depends on the order of the calls.

Main result: `calls_orderless`, for any calls, and for the declarations of a
graph in any order.
-/
import RamlSchema.Proofs.Normalize.Cache
import RamlSchema.Proofs.Normalize.Calls

namespace RamlSchema

open Progress

section

variable (g : TypeGraph) (o : Options)

/-- What the conversion of a type gives by itself. -/
def fresh (name : String) : Except ConvertError SchemaNode :=
  (call g o {} name).1

/-- What the conversion of a type leaves behind by itself. -/
def trail (name : String) : Progress :=
  (call g o {} name).2

/-- The conversions of `names`, each by itself, leave `p` behind between them. -/
structure Progress.Collects (names : List String) (p : Progress) : Prop where
  idle : p.Idle g o
  untargeted : p.cycleTargets = []
  definition : ∀ T n, p.definition? T = some n ↔
    ∃ name ∈ names, (trail g o name).definition? T = some n
  nested : ∀ T, T ∈ p.nested ↔ ∃ name ∈ names, T ∈ (trail g o name).nested

end

variable {g : TypeGraph} {o : Options} {p p' : Progress} {name : String}
  {names names' : List String}

/-! ### Call after call -/

theorem collects_nil : Progress.Collects g o [] {} where
  idle := idle_empty
  untargeted := rfl
  definition := by simp [definition?, Members.get?]
  nested := by simp

/-- A call gives what it gives by itself. -/
theorem call_joins (ho : Unbroken g o) (hp : p.Idle g o) (hnone : p.cycleTargets = [])
    (hr : ¬ Exhausted (fresh g o name)) :
    (call g o p name).1 = fresh g o name ∧ Joins p (trail g o name) (call g o p name).2 := by
  have hj : Joins p {} p :=
    ⟨hp.inProgress, .refl p, ⟨nofun, List.nil_subset _⟩, fun _ _ h => .inl h, fun _ h => .inl h⟩
  obtain ⟨p', hcall, hj'⟩ := (call_completes (g := g) (o := o) {} name).joins ho
    ⟨hp.valid, hnone⟩ hp.notMem hp.references hj hr
  -- the rules determine the call
  have hexec : call g o p name = (fresh g o name, p') := completes_iff.mp hcall
  rw [hexec]
  exact ⟨rfl, hj'⟩

theorem call_known {n : SchemaNode} (h : p.definition? name = some n) :
    call g o p name = (.ok n, p) :=
  completes_iff.mp (.known h)

theorem Progress.Collects.call (hp : p.Collects g o names) (ho : Unbroken g o)
    (hr : ¬ Exhausted (fresh g o name)) :
    (call g o p name).2.Collects g o (names ++ [name]) := by
  have hj := (call_joins ho hp.idle hp.untargeted hr).2
  have hlead := (call_leads hp.idle name).1
  refine ⟨call_idle hp.idle name,
    Reaches.untargeted ho hlead.reaches hp.idle.valid hp.untargeted, fun T n => ?_, fun T => ?_⟩
  · simp only [List.mem_append, List.mem_singleton, or_and_right, exists_or, exists_eq_left,
      ← hp.definition]
    exact ⟨hj.definition T n, fun h => h.elim (hj.left.definition T n) (hj.right.definition T n)⟩
  · simp only [List.mem_append, List.mem_singleton, or_and_right, exists_or, exists_eq_left,
      ← hp.nested]
    exact ⟨hj.nested T, fun h => h.elim (hj.left.nested ·) (hj.right.nested ·)⟩

theorem calls_collects (ho : Unbroken g o) (hp : p.Collects g o names)
    (hr : ∀ name ∈ names', ¬ Exhausted (fresh g o name)) :
    (calls g o p names').1 = names'.map (fresh g o) ∧
      (calls g o p names').2.Collects g o (names ++ names') := by
  induction names' generalizing p names with
  | nil => exact ⟨rfl, by simpa [calls] using hp⟩
  | cons name names' ih =>
    have hname := hr name List.mem_cons_self
    have hrest := ih (hp.call ho hname) fun U hU => hr U (List.mem_cons_of_mem _ hU)
    have hcall := (call_joins ho hp.idle hp.untargeted hname).1
    refine ⟨?_, ?_⟩
    · rw [calls, List.map_cons, ← hcall, ← hrest.1]
    · rw [calls]
      simpa using hrest.2

/-- A report changes nothing of what is left behind. -/
theorem Progress.Collects.emit (hp : p.Collects g o names) (e : Event) :
    (p.emit e).Collects g o names :=
  ⟨hp.idle.emit e, hp.untargeted, hp.definition, hp.nested⟩

/-- The turns of some types leave behind what calls of them would, and the
failures are those of the calls. -/
theorem turns_collects (ho : Unbroken g o) (hr : ∀ name ∈ names, ¬ Exhausted (fresh g o name)) :
    (turns g o names).1.Collects g o names ∧
      ∀ f, f ∈ (turns g o names).2 ↔ f.name ∈ names ∧ fresh g o f.name = .error f.error := by
  refine turns_induction
    (Q := fun names s => (∀ name ∈ names, ¬ Exhausted (fresh g o name)) →
      s.1.Collects g o names ∧
        ∀ f, f ∈ s.2 ↔ f.name ∈ names ∧ fresh g o f.name = .error f.error)
    (fun _ => ⟨collects_nil, by simp⟩) (fun names name s _ ih hr => ?_) names hr
  obtain ⟨hs, hfailures⟩ := ih fun U hU => hr U (List.mem_append_left _ hU)
  have hname := hr name (by simp)
  have hcollects := hs.call ho hname
  have hcall := (call_joins ho hs.idle hs.untargeted hname).1
  -- the failures before the turn, and that of the call if it fails
  have hold : ∀ f : Failure, f ∈ s.2 ∨ (f.name = name ∧ fresh g o name = .error f.error) ↔
      f.name ∈ names ++ [name] ∧ fresh g o f.name = .error f.error := by
    intro f
    rw [hfailures, List.mem_append, List.mem_singleton, or_and_right]
    refine or_congr_right ⟨?_, ?_⟩
    · rintro ⟨hf, he⟩
      exact ⟨hf, hf ▸ he⟩
    · rintro ⟨hf, he⟩
      exact ⟨hf, hf ▸ he⟩
  rw [normalizeNext_eq]
  split
  · -- a type that is skipped is one that a call would find done
    rename_i hdone
    obtain ⟨n, hn⟩ := Members.exists_get?_of_mem_keys hdone
    rw [call_known hn] at hcollects hcall
    exact ⟨hcollects, fun f => by rw [← hold f, ← hcall]; simp⟩
  · rcases h : call g o s.1 name with ⟨e | n, p⟩ <;> rw [h] at hcollects hcall
    · refine ⟨hcollects.emit _, fun f => ?_⟩
      rw [← hold f, ← hcall, List.mem_append, List.mem_singleton]
      rcases f with ⟨fname, ferror⟩
      simp [eq_comm]
    · exact ⟨hcollects, fun f => by rw [← hold f, ← hcall]; simp⟩

/-! ### Two sequences of calls -/

/-- A type that is not declared leaves nothing behind. -/
theorem trail_undeclared (h : name ∉ g.names) : trail g o name = {} := by
  rw [trail, call_undeclared idle_empty h]

theorem Progress.Collects.inside (hp : p.Collects g o names) (hp' : p'.Collects g o names')
    (hnames' : ∀ T ∈ g.names, T ∈ names') : p.Inside p' := by
  -- what is not declared leaves nothing behind, whichever of the two names it
  have hdeclared : ∀ U ∈ names, U ∈ names' ∨ trail g o U = {} := by
    intro U _
    by_cases hU : U ∈ g.names
    · exact .inl (hnames' U hU)
    · exact .inr (trail_undeclared hU)
  refine ⟨fun T n hn => ?_, fun T hT => ?_⟩
  · obtain ⟨U, hU, hn⟩ := (hp.definition T n).mp hn
    rcases hdeclared U hU with hU' | hU'
    · exact (hp'.definition T n).mpr ⟨U, hU', hn⟩
    · rw [hU'] at hn
      cases hn
  · obtain ⟨U, hU, hT⟩ := (hp.nested T).mp hT
    rcases hdeclared U hU with hU' | hU'
    · exact (hp'.nested T).mpr ⟨U, hU', hT⟩
    · rw [hU'] at hT
      cases hT

/-- Nothing tells two progresses apart. -/
structure Progress.Agrees (p p' : Progress) : Prop where
  definition : ∀ T, p.definition? T = p'.definition? T
  nested : ∀ T, p.isNested T = p'.isNested T
  topLevel : ∀ T, p.isTopLevel T = p'.isTopLevel T

theorem Progress.Inside.agrees (h : p.Inside p') (h' : p'.Inside p)
    (htargets : p.cycleTargets = p'.cycleTargets) : p.Agrees p' := by
  have hdefinition : ∀ T, p.definition? T = p'.definition? T :=
    fun T => Option.ext fun n => ⟨h.definition T n, h'.definition T n⟩
  have hnested : ∀ T, p.isNested T = p'.isNested T := fun T => by
    rw [Bool.eq_iff_iff]
    simp only [isNested, List.contains_iff_mem]
    exact ⟨fun hT => h.nested hT, fun hT => h'.nested hT⟩
  refine ⟨hdefinition, hnested, fun T => ?_⟩
  have hdone : p.definitions.contains T = p'.definitions.contains T :=
    congrArg Option.isSome (hdefinition T)
  rw [isTopLevel, isTopLevel, hdone, hnested, htargets]

theorem Progress.Collects.agrees (hp : p.Collects g o names) (hp' : p'.Collects g o names')
    (hnames : ∀ T ∈ g.names, T ∈ names) (hnames' : ∀ T ∈ g.names, T ∈ names') : p.Agrees p' :=
  (hp.inside hp' hnames').agrees (hp'.inside hp hnames) (hp.untargeted.trans hp'.untargeted.symm)

theorem Progress.Agrees.documents (h : p.Agrees p') (g : TypeGraph) (o : Options) :
    p.documents g o = p'.documents g o := by
  simp only [Progress.documents, h.definition, h.topLevel]

/-! ### The same declarations in another order -/

section Congr

variable {g' : TypeGraph}

/-- A conversion depends on the declared trees and not on their order. -/
theorem visit_congr (h : ∀ T, g.tree? T = g'.tree? T) (k : Nat) : visit g o k = visit g' o k := by
  have hcontains : ∀ T, g.contains T = g'.contains T := fun T => congrArg Option.isSome (h T)
  induction k with
  | zero => rfl
  | succ k ih =>
    funext raw l
    simp only [visit, visitNode, visitOwn, visitDeclared, mayHaveProperties, resolve, visitNamed,
      h, hcontains, ih]
    rfl

theorem call_congr (h : ∀ T, g.tree? T = g'.tree? T) : call g o = call g' o := by
  funext p name
  simp only [call, normalizeType, visitNamed, h, visit_congr h]

theorem turns_congr (h : ∀ T, g.tree? T = g'.tree? T) : turns g o = turns g' o := by
  have hnext : normalizeNext g o = normalizeNext g' o := by
    funext s name
    rw [normalizeNext_eq, normalizeNext_eq, call_congr h]
  funext names
  rw [turns, turns, hnext]

end Congr

/-- The documents of progresses that agree, for the same declarations in any order. -/
theorem Progress.Agrees.get?_documents {g' : TypeGraph} (h : p.Agrees p')
    (hnames : ∀ T, T ∈ g.names ↔ T ∈ g'.names) (T : String) :
    (p.documents g o).get? T = (p'.documents g' o).get? T := by
  apply Option.ext
  intro doc
  rw [Members.get?_eq_some_iff_mem (nodup_documents g o p),
    Members.get?_eq_some_iff_mem (nodup_documents g' o p'), mem_documents, mem_documents, hnames,
    h.topLevel, h.definition]

/-- **The cache is invisible and the order does not matter.** -/
theorem calls_orderless (ho : o.onCycle = .error ∨ g.Acyclic) :
    (∀ names, (∀ name ∈ names, ¬ Exhausted (fresh g o name)) →
      (calls g o {} names).1 = names.map (fresh g o)) ∧
    (∀ names names', (∀ T ∈ g.names, T ∈ names) → (∀ T ∈ g.names, T ∈ names') →
      (∀ name ∈ names ++ names', ¬ Exhausted (fresh g o name)) →
      (calls g o {} names).2.Agrees (calls g o {} names').2 ∧
        (calls g o {} names).2.documents g o = (calls g o {} names').2.documents g o) ∧
    (∀ g' : TypeGraph, g'.trees.Perm g.trees →
      (∀ name ∈ g.names, ¬ Exhausted (fresh g o name)) →
      (∀ T, (normalize g' o).documents.get? T = (normalize g o).documents.get? T) ∧
        ∀ f, f ∈ (normalize g' o).failures ↔ f ∈ (normalize g o).failures) := by
  refine ⟨fun names hr => ?_, fun names names' hnames hnames' hr => ?_, fun g' hperm hr => ?_⟩
  · exact (calls_collects ho collects_nil hr).1
  · have hp := (calls_collects ho collects_nil fun U hU => hr U (List.mem_append_left _ hU)).2
    have hp' := (calls_collects ho collects_nil fun U hU => hr U (List.mem_append_right _ hU)).2
    have hagrees := hp.agrees hp' hnames hnames'
    exact ⟨hagrees, hagrees.documents g o⟩
  · -- the calls are the same, and only their order is another one
    have htree : ∀ T, g'.tree? T = g.tree? T := Members.get?_perm hperm g'.nodup_names
    have hmem : ∀ T, T ∈ g'.names ↔ T ∈ g.names := fun T => (hperm.map Prod.fst).mem_iff
    have hturns : converted g' o = turns g o g'.names := congrFun (turns_congr htree) g'.names
    have hp := turns_collects ho hr
    have hp' := turns_collects ho fun U (hU : U ∈ g'.names) => hr U ((hmem U).mp hU)
    have hagrees : (converted g' o).1.Agrees (converted g o).1 := by
      rw [hturns]
      exact hp'.1.agrees hp.1 (fun T hT => (hmem T).mpr hT) fun T hT => hT
    refine ⟨hagrees.get?_documents hmem, fun f => ?_⟩
    show f ∈ (converted g' o).2 ↔ f ∈ (converted g o).2
    rw [hturns, hp'.2, hmem]
    exact (hp.2 f).symm

/-- A cycle of two types, one of which refers to a third one as well. -/
def cyclicGraph : TypeGraph :=
  .ofList
    [("A", .ofProperties [("c", .ofType (.str "C")), ("b", .ofType (.str "B"))]),
      ("B", .ofProperties [("a", .ofType (.str "A"))]), ("C", .ofType (.str "string"))]

/-- Options under which a cycle is an error. -/
def strictOptions : Options := { onCycle := .error }

/-- Forwards and backwards, the same is left behind, and each call gives what it
gives by itself. -/
theorem calls_orderless_cyclic :
    (calls cyclicGraph strictOptions {} ["A", "B", "C"]).1
        = ["A", "B", "C"].map (fresh cyclicGraph strictOptions) ∧
      (calls cyclicGraph strictOptions {} ["A", "B", "C"]).2.Agrees
        (calls cyclicGraph strictOptions {} ["C", "B", "A"]).2 := by
  have hA : ¬ Exhausted (fresh cyclicGraph strictOptions "A") := fun ⟨_, _, h⟩ => nomatch h
  have hB : ¬ Exhausted (fresh cyclicGraph strictOptions "B") := fun ⟨_, _, h⟩ => nomatch h
  have hC : ¬ Exhausted (fresh cyclicGraph strictOptions "C") := fun ⟨_, _, h⟩ => nomatch h
  have hnames : cyclicGraph.names = ["A", "B", "C"] := rfl
  have h := calls_orderless (g := cyclicGraph) (o := strictOptions) (.inl rfl)
  refine ⟨h.1 _ (by simp [hA, hB, hC]), (h.2.1 _ _ ?_ ?_ (by simp [hA, hB, hC])).1⟩
  · simp [hnames]
  · simp [hnames]

end RamlSchema
