/-
RamlSchema/Proofs/Normalize/Sessions.lean

What holds between the calls of a session.

A session is a sequence of calls that share one progress.  A call may fail at any
depth, and what was done before the failure stays, so a session never starts over.
Still the state between two calls is simple (`Progress.Settled`): no type is in
progress, and all that the progress names is declared.  It only grows, and a call
and the progress behind it tell the same: the type is done if and only if the call
has given its schema.

Main result: `session_settled`, for every call of every session.
-/
import RamlSchema.Proofs.Normalize.Levels

namespace RamlSchema

open Progress

variable {g : TypeGraph} {o : Options} {p p' : Progress}

/-- What holds of a progress between calls. -/
structure Progress.Settled (g : TypeGraph) (p : Progress) : Prop where
  inProgress : p.inProgress = []
  definition_declared : ∀ T n, p.definition? T = some n → T ∈ g.names
  nested_defined : ∀ T, p.isNested T = true → ∃ n, p.definition? T = some n
  target_declared : ∀ T ∈ p.cycleTargets, T ∈ g.names

theorem Progress.Idle.settled (hp : p.Idle g o) : p.Settled g where
  inProgress := hp.inProgress
  definition_declared T n hn := hp.valid.definitions_declared T (Members.mem_keys_of_get? hn)
  nested_defined T hT := by
    have hmem : T ∈ p.nested := by simpa [isNested] using hT
    exact Members.exists_get?_of_mem_keys (hp.valid.nested_defined T hmem)
  target_declared _ hT := hp.valid.targets_declared hT

/-- A type that could not be converted is not done. -/
theorem Completes.definition?_of_error {k : Nat} {T : String} {e : ConvertError}
    (hp : p.Valid g) (hT : T ∉ p.inProgress) (hU : ∀ U, p.current? = some U → References g U T)
    (h : Completes g o k T p (.error e) p') : p'.definition? T = none := by
  cases h with
  | undeclared hdef _ => exact hdef
  | abandoned hdef htree hn =>
    -- it was in progress up to the failure, and what is in progress is not done
    have henter : Advances g o p (p.enter T) := .enter htree hdef hT hU
    have hlead := (hn.leads (henter.valid hp) (.root htree hT)).1
    have hmem := current?_mem (hlead.current?.trans (current?_enter hT))
    exact definition?_eq_none_iff.mpr ((hlead.valid (henter.valid hp)).apart T hmem)

/-! ### Calls -/

/-- A call and the progress behind it tell the same. -/
theorem call_ok_iff (hp : p.Idle g o) (name : String) (n : SchemaNode) :
    (call g o p name).1 = .ok n ↔ (call g o p name).2.definition? name = some n := by
  refine ⟨(call_leads hp name).2 n, fun hn => ?_⟩
  have hcall := call_completes (g := g) (o := o) p name
  rcases hr : (call g o p name).1 with e | m
  · rw [hr] at hcall
    have hnone := hcall.definition?_of_error hp.valid hp.notMem hp.references
    exact nomatch hnone.symm.trans hn
  · have hm := (call_leads hp name).2 m hr
    rw [Option.some.inj (hm.symm.trans hn)]

/-- Calls take nothing back. -/
theorem calls_extends (hp : p.Idle g o) (names : List String) :
    p.Extends (calls g o p names).2 := by
  induction names generalizing p with
  | nil => exact .refl p
  | cons name names ih =>
    have hfirst := (call_leads hp name).1.extends hp.valid
    exact hfirst.trans (ih (call_idle hp name))

/-- **What holds after each call of a session**, whatever has been called before.
The progress is settled, no call takes anything back, a call succeeds if and only if
its type is done behind it, and a type that is not declared leaves no trace. -/
theorem session_settled (g : TypeGraph) (o : Options) (names : List String) (name : String) :
    let p := (calls g o {} names).2
    let r := (call g o p name).1
    let p' := (call g o p name).2
    p'.Settled g ∧
      (p.Extends p' ∧ ∀ later, p'.Extends (calls g o p' later).2) ∧
      (∀ n, r = .ok n ↔ p'.definition? name = some n) ∧
      (∀ e, r = .error e → p'.definition? name = none) ∧
      (name ∉ g.names → r = .error (.malformed ⟨name, []⟩ .undeclared) ∧ p' = p) := by
  intro p r p'
  have hp : p.Idle g o := calls_idle idle_empty
  have hp' : p'.Idle g o := call_idle hp name
  refine ⟨hp'.settled, ⟨(call_leads hp name).1.extends hp.valid, calls_extends hp'⟩,
    call_ok_iff hp name, fun e he => ?_, fun hname => ?_⟩
  · have hcall : Completes g o _ name p r p' := call_completes p name
    rw [he] at hcall
    exact hcall.definition?_of_error hp.valid hp.notMem hp.references
  · have hcall : call g o p name = _ := call_undeclared hp hname
    exact ⟨congrArg Prod.fst hcall, congrArg Prod.snd hcall⟩

end RamlSchema
