/-
RamlSchema/Proofs/Normalize/Cache.lean

What is done already makes no difference to what comes after.

Take a conversion that starts from `q`, and start it instead from `p`, which has
in addition what another progress `p₀` has.  Where the first one converts a type
that `p₀` has, the second one takes the schema from `p₀`; as converting it again
would lead to nothing else, the two come to the same result, and the second ends
with what `p₀` and the end of the first have between them.

Main result: `Completes.joins`.
-/
import RamlSchema.Proofs.Normalize.Replay

namespace RamlSchema

open Progress

/-- `p` has what `p₀` and `q` have between them, and converts what `q` does. -/
structure Joins (p₀ q p : Progress) : Prop where
  inProgress : p.inProgress = q.inProgress
  left : p₀.Inside p
  right : q.Inside p
  definition : ∀ T n, p.definition? T = some n →
    p₀.definition? T = some n ∨ q.definition? T = some n
  nested : ∀ T ∈ p.nested, T ∈ p₀.nested ∨ T ∈ q.nested

variable {g : TypeGraph} {o : Options} {p₀ p q p' q' : Progress} {T : String} {n : SchemaNode}

namespace Joins

theorem emit (h : Joins p₀ q p) (e : Event) : Joins p₀ (q.emit e) (p.emit e) :=
  ⟨h.inProgress, ⟨h.left.definition, h.left.nested⟩, ⟨h.right.definition, h.right.nested⟩,
    h.definition, h.nested⟩

theorem enter (h : Joins p₀ q p) (T : String) : Joins p₀ (q.enter T) (p.enter T) where
  inProgress := congrArg (Names.add · T) h.inProgress
  left := ⟨h.left.definition, h.left.nested⟩
  right := ⟨h.right.definition, h.right.nested⟩
  definition := h.definition
  nested := h.nested

theorem leave (h : Joins p₀ q p) (T : String) : Joins p₀ (q.leave T) (p.leave T) where
  inProgress := congrArg (List.filter (· ≠ T)) h.inProgress
  left := ⟨h.left.definition, h.left.nested⟩
  right := ⟨h.right.definition, h.right.nested⟩
  definition := h.definition
  nested := h.nested

theorem nest (h : Joins p₀ q p) (T : String) (l : Location) :
    Joins p₀ (q.nest T l) (p.nest T l) where
  inProgress := by rw [inProgress_nest, inProgress_nest, h.inProgress]
  left := by
    refine ⟨fun U n hn => ?_, fun U hU => p.mem_nested_nest_iff.mpr (.inl (h.left.nested hU))⟩
    rw [definition?_nest]
    exact h.left.definition U n hn
  right := by
    refine ⟨fun U n hn => ?_, fun U hU => ?_⟩
    · rw [definition?_nest] at hn ⊢
      exact h.right.definition U n hn
    · exact p.mem_nested_nest_iff.mpr ((q.mem_nested_nest_iff.mp hU).imp_left (h.right.nested ·))
  definition U n hn := by
    rw [definition?_nest] at hn ⊢
    exact h.definition U n hn
  nested U hU := by
    rcases p.mem_nested_nest_iff.mp hU with hU | rfl
    · exact (h.nested U hU).imp_right fun hU => q.mem_nested_nest_iff.mpr (.inl hU)
    · exact .inr (q.mem_nested_nest_iff.mpr (.inr rfl))

/-- A type that `p₀` does not have is done. -/
theorem define (h : Joins p₀ q p) (hT : p₀.definition? T = none) :
    Joins p₀ (q.define T n) (p.define T n) where
  inProgress := h.inProgress
  left := by
    refine ⟨fun U m hm => ?_, h.left.nested⟩
    -- what `p₀` has is not written over
    have hU : T ≠ U := by
      rintro rfl
      rw [hT] at hm
      cases hm
    rw [definition?_define_of_ne _ hU]
    exact h.left.definition U m hm
  right := by
    refine ⟨fun U m hm => ?_, h.right.nested⟩
    by_cases hU : T = U
    · subst hU
      rwa [definition?_define_self] at hm ⊢
    · rw [definition?_define_of_ne _ hU] at hm ⊢
      exact h.right.definition U m hm
  definition U m hm := by
    by_cases hU : T = U
    · subst hU
      rw [definition?_define_self] at hm ⊢
      exact .inr hm
    · rw [definition?_define_of_ne _ hU] at hm ⊢
      exact h.definition U m hm
  nested := h.nested

/-- All that is done in `p` can be converted again from `q`. -/
theorem repeats (h : Joins p₀ q p) (hp : p.Clean g) : p.Repeats p.definitions q where
  front := List.prefix_rfl
  inside := h.right
  apart := by
    rw [← h.inProgress]
    exact hp.valid.apart

/-- What stays inside `p` adds nothing to it. -/
theorem of_replays (h : Joins p₀ q p) (hq : p.Replays q q') : Joins p₀ q' p where
  inProgress := h.inProgress.trans hq.inProgress.symm
  left := h.left
  right := hq.inside
  definition U m hm := (h.definition U m hm).imp_right (hq.kept.definition U m)
  nested U hU := (h.nested U hU).imp_right (hq.kept.nested ·)

end Joins

/-! ### The same conversion from more -/

mutual

theorem Converts.joins {k : Nat} {part : Part} {l : Location} {p q q' : Progress}
    {r : Except ConvertError SchemaNode} (ho : Unbroken g o) (hp : p.Clean g)
    (hl : part.Stands g p l) (hj : Joins p₀ q p) (hr : ¬ Exhausted r) :
    Converts g o k part l q r q' → ∃ p', Converts g o k part l p r p' ∧ Joins p₀ q' p'
  | .written => ⟨_, .written, hj.emit _⟩
  | .tooDeep => ⟨_, .tooDeep, hj⟩
  | .malformed hs => ⟨_, .malformed hs, hj⟩
  | .failed hs htasks => by
    obtain ⟨p₁, hts, hj₁⟩ := htasks.joins ho hp (hl.tasks hs) hj fun h => hr h.error
    exact ⟨p₁, .failed hs hts, hj₁⟩
  | .plain hs htasks hT => by
    obtain ⟨p₁, hts, hj₁⟩ := htasks.joins ho hp (hl.tasks hs) hj Exhausted.not_ok
    exact ⟨p₁, .plain hs hts hT, hj₁⟩
  | .cycle hs htasks hT hmem hpolicy => by
    obtain ⟨p₁, hts, hj₁⟩ := htasks.joins ho hp (hl.tasks hs) hj Exhausted.not_ok
    -- the reference that would be written here cannot be
    have hp' := (Converts.leads hp.valid hl
      (.cycle hs hts hT (hj₁.inProgress ▸ hmem) hpolicy)).1.clean ho hp
    exact absurd hp' not_clean_breakCycle
  | .cyclic hs htasks hT hmem hpolicy => by
    obtain ⟨p₁, hts, hj₁⟩ := htasks.joins ho hp (hl.tasks hs) hj Exhausted.not_ok
    refine ⟨p₁, ?_, hj₁⟩
    -- the cycle in the error is read off the types in progress
    rw [cycleThrough, ← hj₁.inProgress]
    exact .cyclic hs hts hT (hj₁.inProgress ▸ hmem) hpolicy
  | .inlined hs htasks hT hmem hbase => by
    obtain ⟨p₁, hts, hj₁⟩ := htasks.joins ho hp (hl.tasks hs) hj Exhausted.not_ok
    have hlead := (hts.leads hp.valid (hl.tasks hs)).1
    have hmem₁ := hj₁.inProgress ▸ hmem
    have hl₁ := hl.of_leads hlead
    obtain ⟨p₂, hb, hj₂⟩ := hbase.joins ho (hlead.clean ho hp) hmem₁
      (fun U hU => hl₁.current_references hs hT hU) hj₁ Exhausted.not_ok
    exact ⟨_, .inlined hs hts hT hmem₁ hb, hj₂.nest _ _⟩
  | .lost hs htasks hT hmem hbase => by
    obtain ⟨p₁, hts, hj₁⟩ := htasks.joins ho hp (hl.tasks hs) hj Exhausted.not_ok
    have hlead := (hts.leads hp.valid (hl.tasks hs)).1
    have hmem₁ := hj₁.inProgress ▸ hmem
    have hl₁ := hl.of_leads hlead
    obtain ⟨p₂, hb, hj₂⟩ := hbase.joins ho (hlead.clean ho hp) hmem₁
      (fun U hU => hl₁.current_references hs hT hU) hj₁ hr
    exact ⟨_, .lost hs hts hT hmem₁ hb, hj₂⟩

theorem Performs.joins {k : Nat} {l : Location} {ts : List Task} {p q q' : Progress}
    {r : Except ConvertError (List (Step × SchemaNode))} (ho : Unbroken g o) (hp : p.Clean g)
    (hl : ∀ step part, (step, part) ∈ ts.filterMap Task.part? →
      part.Stands g p (l.descend step.keys))
    (hj : Joins p₀ q p) (hr : ¬ Exhausted r) :
    Performs g o k l ts q r q' → ∃ p', Performs g o k l ts p r p' ∧ Joins p₀ q' p'
  | .nil => ⟨_, .nil, hj⟩
  | @Performs.report _ _ _ _ e _ _ _ _ hts => by
    obtain ⟨p₁, hts', hj₁⟩ := hts.joins ho ⟨hp.valid.emit e, hp.untargeted⟩
      (Part.Stands.after_report hl) (hj.emit e) hr
    exact ⟨p₁, .report hts', hj₁⟩
  | .fail => ⟨_, .fail, hj⟩
  | .stop hn => by
    obtain ⟨p₁, hn', hj₁⟩ := hn.joins ho hp (hl _ _ List.mem_cons_self) hj fun h => hr h.error
    exact ⟨p₁, .stop hn', hj₁⟩
  | .later hn hts => by
    obtain ⟨p₁, hn', hj₁⟩ := hn.joins ho hp (hl _ _ List.mem_cons_self) hj Exhausted.not_ok
    have hlead := (hn'.leads hp.valid (hl _ _ List.mem_cons_self)).1
    obtain ⟨p₂, hts', hj₂⟩ := hts.joins ho (hlead.clean ho hp)
      (Part.Stands.after_part hl hlead) hj₁ hr
    exact ⟨p₂, .later hn' hts', hj₂⟩
  | .convert hn hts => by
    obtain ⟨p₁, hn', hj₁⟩ := hn.joins ho hp (hl _ _ List.mem_cons_self) hj Exhausted.not_ok
    have hlead := (hn'.leads hp.valid (hl _ _ List.mem_cons_self)).1
    obtain ⟨p₂, hts', hj₂⟩ := hts.joins ho (hlead.clean ho hp)
      (Part.Stands.after_part hl hlead) hj₁ Exhausted.not_ok
    exact ⟨p₂, .convert hn' hts', hj₂⟩

/-- **A conversion gives the same whatever is done already.** -/
theorem Completes.joins {k : Nat} {T : String} {p q q' : Progress}
    {r : Except ConvertError SchemaNode} (ho : Unbroken g o) (hp : p.Clean g)
    (hT : T ∉ p.inProgress) (hU : ∀ U, p.current? = some U → References g U T)
    (hj : Joins p₀ q p) (hr : ¬ Exhausted r) :
    Completes g o k T q r q' → ∃ p', Completes g o k T p r p' ∧ Joins p₀ q' p'
  | .known hdef => ⟨_, .known (hj.right.definition _ _ hdef), hj⟩
  | .undeclared hdef htree => by
    refine ⟨p, .undeclared (definition?_eq_none_iff.mpr fun hdone => ?_) htree, hj⟩
    have hnames := (g.tree?_isSome_iff T).mpr (hp.valid.definitions_declared T hdone)
    simp [htree] at hnames
  | .defined hdef htree hn => by
    rcases hdone : p.definition? T with - | m
    · -- done by neither, and converted by both
      have henter : Advances g o p (p.enter T) := .enter htree hdone hT hU
      obtain ⟨p₁, hn', hj₁⟩ := hn.joins ho ⟨henter.valid hp.valid, hp.untargeted⟩
        (.root htree hT) (hj.enter T) Exhausted.not_ok
      have hp₀ : p₀.definition? T = none := hj.left.definition?_eq_none hdone
      exact ⟨_, .defined hdone htree hn', (hj₁.leave T).define hp₀⟩
    · -- done already: from `q` the same schema is made, and nothing new besides
      have hq : p.Repeats p.definitions q := hj.repeats hp
      have h := (Completes.defined hdef htree hn).replays hp hq Exhausted.not_ok hdone
      obtain rfl := Except.ok.inj h.1
      exact ⟨p, .known hdone, hj.of_replays h.2⟩
  | .abandoned hdef htree hn => by
    rcases hdone : p.definition? T with - | m
    · have henter : Advances g o p (p.enter T) := .enter htree hdone hT hU
      obtain ⟨p₁, hn', hj₁⟩ := hn.joins ho ⟨henter.valid hp.valid, hp.untargeted⟩
        (.root htree hT) (hj.enter T) fun h => hr h.error
      exact ⟨_, .abandoned hdone htree hn', hj₁.leave T⟩
    · -- done already, so from `q` it cannot fail either
      have hq : p.Repeats p.definitions q := hj.repeats hp
      have h := (Completes.abandoned hdef htree hn).replays hp hq hr hdone
      exact nomatch h.1

end

end RamlSchema
