/-
RamlSchema/Proofs/Normalize/Replay.lean

Converting once more what is done already.

If no reference is ever written, a schema that is done is made of others that
were done before it, and of nothing else.  Whoever converts its type again, from
a progress that has none of what `p` does not have, comes to the same schema and
to nothing that `p` does not have, unless the levels run out on the way.

Main results: `Reaches.untargeted`, by which no reference is written if cycles
are errors or there are none, and `Completes.replays`.
-/
import RamlSchema.Proofs.Normalize.Steps

namespace RamlSchema

open Relation

/-- No reference is written: a cycle is an error, or there is none. -/
def Unbroken (g : TypeGraph) (o : Options) : Prop :=
  o.onCycle = .error ∨ g.Acyclic

/-- The levels have run out. -/
def Exhausted {α : Type} (r : Except ConvertError α) : Prop :=
  ∃ l limit, r = .error (.tooDeep l limit)

/-- A progress without any reference written. -/
structure Progress.Clean (g : TypeGraph) (p : Progress) : Prop where
  valid : p.Valid g
  untargeted : p.cycleTargets = []

variable {g : TypeGraph} {o : Options} {p p' q q' : Progress}

/-! ### Without references -/

/-- A step breaks no cycle where none can be broken. -/
theorem Advances.untargeted (ho : Unbroken g o) (h : Advances g o p p') (hp : p.Valid g)
    (hnone : p.cycleTargets = []) : p'.cycleTargets = [] := by
  have hvalid := h.valid hp
  cases h with
  | report e => exact hnone
  | enter htree hdef hT href => exact hnone
  | abandon hT => exact hnone
  | complete hT htree hn => exact hnone
  | nest hU href hT =>
    unfold Progress.nest
    split <;> exact hnone
  | @breakCycle U T l hU href hT hpolicy =>
    rcases ho with ho | ho
    · rw [hpolicy] at ho
      cases ho
    · -- the target would lie on a cycle
      exact absurd (hvalid.targets_cyclic T (Names.mem_add.mpr (.inr rfl))) (ho T)

theorem Reaches.untargeted (ho : Unbroken g o) (h : Reaches g o p p') (hp : p.Valid g)
    (hnone : p.cycleTargets = []) : p'.cycleTargets = [] := by
  induction h with
  | refl => exact hnone
  | tail hsteps hstep ih => exact hstep.untargeted ho (Reaches.valid hsteps hp) ih

theorem Progress.Leads.clean (h : p.Leads g o p') (ho : Unbroken g o) (hp : p.Clean g) :
    p'.Clean g :=
  ⟨h.valid hp.valid, Reaches.untargeted ho h.reaches hp.valid hp.untargeted⟩

theorem Progress.not_clean_breakCycle {T : String} {l : Location} :
    ¬ (p.breakCycle T l).Clean g := by
  intro h
  have htarget : T ∈ (p.breakCycle T l).cycleTargets := Names.mem_add.mpr (.inr rfl)
  exact List.not_mem_nil (h.untargeted ▸ htarget)

/-! ### What lies inside a progress -/

namespace Progress

/-- A progress has all that another one has. -/
structure Inside (q p : Progress) : Prop where
  definition : ∀ T n, q.definition? T = some n → p.definition? T = some n
  nested : q.nested ⊆ p.nested

/-- A conversion has led from `q` to `q'` and stayed inside `p`. -/
structure Replays (p q q' : Progress) : Prop where
  inside : q'.Inside p
  kept : q.Inside q'
  inProgress : q'.inProgress = q.inProgress

/-- `q` has nothing that `p` does not have, and none of what `D`, the front of what
is done in `p`, has is in progress in `q`. -/
structure Repeats (p : Progress) (D : Members SchemaNode) (q : Progress) : Prop where
  front : D <+: p.definitions
  inside : q.Inside p
  apart : ∀ T ∈ q.inProgress, T ∉ D.keys

variable {T : String} {n : SchemaNode} {D D' : Members SchemaNode}

theorem Inside.refl (p : Progress) : p.Inside p :=
  ⟨fun _ _ h => h, List.Subset.refl _⟩

theorem Inside.trans {p'' : Progress} (h : p.Inside p') (h' : p'.Inside p'') : p.Inside p'' :=
  ⟨fun T n hn => h'.definition T n (h.definition T n hn), List.Subset.trans h.nested h'.nested⟩

theorem Inside.definition?_eq_none (h : q.Inside p) (hT : p.definition? T = none) :
    q.definition? T = none := by
  rcases hq : q.definition? T with - | m
  · rfl
  · exact nomatch hT.symm.trans (h.definition T m hq)

theorem Replays.refl (h : q.Inside p) : p.Replays q q :=
  ⟨h, .refl q, rfl⟩

theorem Replays.trans {q'' : Progress} (h : p.Replays q q') (h' : p.Replays q' q'') :
    p.Replays q q'' :=
  ⟨h'.inside, h.kept.trans h'.kept, h'.inProgress.trans h.inProgress⟩

theorem Replays.emit (h : q.Inside p) (e : Event) : p.Replays q (q.emit e) :=
  ⟨⟨h.definition, h.nested⟩, ⟨fun _ _ h => h, List.Subset.refl _⟩, rfl⟩

theorem Replays.nest (h : q.Inside p) (hT : T ∈ p.nested) (l : Location) :
    p.Replays q (q.nest T l) where
  inside := by
    refine ⟨fun U n hn => h.definition U n ?_, fun U hU => ?_⟩
    · rwa [definition?_nest] at hn
    · rcases q.mem_nested_nest_iff.mp hU with hU | rfl
      · exact h.nested hU
      · exact hT
  kept := by
    refine ⟨fun U n hn => ?_, fun U hU => q.mem_nested_nest_iff.mpr (.inl hU)⟩
    rwa [definition?_nest]
  inProgress := inProgress_nest q T l

theorem definition?_define_self (q : Progress) : (q.define T n).definition? T = some n :=
  Members.get?_insert_self _ _ _

theorem definition?_define_of_ne (q : Progress) {U : String} (h : T ≠ U) :
    (q.define T n).definition? U = q.definition? U :=
  Members.get?_insert_of_ne _ _ h

/-- A type that is done in `p` has been converted again. -/
theorem Replays.define (h : p.Replays (q.enter T) q') (hT : T ∉ q.inProgress)
    (hn : p.definition? T = some n) : p.Replays q ((q'.leave T).define T n) := by
  refine ⟨⟨fun U m hm => ?_, h.inside.nested⟩, ⟨fun U m hm => ?_, h.kept.nested⟩,
    inProgress_leave_enter hT h.inProgress⟩
  · by_cases hU : T = U
    · subst hU
      rw [definition?_define_self] at hm
      exact hm ▸ hn
    · rw [definition?_define_of_ne _ hU] at hm
      exact h.inside.definition U m hm
  · -- if `T` was done in `q` already, it had the schema that it has in `p`
    have hm' := h.kept.definition U m hm
    by_cases hU : T = U
    · subst hU
      rw [definition?_define_self, ← hn, h.inside.definition T m hm']
    · rw [definition?_define_of_ne _ hU]
      exact hm'

theorem Repeats.next (h : p.Repeats D q) (hq : p.Replays q q') : p.Repeats D q' :=
  ⟨h.front, hq.inside, hq.inProgress ▸ h.apart⟩

/-- A type that is entered was not done before itself. -/
theorem Repeats.enter (h : p.Repeats D q) (hD' : D' ++ [(T, n)] <+: D) (hT : T ∉ D'.keys) :
    p.Repeats D' (q.enter T) where
  front := ((List.prefix_append D' _).trans hD').trans h.front
  inside := ⟨h.inside.definition, h.inside.nested⟩
  apart U hU hmem := by
    rcases Names.mem_add.mp hU with hU | rfl
    · have hfront : D' <+: D := (List.prefix_append D' _).trans hD'
      exact h.apart U hU ((hfront.map Prod.fst).subset hmem)
    · exact hT hmem

/-- What was done before a type, and how its schema is made of it. -/
theorem Valid.exists_history (hp : p.Valid g) (hD : D <+: p.definitions) (h : D.get? T = some n) :
    ∃ D' tree, D' ++ [(T, n)] <+: D ∧ T ∉ D'.keys ∧ g.tree? T = some tree ∧
      Renders g (p.base D') (.node tree) n := by
  obtain ⟨D', rest, rfl⟩ := List.append_of_mem (Members.mem_of_get? h)
  have hfront : D' ++ [(T, n)] <+: D' ++ (T, n) :: rest := ⟨rest, by simp⟩
  obtain ⟨tree, htree, hn⟩ := hp.history D' T n (hfront.trans hD)
  exact ⟨D', tree, hfront, hp.notMem_front (hfront.trans hD), htree, hn⟩

end Progress

/-! ### Converting again -/

theorem Exhausted.not_ok {α : Type} {a : α} : ¬ Exhausted (.ok a) := by
  rintro ⟨l, limit, h⟩
  cases h

/-- An error is passed on as it is. -/
theorem Exhausted.error {α β : Type} {e : ConvertError}
    (h : Exhausted (.error e : Except ConvertError α)) :
    Exhausted (.error e : Except ConvertError β) := by
  obtain ⟨l, limit, h⟩ := h
  cases h
  exact ⟨l, limit, rfl⟩

/-- Without references, the schemas in the places of types are those that are done. -/
theorem Progress.base_of_untargeted (hnone : p.cycleTargets = []) {D : Members SchemaNode}
    {T : String} {b : SchemaNode} (h : p.base D T b) : D.get? T = some b ∧ T ∈ p.nested := by
  rcases h with h | ⟨-, h⟩
  · exact h
  · simp [hnone] at h

/-- A node whose type is declared has the schema of its type in its place. -/
theorem Renders.of_declared (hnone : p.cycleTargets = []) {D : Members SchemaNode} {raw : Json}
    {n : SchemaNode} {s : NodeShape} {T : String} (l : Location)
    (h : Renders g (p.base D) (.node raw) n) (hs : NodeShape.ofJson raw = .ok s)
    (hT : s.declared? g = some T) :
    (∀ e, .fail e ∉ s.tasks g l) ∧
      ∃ done b, RendersAll g (p.base D) ((s.tasks g l).filterMap Task.part?) done ∧
        D.get? T = some b ∧ T ∈ p.nested ∧ n = b.overlay (s.site done) := by
  obtain ⟨hfail, done, hparts, ⟨hplain, -⟩ | ⟨U, b, hU, hb, rfl⟩⟩ := h.of_shape l hs
  · rw [hplain] at hT
    cases hT
  · rw [hT] at hU
    cases hU
    obtain ⟨hget, hnested⟩ := Progress.base_of_untargeted hnone hb
    exact ⟨hfail, done, b, hparts, hget, hnested, rfl⟩

mutual

/-- What is rendered from schemas that are done is converted to the same again. -/
theorem Converts.replays {k : Nat} {D : Members SchemaNode} {part : Part} {l : Location}
    {q q' : Progress} {r : Except ConvertError SchemaNode} {n : SchemaNode} (hp : p.Clean g)
    (hq : p.Repeats D q) (hr : ¬ Exhausted r) (hn : Renders g (p.base D) part n) :
    Converts g o k part l q r q' → r = .ok n ∧ p.Replays q q'
  | .written => by
    cases hn
    exact ⟨rfl, .emit hq.inside _⟩
  | .tooDeep => absurd ⟨_, _, rfl⟩ hr
  | .malformed hs => by
    obtain ⟨s, hs'⟩ := hn.shape
    rw [hs] at hs'
    cases hs'
  | .failed hs htasks => by
    obtain ⟨hfail, done, hparts, -⟩ := hn.of_shape l hs
    have hts := htasks.replays hp hq (fun h => hr h.error) hparts hfail
    exact nomatch hts.1
  | .plain hs htasks hT => by
    obtain ⟨hfail, done, hparts, hn⟩ := hn.of_shape l hs
    have hts := htasks.replays hp hq Exhausted.not_ok hparts hfail
    obtain rfl := Except.ok.inj hts.1
    rcases hn with ⟨-, rfl⟩ | ⟨U, b, hU, -, -⟩
    · exact ⟨rfl, hts.2⟩
    · rw [hT] at hU
      cases hU
  | .cycle hs htasks hT hmem _ => by
    obtain ⟨hfail, done, b, hparts, hb, hnested, rfl⟩ := hn.of_declared hp.untargeted l hs hT
    have hts := htasks.replays hp hq Exhausted.not_ok hparts hfail
    -- a type that `D` has is not in progress
    exact absurd (Members.mem_keys_of_get? hb) ((hq.next hts.2).apart _ hmem)
  | .cyclic hs htasks hT hmem _ => by
    obtain ⟨hfail, done, b, hparts, hb, hnested, rfl⟩ := hn.of_declared hp.untargeted l hs hT
    have hts := htasks.replays hp hq Exhausted.not_ok hparts hfail
    exact absurd (Members.mem_keys_of_get? hb) ((hq.next hts.2).apart _ hmem)
  | .inlined hs htasks hT hmem hbase => by
    obtain ⟨hfail, done, b, hparts, hb, hnested, rfl⟩ := hn.of_declared hp.untargeted l hs hT
    have hts := htasks.replays hp hq Exhausted.not_ok hparts hfail
    have hbase' := hbase.replays hp (hq.next hts.2) Exhausted.not_ok hb
    obtain rfl := Except.ok.inj hts.1
    obtain rfl := Except.ok.inj hbase'.1
    exact ⟨rfl, (hts.2.trans hbase'.2).trans (.nest hbase'.2.inside hnested _)⟩
  | .lost hs htasks hT hmem hbase => by
    obtain ⟨hfail, done, b, hparts, hb, hnested, rfl⟩ := hn.of_declared hp.untargeted l hs hT
    have hts := htasks.replays hp hq Exhausted.not_ok hparts hfail
    have hbase' := hbase.replays hp (hq.next hts.2) hr hb
    exact nomatch hbase'.1

theorem Performs.replays {k : Nat} {D : Members SchemaNode} {l : Location} {ts : List Task}
    {q q' : Progress} {r : Except ConvertError (List (Step × SchemaNode))}
    {done : List (Step × SchemaNode)} (hp : p.Clean g) (hq : p.Repeats D q) (hr : ¬ Exhausted r)
    (hparts : RendersAll g (p.base D) (ts.filterMap Task.part?) done) (hfail : ∀ e, .fail e ∉ ts) :
    Performs g o k l ts q r q' → r = .ok done ∧ p.Replays q q'
  | .nil => by
    cases hparts
    exact ⟨rfl, .refl hq.inside⟩
  | @Performs.report _ _ _ _ e ts _ _ _ hts => by
    have hemit := Progress.Replays.emit hq.inside e
    have hparts' : RendersAll g (p.base D) (ts.filterMap Task.part?) done := hparts
    have h := hts.replays hp (hq.next hemit) hr hparts'
      fun e' he => hfail e' (List.mem_cons_of_mem _ he)
    exact ⟨h.1, hemit.trans h.2⟩
  | .fail => absurd List.mem_cons_self (hfail _)
  | .stop hn => by
    cases hparts with
    | cons hn' hrest =>
      have h := hn.replays hp hq (fun h => hr h.error) hn'
      exact nomatch h.1
  | .later hn hts => by
    cases hparts with
    | cons hn' hrest =>
      have h := hn.replays hp hq Exhausted.not_ok hn'
      have hts' := hts.replays hp (hq.next h.2) hr hrest
        fun e he => hfail e (List.mem_cons_of_mem _ he)
      exact nomatch hts'.1
  | .convert hn hts => by
    cases hparts with
    | cons hn' hrest =>
      have h := hn.replays hp hq Exhausted.not_ok hn'
      have hts' := hts.replays hp (hq.next h.2) Exhausted.not_ok hrest
        fun e he => hfail e (List.mem_cons_of_mem _ he)
      obtain rfl := Except.ok.inj h.1
      obtain rfl := Except.ok.inj hts'.1
      exact ⟨rfl, h.2.trans hts'.2⟩

theorem Completes.replays {k : Nat} {D : Members SchemaNode} {T : String} {q q' : Progress}
    {r : Except ConvertError SchemaNode} {n : SchemaNode} (hp : p.Clean g)
    (hq : p.Repeats D q) (hr : ¬ Exhausted r) (hn : D.get? T = some n) :
    Completes g o k T q r q' → r = .ok n ∧ p.Replays q q'
  | .known hdef => by
    have hdef' := hq.inside.definition _ _ hdef
    have hn' := Members.get?_of_prefix hq.front hn
    obtain rfl := Option.some.inj (hdef'.symm.trans hn')
    exact ⟨rfl, .refl hq.inside⟩
  | .undeclared hdef htree => by
    obtain ⟨D', tree, -, -, htree', -⟩ := hp.valid.exists_history hq.front hn
    rw [htree] at htree'
    cases htree'
  | .defined hdef htree hc => by
    obtain ⟨D', tree', hD', hT, htree', hrenders⟩ := hp.valid.exists_history hq.front hn
    rw [htree] at htree'
    cases htree'
    have hTq : T ∉ q.inProgress := fun hmem => hq.apart T hmem (Members.mem_keys_of_get? hn)
    -- made of what was done before it, which is all that the induction is about
    have h := hc.replays hp (hq.enter hD' hT) hr hrenders
    obtain rfl := Except.ok.inj h.1
    exact ⟨rfl, h.2.define hTq (Members.get?_of_prefix hq.front hn)⟩
  | .abandoned hdef htree hc => by
    obtain ⟨D', tree', hD', hT, htree', hrenders⟩ := hp.valid.exists_history hq.front hn
    rw [htree] at htree'
    cases htree'
    have h := hc.replays hp (hq.enter hD' hT) hr hrenders
    exact nomatch h.1

end

end RamlSchema
