/-
RamlSchema/Proofs/Normalize/Failures.lean

Which types fail, and whether they stay without a schema.

An error names the place where it arose, and with it the type to blame: one with a
malformed node, or one on a cycle where cycles are errors.  Whoever refers to it,
directly or through others, fails like it.  But a failure is not kept.  A type that
has failed is converted again when a later one refers to it, and there are two ways
in which that can go well.  The later type may be on a cycle with it and be in
progress, so that a reference takes the place of what failed before; or more is done
by then, so that fewer levels are needed.

Main result: `failed_apart`.  No type fails twice, and a type that fails and is done
in the end has failed for want of levels, or leads to a type on a cycle that failed
for good.  If there is neither, a failed type has no schema and no document.
-/
import RamlSchema.Proofs.Normalize.Coverage
import RamlSchema.Proofs.Normalize.Visits

namespace RamlSchema

open Relation

/-- What an error tells of the type `U` that it ends: `U` leads to the type that is
to blame. -/
inductive Blames (g : TypeGraph) (o : Options) (U : String) : ConvertError → Prop
  | malformed {l cause} :
      ReflTransGen (References g) U l.typeName → g.Faulty l.typeName →
      Blames g o U (.malformed l cause)
  | cyclic {l cycle} :
      o.onCycle = .error → ReflTransGen (References g) U l.typeName →
      TransGen (References g) l.typeName l.typeName → Blames g o U (.cyclic l cycle)
  | tooDeep {l limit} : Blames g o U (.tooDeep l limit)

variable {g : TypeGraph} {o : Options} {p p' : Progress}

theorem Blames.of_reaches {U T : String} {e : ConvertError}
    (hreach : ReflTransGen (References g) U T) (h : Blames g o T e) : Blames g o U e := by
  cases h with
  | malformed hpath hfault => exact .malformed (hreach.trans hpath) hfault
  | cyclic ho hpath hcycle => exact .cyclic ho (hreach.trans hpath) hcycle
  | tooDeep => exact .tooDeep

/-- A check that fails is to blame on the type in whose tree the node stands. -/
theorem NodeShape.blames_of_fail {raw : Json} {n : NodeShape} {l : Location} {e : ConvertError}
    (hraw : g.HasNode l.typeName raw) (hn : NodeShape.ofJson raw = .ok n)
    (he : .fail e ∈ n.tasks g l) : Blames g o l.typeName e := by
  have hfault : g.Faulty l.typeName := by
    refine ⟨raw, hraw, fun m hm hsound => ?_⟩
    obtain rfl := Except.ok.inj (hn.symm.trans hm)
    exact NodeShape.sound_iff.mp hsound e he
  rcases fail_mem_tasks.mp he with ⟨cause, -, rfl⟩ | ⟨cause, -, rfl⟩ | ⟨cause, -, rfl⟩
  all_goals exact .malformed .refl hfault

/-! ### Errors name the type to blame -/

/-- **An error tells of a type to blame** that the called one leads to. -/
theorem call_blames (hp : p.Idle g o) {name : String} (hname : name ∈ g.names) {e : ConvertError}
    (he : (call g o p name).1 = .error e) : Blames g o name e := by
  cases call_raises hname he with
  | shape hv hs =>
    obtain ⟨-, hl, hreach⟩ := hv.stands hp
    refine .malformed hreach ⟨_, (hl.nodeAt _ rfl).hasNode, fun n hn => ?_⟩
    rw [hs] at hn
    cases hn
  | check hv hs hfail =>
    obtain ⟨-, hl, hreach⟩ := hv.stands hp
    exact (NodeShape.blames_of_fail (hl.nodeAt _ rfl).hasNode hs hfail).of_reaches hreach
  | cycle hv hs htasks hT hmem ho =>
    obtain ⟨hq, hl, hreach⟩ := hv.stands hp
    -- from the type in progress down to the current one, and back to it
    have hlead := hl.leads hq hs (List.append_nil _).symm htasks
    have hback := (hlead.valid hq).reaches_current (hl.of_leads hlead).current hmem
    exact .cyclic ho hreach (.head' (hl.references hs hT) hback)
  | limit _ => exact .tooDeep

/-! ### The failures of a graph -/

/-- The failures come in the order of declaration, one for a type at most. -/
theorem failed_sublist (g : TypeGraph) (o : Options) : (normalize g o).failed.Sublist g.names := by
  refine turns_cases (g := g) (o := o)
    (Q := fun names s => (s.2.map Failure.name).Sublist names) .slnil
    (fun names name s _ _ ih => ih.trans (List.sublist_append_left _ _))
    (fun names name s n p _ _ ih => ih.trans (List.sublist_append_left _ _))
    (fun names name s e p _ _ ih => ?_) g.names
  rw [List.map_append]
  exact ih.append (List.Sublist.refl _)

theorem failure_blames {f : Failure} (hf : f ∈ (normalize g o).failures) :
    Blames g o f.name f.error := by
  obtain ⟨hname, p, hp, he⟩ := exists_call_of_failure hf
  exact call_blames hp hname he

/-! ### Failed types that are done -/

/-- A type leads to one on a cycle that has failed and is not done in the end. -/
def LeadsToFailed (g : TypeGraph) (o : Options) (T : String) : Prop :=
  ∃ X ∈ (normalize g o).failed, X ∉ (converted g o).1.definitions.keys ∧
    ReflTransGen (References g) T X ∧ TransGen (References g) X X

/-- A path out of what is done in the end leads to such a type. -/
theorem leadsToFailed_of_reaches {T V : String} (hT : T ∈ (converted g o).1.definitions.keys)
    (hpath : ReflTransGen (References g) T V) (hV : V ∉ (converted g o).1.definitions.keys) :
    LeadsToFailed g o T := by
  have hvalid := (idle_converted (g := g) (o := o)).valid
  obtain ⟨X, hX, hopen, hreach⟩ := hvalid.exists_target hT hpath hV
  have hfailed := (defined_or_failed (o := o) (hvalid.targets_declared hX)).resolve_left hopen
  exact ⟨X, hfailed, hopen, hreach, hvalid.targets_cyclic X hX⟩

/-- Why a type that failed can be done in the end. -/
theorem of_failed_defined {f : Failure} (hf : f ∈ (normalize g o).failures)
    (hT : f.name ∈ (converted g o).1.definitions.keys) :
    (∃ l limit, f.error = .tooDeep l limit) ∨ (o.onCycle = .reference ∧ LeadsToFailed g o f.name) := by
  have hidle := idle_converted (g := g) (o := o)
  obtain ⟨name, error⟩ := f
  cases failure_blames hf with
  | tooDeep => exact .inl ⟨_, _, rfl⟩
  | malformed hpath hfault =>
    have hopen := fun hV => hidle.valid.not_faulty hV hfault
    rcases ho : o.onCycle
    · exact .inr ⟨rfl, leadsToFailed_of_reaches hT hpath hopen⟩
    · exact absurd ((clean_converted (.inl ho)).defined_of_reaches hT hpath) hopen
  | cyclic ho hpath hcycle =>
    -- where cycles are errors, all that a type needs is done with it, and on no cycle
    have hclean := clean_converted (g := g) (.inl ho)
    exact absurd hcycle (hclean.not_cyclic (hclean.defined_of_reaches hT hpath))

/-- **Failed types have no documents**, unless they failed for want of levels or lead
to a type on a cycle that failed for good.  No type fails twice; and if there is
neither, each declared type has failed or is done, and not both. -/
theorem failed_apart (g : TypeGraph) (o : Options) :
    (normalize g o).failed.Nodup ∧
    (∀ f ∈ (normalize g o).failures, f.name ∈ (converted g o).1.definitions.keys →
      (∃ l limit, f.error = .tooDeep l limit) ∨
        (o.onCycle = .reference ∧ LeadsToFailed g o f.name)) ∧
    ((∀ f ∈ (normalize g o).failures, ∀ l limit, f.error ≠ .tooDeep l limit) →
      (o.onCycle = .error ∨ ∀ X ∈ (normalize g o).failed, ¬ TransGen (References g) X X) →
      (∀ T ∈ g.names,
        T ∈ (normalize g o).failed ↔ T ∉ (converted g o).1.definitions.keys) ∧
      ∀ T ∈ (normalize g o).failed, T ∉ (normalize g o).documents.keys) := by
  refine ⟨(failed_sublist g o).nodup g.nodup_names, fun f hf => of_failed_defined hf,
    fun hlevels hcycles => ?_⟩
  have hopen : ∀ T ∈ (normalize g o).failed, T ∉ (converted g o).1.definitions.keys := by
    intro T hT hdone
    obtain ⟨f, hf, rfl⟩ := List.mem_map.mp hT
    rcases of_failed_defined hf hdone with ⟨l, limit, hdeep⟩ | ⟨ho, X, hX, -, -, hcycle⟩
    · exact hlevels f hf l limit hdeep
    · rcases hcycles with hcycles | hcycles
      · exact nomatch ho.symm.trans hcycles
      · exact hcycles X hX hcycle
  refine ⟨fun T hT => ⟨hopen T, fun hnot => ?_⟩, fun T hT hdocument => ?_⟩
  · exact (defined_or_failed hT).resolve_left hnot
  · rw [documents_normalize, keys_documents (idle_converted (g := g) (o := o)).valid] at hdocument
    exact hopen T hT hdocument.1

/-- A malformed type, and one that refers to it. -/
def malformedGraph : TypeGraph :=
  .ofList
    [("U", .ofType (.num (.whole 7))), ("T", .ofProperties [("u", .ofType (.str "U"))])]

/-- Both fail, and neither has a document. -/
theorem failed_apart_malformed :
    (normalize malformedGraph { onCycle := .error }).failed = ["U", "T"] ∧
      ∀ T ∈ (normalize malformedGraph { onCycle := .error }).failed,
        T ∉ (normalize malformedGraph { onCycle := .error }).documents.keys := by
  refine ⟨rfl, ((failed_apart malformedGraph { onCycle := .error }).2.2 ?_ (.inl rfl)).2⟩
  have hfailures : (normalize malformedGraph { onCycle := .error }).failures
      = [⟨"U", .malformed ⟨"U", []⟩ (.typeNotString .number)⟩,
        ⟨"T", .malformed ⟨"U", []⟩ (.typeNotString .number)⟩] := rfl
  simp [hfailures]

/-- A cycle of two types, of which the second fails after the first has been put in
its tree. -/
def revivedGraph : TypeGraph :=
  .ofList
    [("T", .ofProperties [("v", .ofType (.str "V"))]),
      ("V", .ofProperties [("t", .ofType (.str "T")), ("bad", .ofType (.num (.whole 7)))])]

/-- `T` fails at its turn, and is done and has a document when the turn of `V` is
over. -/
theorem failed_documented :
    "T" ∈ (normalize revivedGraph {}).failed ∧
      "T" ∈ (normalize revivedGraph {}).documents.keys := by
  have hfailed : (normalize revivedGraph {}).failed = ["T", "V"] := rfl
  have hkeys : (normalize revivedGraph {}).documents.keys = ["T"] := rfl
  rw [hfailed, hkeys]
  exact ⟨.head _, .head _⟩

/-- A type that fails for want of levels, and is done when a later one refers to it. -/
def retriedGraph : TypeGraph :=
  .ofList
    [("T", .ofProperties [("a", .ofType (.str "A")), ("t", .ofType (.str "T"))]),
      ("A", .ofProperties [("x", .ofType (.str "string"))]), ("U", .ofType (.str "T"))]

example :
    (normalize retriedGraph { maxDepth := 2 }).failed = ["T"] ∧
      (normalize retriedGraph { maxDepth := 2 }).documents.keys = ["T", "U"] :=
  ⟨rfl, rfl⟩

end RamlSchema
