/-
RamlSchema/Proofs/Normalize/Calls.lean

Conversions of whole types, one after another.

A call converts a type, from whatever progress the calls before it left behind;
`calls` makes a list of them.  Between calls no type is in progress, and a
progress in that state is idle.  The conversion of a graph (`normalize`) calls
every declared type that is not done yet, so what calls keep holds at its end
(`converted`), where every declared type is done or has failed
(`defined_or_failed`).

Main results: `call_idle` and `idle_converted` for the states,
`keys_documents` and `mem_documents` for the documents of a state.
-/
import RamlSchema.Normalize.Run
import RamlSchema.Proofs.Normalize.Steps
import Mathlib.Data.List.Nodup

namespace RamlSchema

variable (g : TypeGraph) (o : Options)

/-- Converts a type: the result, and the progress behind it. -/
def call (p : Progress) (name : String) : Except ConvertError SchemaNode × Progress :=
  exec (normalizeType g o name) p

/-- Converts types one after another: the results, and the progress behind them. -/
def calls (p : Progress) : List String → List (Except ConvertError SchemaNode) × Progress
  | [] => ([], p)
  | name :: names =>
    let (r, p₁) := call g o p name
    let (rs, p₂) := calls p₁ names
    (r :: rs, p₂)

/-- The progress and the failures after the turns of some types. -/
def turns (names : List String) : Progress × List Failure :=
  names.foldl (normalizeNext g o) ({}, [])

/-- The progress and the failures at the end of the conversion of a graph. -/
def converted : Progress × List Failure :=
  turns g o g.names

/-- A progress between calls. -/
structure Progress.Idle (p : Progress) : Prop where
  valid : p.Valid g
  inProgress : p.inProgress = []
  reached : Reaches g o {} p

/-- The names of the types that failed. -/
def Outcome.failed (out : Outcome) : List String :=
  out.failures.map Failure.name

variable {g o} {p : Progress} {name : String}

theorem call_completes (p : Progress) (name : String) :
    Completes g o (o.maxDepth + 1) name p (call g o p name).1 (call g o p name).2 :=
  completes_iff.mpr rfl

theorem idle_empty : Progress.Idle g o {} :=
  ⟨Progress.valid_empty, rfl, .refl⟩

theorem call_leads (hp : p.Idle g o) (name : String) :
    p.Leads g o (call g o p name).2 ∧
      ∀ n, (call g o p name).1 = .ok n → (call g o p name).2.definition? name = some n :=
  (call_completes p name).leads_of_idle hp.valid hp.inProgress

/-- A type that is not declared is not converted, and its call changes nothing. -/
theorem call_undeclared (hp : p.Idle g o) (hname : name ∉ g.names) :
    call g o p name = (.error (.malformed ⟨name, []⟩ .undeclared), p) := by
  have htree : g.tree? name = none := by
    rw [← Option.not_isSome_iff_eq_none, g.tree?_isSome_iff]
    exact hname
  have hdef : p.definition? name = none :=
    Progress.definition?_eq_none_iff.mpr fun h => hname (hp.valid.definitions_declared name h)
  exact completes_iff.mp (.undeclared hdef htree)

theorem Progress.Idle.notMem (hp : p.Idle g o) {T : String} : T ∉ p.inProgress := by
  simp [hp.inProgress]

/-- No type refers to the one that is called. -/
theorem Progress.Idle.references (hp : p.Idle g o) {T : String} :
    ∀ U, p.current? = some U → References g U T := by
  simp [Progress.current?, hp.inProgress]

/-- A call leaves no type in progress. -/
theorem call_idle (hp : p.Idle g o) (name : String) : (call g o p name).2.Idle g o := by
  have h := (call_leads hp name).1
  exact ⟨h.valid hp.valid, h.inProgress.trans hp.inProgress, hp.reached.trans h.reaches⟩

theorem Progress.Idle.emit (hp : p.Idle g o) (e : Event) : (p.emit e).Idle g o :=
  ⟨hp.valid.emit e, hp.inProgress, hp.reached.tail (.report e)⟩

/-! ### The conversion of a graph -/

/-- What happens at the turn of a type. -/
theorem normalizeNext_eq (s : Progress × List Failure) (name : String) :
    normalizeNext g o s name =
      if name ∈ s.1.definitions.keys then s
      else
        match call g o s.1 name with
        | (.ok _, p) => (p, s.2)
        | (.error error, p) => (p.emit (.skipped name error), s.2 ++ [⟨name, error⟩]) := by
  have hdone : (s.1.definition? name).isSome ↔ name ∈ s.1.definitions.keys :=
    Members.contains_iff_mem_keys s.1.definitions name
  unfold normalizeNext
  by_cases h : name ∈ s.1.definitions.keys
  · rw [if_pos (hdone.mpr h), if_pos h]
  · rw [if_neg (mt hdone.mp h), if_neg h]
    rfl

theorem normalizeNext_idle {s : Progress × List Failure} (hs : s.1.Idle g o) (name : String) :
    (normalizeNext g o s name).1.Idle g o := by
  have hcall := call_idle hs name
  rw [normalizeNext_eq]
  split
  · exact hs
  · rcases h : call g o s.1 name with ⟨e | n, p⟩ <;> rw [h] at hcall
    · exact hcall.emit _
    · exact hcall

/-- What holds at the start and is kept at the turn of each type holds after all
turns. -/
theorem turns_induction {Q : List String → Progress × List Failure → Prop}
    (start : Q [] ({}, []))
    (next : ∀ names name s, s.1.Idle g o → Q names s →
      Q (names ++ [name]) (normalizeNext g o s name)) (names : List String) :
    Q names (turns g o names) := by
  -- turn after turn, together with being idle
  have hall : (turns g o names).1.Idle g o ∧ Q names (turns g o names) := by
    induction names using List.reverseRecOn with
    | nil => exact ⟨idle_empty, start⟩
    | append_singleton names name ih =>
      rw [turns, List.foldl_append]
      exact ⟨normalizeNext_idle ih.1 name, next names name _ ih.1 ih.2⟩
  exact hall.2

/-- The same with the three ways in which a turn can go: the type is done already, is
converted now, or fails. -/
theorem turns_cases {Q : List String → Progress × List Failure → Prop}
    (start : Q [] ({}, []))
    (skip : ∀ names name s, s.1.Idle g o → name ∈ s.1.definitions.keys → Q names s →
      Q (names ++ [name]) s)
    (done : ∀ names name s n p', s.1.Idle g o → call g o s.1 name = (.ok n, p') → Q names s →
      Q (names ++ [name]) (p', s.2))
    (fail : ∀ names name s e p', s.1.Idle g o → call g o s.1 name = (.error e, p') → Q names s →
      Q (names ++ [name]) (p'.emit (.skipped name e), s.2 ++ [⟨name, e⟩]))
    (names : List String) : Q names (turns g o names) := by
  refine turns_induction start (fun names name s hs ih => ?_) names
  rw [normalizeNext_eq]
  split
  · exact skip names name s hs ‹_› ih
  · rcases h : call g o s.1 name with ⟨e | n, p'⟩
    · exact fail names name s e p' hs h ih
    · exact done names name s n p' hs h ih

theorem turns_idle (names : List String) : (turns g o names).1.Idle g o :=
  turns_induction (Q := fun _ s => s.1.Idle g o) idle_empty
    (fun _ name _ hs _ => normalizeNext_idle hs name) names

theorem idle_converted : (converted g o).1.Idle g o :=
  turns_idle g.names

/-- A type fails by the call at its turn. -/
theorem exists_call_of_failure {f : Failure} (hf : f ∈ (normalize g o).failures) :
    f.name ∈ g.names ∧ ∃ p, p.Idle g o ∧ (call g o p f.name).1 = .error f.error := by
  refine turns_cases (g := g) (o := o)
    (Q := fun names s => ∀ f ∈ s.2,
      f.name ∈ names ∧ ∃ p, p.Idle g o ∧ (call g o p f.name).1 = .error f.error)
    (fun _ h => nomatch h)
    (fun names name s _ _ ih f hf => (ih f hf).imp_left (List.mem_append_left _))
    (fun names name s n p _ _ ih f hf => (ih f hf).imp_left (List.mem_append_left _))
    (fun names name s e p hs hr ih f hf => ?_) g.names f hf
  rcases List.mem_append.mp hf with hf | hf
  · exact (ih f hf).imp_left (List.mem_append_left _)
  · obtain rfl := List.mem_singleton.mp hf
    exact ⟨by simp, s.1, hs, congrArg Prod.fst hr⟩

/-- **Every declared type is done or has failed.** -/
theorem defined_or_failed (h : name ∈ g.names) :
    name ∈ (converted g o).1.definitions.keys ∨ name ∈ (normalize g o).failed := by
  refine turns_induction (g := g) (o := o)
    (Q := fun names s => ∀ name ∈ names,
      name ∈ s.1.definitions.keys ∨ name ∈ s.2.map Failure.name)
    (by simp) (fun names name s hs ih => ?_) g.names name h
  have hcall := call_leads hs name
  have hkeys := fun U => ((hcall.1.extends hs.valid).keys (T := U))
  rw [normalizeNext_eq]
  intro U hU
  rw [List.mem_append, List.mem_singleton] at hU
  split
  · -- skipped, since it is done
    rename_i hdone
    rcases hU with hU | rfl
    · exact ih U hU
    · exact .inl hdone
  · rcases hr : call g o s.1 name with ⟨e | n, p⟩ <;> rw [hr] at hcall hkeys
    · rcases hU with hU | rfl
      · exact (ih U hU).imp (hkeys U) fun hf => by simp [hf]
      · exact .inr (by simp)
    · rcases hU with hU | rfl
      · exact (ih U hU).imp_left (hkeys U)
      · exact .inl (Members.mem_keys_of_get? (hcall.2 n rfl))

/-! ### Documents -/

theorem documents_normalize (g : TypeGraph) (o : Options) :
    (normalize g o).documents = (converted g o).1.documents g o := rfl

theorem isTopLevel_iff :
    p.isTopLevel name = true ↔
      name ∈ p.definitions.keys ∧ (name ∉ p.nested ∨ name ∈ p.cycleTargets) := by
  simp [Progress.isTopLevel, Progress.isNested, Members.contains_iff_mem_keys]

theorem mem_documents {doc : SchemaNode} :
    (name, doc) ∈ p.documents g o ↔
      name ∈ g.names ∧ p.isTopLevel name = true ∧
        ∃ n, p.definition? name = some n ∧ doc = { n with schema := some o.schemaUri } := by
  simp only [Progress.documents, List.mem_filterMap, Option.ite_none_right_eq_some,
    Option.map_eq_some_iff, Prod.mk.injEq]
  constructor
  · rintro ⟨T, hT, htop, n, hn, rfl, rfl⟩
    exact ⟨hT, htop, n, hn, rfl⟩
  · rintro ⟨hT, htop, n, hn, rfl⟩
    exact ⟨name, hT, htop, n, hn, rfl, rfl⟩

theorem keys_documents (hp : p.Valid g) :
    name ∈ (p.documents g o).keys ↔
      name ∈ p.definitions.keys ∧ (name ∉ p.nested ∨ name ∈ p.cycleTargets) := by
  have hkeys : name ∈ (p.documents g o).keys ↔ ∃ doc, (name, doc) ∈ p.documents g o := by
    simp [Members.keys]
  rw [hkeys, ← isTopLevel_iff]
  constructor
  · rintro ⟨doc, hdoc⟩
    exact (mem_documents.mp hdoc).2.1
  · intro htop
    have hdone := (isTopLevel_iff.mp htop).1
    obtain ⟨n, hn⟩ := Members.exists_get?_of_mem_keys hdone
    exact ⟨_, mem_documents.mpr ⟨hp.definitions_declared name hdone, htop, n, hn, rfl⟩⟩

/-- No two documents have one name. -/
theorem nodup_documents (g : TypeGraph) (o : Options) (p : Progress) :
    (p.documents g o).keys.Nodup := by
  rw [Progress.documents, Members.keys, List.map_filterMap]
  refine List.Nodup.filterMap (fun T U name hT hU => ?_) g.nodup_names
  -- the document of a type has the name of the type
  have hkey : ∀ V : String, name ∈ (if p.isTopLevel V then
      (p.definition? V).map fun n => (V, { n with schema := some o.schemaUri })
      else none).map Prod.fst → name = V := by
    intro V hV
    split at hV
    · simp only [Option.map_map, Option.mem_def, Option.map_eq_some_iff] at hV
      obtain ⟨n, -, rfl⟩ := hV
      rfl
    · simp at hV
  rw [← hkey T hT, hkey U hU]

end RamlSchema
