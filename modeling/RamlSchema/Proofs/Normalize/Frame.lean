/-
RamlSchema/Proofs/Normalize/Frame.lean

What a conversion leaves alone.

Whatever a conversion enters, completes, puts in a place or makes a cycle target is
a type to which the type it started with refers, directly or through others.  Of all
other types the progress tells behind it what it told before, be it that the
conversion succeeds or fails, and at whatever depth.

Main result: `Completes.frame`.
-/
import RamlSchema.Proofs.Normalize.Replay

namespace RamlSchema

open Relation

variable {g : TypeGraph} {o : Options}

namespace Progress

/-- Two progresses tell the same of the types in `S`. -/
structure SameOn (S : Set String) (p q : Progress) : Prop where
  definition : ∀ T ∈ S, p.definition? T = q.definition? T
  nested : ∀ T ∈ S, T ∈ p.nested ↔ T ∈ q.nested
  target : ∀ T ∈ S, T ∈ p.cycleTargets ↔ T ∈ q.cycleTargets

variable {S S' : Set String} {p q r : Progress} {T : String}

namespace SameOn

theorem refl (S : Set String) (p : Progress) : SameOn S p p :=
  ⟨fun _ _ => rfl, fun _ _ => .rfl, fun _ _ => .rfl⟩

theorem symm (h : SameOn S p q) : SameOn S q p :=
  ⟨fun T hT => (h.definition T hT).symm, fun T hT => (h.nested T hT).symm,
    fun T hT => (h.target T hT).symm⟩

theorem trans (h : SameOn S p q) (h' : SameOn S q r) : SameOn S p r :=
  ⟨fun T hT => (h.definition T hT).trans (h'.definition T hT),
    fun T hT => (h.nested T hT).trans (h'.nested T hT),
    fun T hT => (h.target T hT).trans (h'.target T hT)⟩

theorem mono (h : SameOn S p q) (hS : S' ⊆ S) : SameOn S' p q :=
  ⟨fun T hT => h.definition T (hS hT), fun T hT => h.nested T (hS hT),
    fun T hT => h.target T (hS hT)⟩

theorem mem_keys (h : SameOn S p q) (hT : T ∈ S) :
    T ∈ p.definitions.keys ↔ T ∈ q.definitions.keys := by
  rw [← not_iff_not, ← definition?_eq_none_iff, ← definition?_eq_none_iff, h.definition T hT]

theorem isTopLevel (h : SameOn S p q) (hT : T ∈ S) : p.isTopLevel T = q.isTopLevel T := by
  have hdone : p.definitions.contains T = q.definitions.contains T :=
    congrArg Option.isSome (h.definition T hT)
  rw [Bool.eq_iff_iff]
  simp [Progress.isTopLevel, isNested, hdone, h.nested T hT, h.target T hT]

/-! What is done on both sides. -/

theorem define (h : SameOn S p q) (T : String) (n : SchemaNode) :
    SameOn S (p.define T n) (q.define T n) := by
  refine ⟨fun U hU => ?_, h.nested, h.target⟩
  by_cases hTU : T = U
  · subst hTU
    rw [definition?_define_self, definition?_define_self]
  · rw [definition?_define_of_ne _ hTU, definition?_define_of_ne _ hTU]
    exact h.definition U hU

theorem nest (h : SameOn S p q) (T : String) (l : Location) :
    SameOn S (p.nest T l) (q.nest T l) := by
  refine ⟨fun U hU => ?_, fun U hU => ?_, fun U hU => ?_⟩
  · rw [definition?_nest, definition?_nest]
    exact h.definition U hU
  · rw [mem_nested_nest_iff, mem_nested_nest_iff, h.nested U hU]
  · rw [cycleTargets_nest, cycleTargets_nest]
    exact h.target U hU

theorem breakCycle (h : SameOn S p q) (T : String) (l : Location) :
    SameOn S (p.breakCycle T l) (q.breakCycle T l) := by
  refine ⟨h.definition, h.nested, fun U hU => ?_⟩
  exact Names.mem_add.trans ((or_congr_left (h.target U hU)).trans Names.mem_add.symm)

end SameOn

/-! What is done to a type that is not in `S`, and reports. -/

theorem sameOn_emit (S : Set String) (p : Progress) (e : Event) : SameOn S p (p.emit e) :=
  ⟨fun _ _ => rfl, fun _ _ => .rfl, fun _ _ => .rfl⟩

theorem sameOn_define (p : Progress) (hT : T ∉ S) (n : SchemaNode) :
    SameOn S p (p.define T n) := by
  refine ⟨fun U hU => ?_, fun _ _ => .rfl, fun _ _ => .rfl⟩
  rw [definition?_define_of_ne _ (ne_of_mem_of_not_mem hU hT).symm]

theorem sameOn_nest (p : Progress) (hT : T ∉ S) (l : Location) : SameOn S p (p.nest T l) := by
  refine ⟨fun U hU => ?_, fun U hU => ?_, fun U hU => ?_⟩
  · rw [definition?_nest]
  · rw [mem_nested_nest_iff, or_iff_left (ne_of_mem_of_not_mem hU hT)]
  · rw [cycleTargets_nest]

theorem sameOn_breakCycle (p : Progress) (hT : T ∉ S) (l : Location) :
    SameOn S p (p.breakCycle T l) := by
  refine ⟨fun _ _ => rfl, fun _ _ => .rfl, fun U hU => ?_⟩
  exact (Names.mem_add.trans (or_iff_left (ne_of_mem_of_not_mem hU hT))).symm

end Progress

open Progress

/-- The types to which a type does not lead. -/
def TypeGraph.beyond (g : TypeGraph) (T : String) : Set String :=
  {U | ¬ ReflTransGen (References g) T U}

theorem TypeGraph.notMem_beyond {T U : String} (h : ReflTransGen (References g) T U) :
    U ∉ g.beyond T :=
  fun hU => hU h

/-- A type to which one refers leads to no more than that one does. -/
theorem TypeGraph.beyond_subset {T U : String} (h : References g T U) : g.beyond T ⊆ g.beyond U :=
  fun _ hV hpath => hV (.head h hpath)

mutual

theorem Converts.frame {k : Nat} {part : Part} {l : Location} {p p' : Progress}
    {r : Except ConvertError SchemaNode} (hl : part.Within g l.typeName) :
    Converts g o k part l p r p' → SameOn (g.beyond l.typeName) p p'
  | .written => sameOn_emit _ p _
  | .tooDeep => .refl _ p
  | .malformed _ => .refl _ p
  | .failed hn htasks => htasks.frame (hl.tasks hn)
  | .plain hn htasks _ => htasks.frame (hl.tasks hn)
  | .cycle hn htasks hT _ _ => by
    have hts := htasks.frame (hl.tasks hn)
    exact hts.trans (sameOn_breakCycle _ (g.notMem_beyond (.single (hl.references hn hT))) l)
  | .cyclic hn htasks _ _ _ => htasks.frame (hl.tasks hn)
  | .inlined hn htasks hT _ hbase => by
    have href := hl.references hn hT
    have hts := htasks.frame (hl.tasks hn)
    -- where the other type leads, this one leads as well
    have hb := hbase.frame.mono (g.beyond_subset href)
    exact (hts.trans hb).trans (sameOn_nest _ (g.notMem_beyond (.single href)) l)
  | .lost hn htasks hT _ hbase => by
    have hts := htasks.frame (hl.tasks hn)
    exact hts.trans (hbase.frame.mono (g.beyond_subset (hl.references hn hT)))

theorem Performs.frame {k : Nat} {l : Location} {ts : List Task} {p p' : Progress}
    {r : Except ConvertError (List (Step × SchemaNode))}
    (hl : ∀ step part, (step, part) ∈ ts.filterMap Task.part? →
      part.Within g (l.descend step.keys).typeName) :
    Performs g o k l ts p r p' → SameOn (g.beyond l.typeName) p p'
  | .nil => .refl _ p
  | .report hts => by
    refine (sameOn_emit _ p _).trans (hts.frame ?_)
    exact hl
  | .fail => .refl _ p
  | .stop hn => by
    have h := hn.frame (hl _ _ List.mem_cons_self)
    exact h
  | .later hn hts => by
    have hfirst := hn.frame (hl _ _ List.mem_cons_self)
    have hrest := hts.frame fun step part hpart => hl step part (List.mem_cons_of_mem _ hpart)
    exact hfirst.trans hrest
  | .convert hn hts => by
    have hfirst := hn.frame (hl _ _ List.mem_cons_self)
    have hrest := hts.frame fun step part hpart => hl step part (List.mem_cons_of_mem _ hpart)
    exact hfirst.trans hrest

/-- **A conversion leaves alone the types to which its type does not lead.** -/
theorem Completes.frame {k : Nat} {T : String} {p p' : Progress}
    {r : Except ConvertError SchemaNode} :
    Completes g o k T p r p' → SameOn (g.beyond T) p p'
  | .known _ => .refl _ p
  | .undeclared _ _ => .refl _ p
  | @Completes.defined _ _ _ _ _ _ n p₁ _ htree hn => by
    have h := hn.frame (.root htree)
    have hleave : SameOn (g.beyond T) p (p₁.leave T) := ⟨h.definition, h.nested, h.target⟩
    exact hleave.trans (sameOn_define _ (g.notMem_beyond .refl) n)
  | .abandoned _ htree hn => by
    have h := hn.frame (.root htree)
    exact ⟨h.definition, h.nested, h.target⟩

end

end RamlSchema
