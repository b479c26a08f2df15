/-
RamlSchema/Proofs/Normalize/Independence.lean

Independent parts of a graph.

All types of a graph share one progress.  Take a graph with a part to whose types no
other type refers, and which refers to no other type (`TypeGraph.Component`).  A
conversion of a type of the part goes as it would if nothing else were declared
(`Completes.mirror`), and a conversion of any other type leaves what is known of the
part alone, by `Completes.frame`.  So turn by turn the progress tells the same of
the part as in a conversion of the part by itself.

Main result: `normalize_interleaved`.  If two graphs do not refer to each other, each
of them fares in any interleaving of the two as it does by itself.
-/
import RamlSchema.Proofs.Normalize.Failures
import RamlSchema.Proofs.Normalize.Frame
import RamlSchema.Proofs.Normalize.Nodes
import RamlSchema.Proofs.Normalize.Order

namespace RamlSchema

open Relation Progress

/-! ### Parts of a graph -/

/-- `h` is a part of `g` for itself: its types refer to no other type of `g`, nor the
others to them. -/
structure TypeGraph.Component (h g : TypeGraph) : Prop where
  names : g.names.filter (· ∈ h.names) = h.names
  tree : ∀ T ∈ h.names, g.tree? T = h.tree? T
  closed : ∀ T raw n U, h.HasNode T raw → NodeShape.ofJson raw = .ok n → n.typeName? = some U →
    U ∈ g.names → U ∈ h.names
  apart : ∀ T U, References g T U → U ∈ h.names → T ∈ h.names

variable {g h : TypeGraph} {o : Options} {p p' q q' : Progress}

/-- The types of a part. -/
def TypeGraph.types (h : TypeGraph) : Set String :=
  {T | T ∈ h.names}

/-- `q` converts what `p` does, and tells the same of the types of `h`. -/
structure Progress.Mirrors (h : TypeGraph) (p q : Progress) : Prop where
  inProgress : p.inProgress = q.inProgress
  same : SameOn h.types p q

namespace Progress.Mirrors

theorem emit (hm : Mirrors h p q) (e : Event) : Mirrors h (p.emit e) (q.emit e) :=
  ⟨hm.inProgress, ⟨hm.same.definition, hm.same.nested, hm.same.target⟩⟩

theorem enter (hm : Mirrors h p q) (T : String) : Mirrors h (p.enter T) (q.enter T) :=
  ⟨congrArg (Names.add · T) hm.inProgress, ⟨hm.same.definition, hm.same.nested, hm.same.target⟩⟩

theorem leave (hm : Mirrors h p q) (T : String) : Mirrors h (p.leave T) (q.leave T) :=
  ⟨congrArg (List.filter (· ≠ T)) hm.inProgress,
    ⟨hm.same.definition, hm.same.nested, hm.same.target⟩⟩

theorem define (hm : Mirrors h p q) (T : String) (n : SchemaNode) :
    Mirrors h (p.define T n) (q.define T n) :=
  ⟨hm.inProgress, hm.same.define T n⟩

theorem nest (hm : Mirrors h p q) (T : String) (l : Location) :
    Mirrors h (p.nest T l) (q.nest T l) :=
  ⟨by rw [inProgress_nest, inProgress_nest, hm.inProgress], hm.same.nest T l⟩

theorem breakCycle (hm : Mirrors h p q) (T : String) (l : Location) :
    Mirrors h (p.breakCycle T l) (q.breakCycle T l) :=
  ⟨hm.inProgress, hm.same.breakCycle T l⟩

end Progress.Mirrors

/-! ### Nodes of a part -/

namespace TypeGraph.Component

variable {T : String} {raw : Json} {n : NodeShape}

theorem mem_names (hc : h.Component g) (hT : T ∈ h.names) : T ∈ g.names := by
  rw [← hc.names] at hT
  exact (List.mem_filter.mp hT).1

/-- What a node of the part names is declared in the part, or not at all. -/
theorem mem_names_iff (hc : h.Component g) (hraw : h.HasNode T raw)
    (hn : NodeShape.ofJson raw = .ok n) {U : String} (hU : n.typeName? = some U) :
    U ∈ g.names ↔ U ∈ h.names :=
  ⟨hc.closed T raw n U hraw hn hU, hc.mem_names⟩

theorem declared?_eq (hc : h.Component g) (hraw : h.HasNode T raw)
    (hn : NodeShape.ofJson raw = .ok n) : n.declared? g = n.declared? h := by
  ext U
  rw [NodeShape.declared?_eq_some_iff, NodeShape.declared?_eq_some_iff]
  exact and_congr_right (hc.mem_names_iff hraw hn)

theorem tasks_eq (hc : h.Component g) (hraw : h.HasNode T raw)
    (hn : NodeShape.ofJson raw = .ok n) (l : Location) : n.tasks g l = n.tasks h l := by
  have hmay : mayHaveProperties g n.schemaType = mayHaveProperties h n.schemaType := by
    rw [Bool.eq_iff_iff, NodeShape.mayHaveProperties_iff, NodeShape.mayHaveProperties_iff]
    exact exists_congr fun U =>
      and_congr_right fun hU => or_congr_right (hc.mem_names_iff hraw hn hU)
  rw [NodeShape.tasks, NodeShape.tasks, NodeShape.checkProperties, NodeShape.checkProperties, hmay]

/-- From the other types no path leads to one of the part. -/
theorem types_subset_beyond (hc : h.Component g) (hT : T ∉ h.names) : h.types ⊆ g.beyond T := by
  intro U hU hpath
  apply hT
  clear hT
  induction hpath using ReflTransGen.head_induction_on with
  | refl => exact hU
  | head href _ ih => exact hc.apart _ _ href ih

end TypeGraph.Component

/-! ### Conversions in a part -/

mutual

theorem Converts.mirror {k : Nat} {part : Part} {l : Location} {p p' q : Progress}
    {r : Except ConvertError SchemaNode} (hc : h.Component g) (hm : Mirrors h p q)
    (hl : part.Within h l.typeName) :
    Converts g o k part l p r p' → ∃ q', Converts h o k part l q r q' ∧ Mirrors h p' q'
  | .written => ⟨_, .written, hm.emit _⟩
  | .tooDeep => ⟨_, .tooDeep, hm⟩
  | .malformed hn => ⟨_, .malformed hn, hm⟩
  | .failed hn htasks => by
    obtain ⟨q₁, hts, hm₁⟩ := htasks.mirror hc hm (hl.tasks hn)
    rw [hc.tasks_eq (hl _ rfl) hn] at hts
    exact ⟨q₁, .failed hn hts, hm₁⟩
  | .plain hn htasks hT => by
    obtain ⟨q₁, hts, hm₁⟩ := htasks.mirror hc hm (hl.tasks hn)
    rw [hc.tasks_eq (hl _ rfl) hn] at hts
    rw [hc.declared?_eq (hl _ rfl) hn] at hT
    exact ⟨q₁, .plain hn hts hT, hm₁⟩
  | .cycle hn htasks hT hmem ho => by
    obtain ⟨q₁, hts, hm₁⟩ := htasks.mirror hc hm (hl.tasks hn)
    rw [hc.tasks_eq (hl _ rfl) hn] at hts
    rw [hc.declared?_eq (hl _ rfl) hn] at hT
    exact ⟨_, .cycle hn hts hT (hm₁.inProgress ▸ hmem) ho, hm₁.breakCycle _ l⟩
  | .cyclic hn htasks hT hmem ho => by
    obtain ⟨q₁, hts, hm₁⟩ := htasks.mirror hc hm (hl.tasks hn)
    rw [hc.tasks_eq (hl _ rfl) hn] at hts
    rw [hc.declared?_eq (hl _ rfl) hn] at hT
    -- the cycle in the error is read off the types in progress
    rw [cycleThrough, hm₁.inProgress]
    exact ⟨q₁, .cyclic hn hts hT (hm₁.inProgress ▸ hmem) ho, hm₁⟩
  | .inlined hn htasks hT hmem hbase => by
    obtain ⟨q₁, hts, hm₁⟩ := htasks.mirror hc hm (hl.tasks hn)
    rw [hc.tasks_eq (hl _ rfl) hn] at hts
    rw [hc.declared?_eq (hl _ rfl) hn] at hT
    obtain ⟨q₂, hb, hm₂⟩ := hbase.mirror hc hm₁ (hl.references hn hT).target_mem
    exact ⟨_, .inlined hn hts hT (hm₁.inProgress ▸ hmem) hb, hm₂.nest _ l⟩
  | .lost hn htasks hT hmem hbase => by
    obtain ⟨q₁, hts, hm₁⟩ := htasks.mirror hc hm (hl.tasks hn)
    rw [hc.tasks_eq (hl _ rfl) hn] at hts
    rw [hc.declared?_eq (hl _ rfl) hn] at hT
    obtain ⟨q₂, hb, hm₂⟩ := hbase.mirror hc hm₁ (hl.references hn hT).target_mem
    exact ⟨q₂, .lost hn hts hT (hm₁.inProgress ▸ hmem) hb, hm₂⟩

theorem Performs.mirror {k : Nat} {l : Location} {ts : List Task} {p p' q : Progress}
    {r : Except ConvertError (List (Step × SchemaNode))} (hc : h.Component g) (hm : Mirrors h p q)
    (hl : ∀ step part, (step, part) ∈ ts.filterMap Task.part? →
      part.Within h (l.descend step.keys).typeName) :
    Performs g o k l ts p r p' → ∃ q', Performs h o k l ts q r q' ∧ Mirrors h p' q'
  | .nil => ⟨_, .nil, hm⟩
  | @Performs.report _ _ _ _ e ts _ _ _ hts => by
    have hrest : ∀ step part, (step, part) ∈ ts.filterMap Task.part? →
        part.Within h (l.descend step.keys).typeName := hl
    obtain ⟨q₁, hts', hm₁⟩ := hts.mirror hc (hm.emit e) hrest
    exact ⟨q₁, .report hts', hm₁⟩
  | .fail => ⟨_, .fail, hm⟩
  | .stop hn => by
    obtain ⟨q₁, hn', hm₁⟩ := hn.mirror hc hm (hl _ _ List.mem_cons_self)
    exact ⟨q₁, .stop hn', hm₁⟩
  | .later hn hts => by
    obtain ⟨q₁, hn', hm₁⟩ := hn.mirror hc hm (hl _ _ List.mem_cons_self)
    obtain ⟨q₂, hts', hm₂⟩ := hts.mirror hc hm₁ fun step part hpart =>
      hl step part (List.mem_cons_of_mem _ hpart)
    exact ⟨q₂, .later hn' hts', hm₂⟩
  | .convert hn hts => by
    obtain ⟨q₁, hn', hm₁⟩ := hn.mirror hc hm (hl _ _ List.mem_cons_self)
    obtain ⟨q₂, hts', hm₂⟩ := hts.mirror hc hm₁ fun step part hpart =>
      hl step part (List.mem_cons_of_mem _ hpart)
    exact ⟨q₂, .convert hn' hts', hm₂⟩

/-- **A type of a part is converted as if nothing else were declared.** -/
theorem Completes.mirror {k : Nat} {T : String} {p p' q : Progress}
    {r : Except ConvertError SchemaNode} (hc : h.Component g) (hm : Mirrors h p q)
    (hT : T ∈ h.names) :
    Completes g o k T p r p' → ∃ q', Completes h o k T q r q' ∧ Mirrors h p' q'
  | .known hdef => ⟨_, .known ((hm.same.definition T hT).symm.trans hdef), hm⟩
  | .undeclared _ htree => by
    rw [hc.tree T hT] at htree
    have hsome := (h.tree?_isSome_iff T).mpr hT
    simp [htree] at hsome
  | .defined hdef htree hn => by
    rw [hc.tree T hT] at htree
    obtain ⟨q₁, hn', hm₁⟩ := hn.mirror hc (hm.enter T) (.root htree)
    exact ⟨_, .defined ((hm.same.definition T hT).symm.trans hdef) htree hn',
      (hm₁.leave T).define T _⟩
  | .abandoned hdef htree hn => by
    rw [hc.tree T hT] at htree
    obtain ⟨q₁, hn', hm₁⟩ := hn.mirror hc (hm.enter T) (.root htree)
    exact ⟨_, .abandoned ((hm.same.definition T hT).symm.trans hdef) htree hn', hm₁.leave T⟩

end

/-! ### Turns -/

/-- What is known of the part when the turns of some types are over: the same as in a
conversion of the part by itself, where only its own types have had their turns. -/
structure Fares (h : TypeGraph) (s t : Progress × List Failure) : Prop where
  same : SameOn h.types s.1 t.1
  failures : s.2.filter (·.name ∈ h.names) = t.2

/-- The turn of a type of the part. -/
theorem normalizeNext_fares_of_mem (hc : h.Component g) {s t : Progress × List Failure}
    (hs : s.1.Idle g o) (ht : t.1.Idle h o) (hst : Fares h s t) {name : String}
    (hname : name ∈ h.names) : Fares h (normalizeNext g o s name) (normalizeNext h o t name) := by
  rw [normalizeNext_eq, normalizeNext_eq]
  simp only [hst.same.mem_keys hname]
  split
  · exact hst
  · -- between turns no type is in progress on either side
    have hm : Mirrors h s.1 t.1 := ⟨hs.inProgress.trans ht.inProgress.symm, hst.same⟩
    obtain ⟨q, hcall, hm'⟩ := (call_completes (g := g) (o := o) s.1 name).mirror hc hm hname
    have hexec : call h o t.1 name = ((call g o s.1 name).1, q) := completes_iff.mp hcall
    rw [hexec]
    rcases hr : call g o s.1 name with ⟨e | n, p⟩ <;> rw [hr] at hm'
    · refine ⟨(hm'.emit _).same, ?_⟩
      simp [List.filter_append, hst.failures, hname]
    · exact ⟨hm'.same, hst.failures⟩

/-- The turn of another type. -/
theorem normalizeNext_fares_of_notMem (hc : h.Component g) {s t : Progress × List Failure}
    (hst : Fares h s t) {name : String} (hname : name ∉ h.names) :
    Fares h (normalizeNext g o s name) t := by
  rw [normalizeNext_eq]
  split
  · exact hst
  · -- the call leaves the types of the part alone
    have hframe := (call_completes (g := g) (o := o) s.1 name).frame.mono
      (hc.types_subset_beyond hname)
    have hsame := hframe.symm.trans hst.same
    rcases hr : call g o s.1 name with ⟨e | n, p⟩ <;> rw [hr] at hsame
    · refine ⟨(sameOn_emit _ _ _).symm.trans hsame, ?_⟩
      simp [List.filter_append, hst.failures, hname]
    · exact ⟨hsame, hst.failures⟩

theorem turns_fares (hc : h.Component g) (names : List String) :
    Fares h (turns g o names) (turns h o (names.filter (· ∈ h.names))) := by
  refine turns_induction (g := g) (o := o)
    (Q := fun names s => Fares h s (turns h o (names.filter (· ∈ h.names))))
    ⟨.refl _ _, rfl⟩ (fun names name s hs ih => ?_) names
  by_cases hname : name ∈ h.names
  · have hturns : turns h o ((names ++ [name]).filter (· ∈ h.names))
        = normalizeNext h o (turns h o (names.filter (· ∈ h.names))) name := by
      simp [turns, List.filter_append, hname]
    rw [hturns]
    exact normalizeNext_fares_of_mem hc hs (turns_idle _) ih hname
  · have hturns : (names ++ [name]).filter (· ∈ h.names) = names.filter (· ∈ h.names) := by
      simp [List.filter_append, hname]
    rw [hturns]
    exact normalizeNext_fares_of_notMem hc ih hname

/-- The documents of the part are those that it has by itself. -/
theorem documents_filter (hc : h.Component g) (hpq : SameOn h.types p q) :
    (p.documents g o).filter (·.1 ∈ h.names) = q.documents h o := by
  have hq : q.documents h o = (g.names.filter (· ∈ h.names)).filterMap fun T =>
      if q.isTopLevel T then
        (q.definition? T).map fun n => (T, { n with schema := some o.schemaUri })
      else none := by
    rw [hc.names]
    rfl
  rw [hq, Progress.documents, List.filter_filterMap, List.filterMap_filter]
  refine List.filterMap_congr fun T _ => ?_
  by_cases hT : T ∈ h.names
  · rw [hpq.isTopLevel hT, hpq.definition T hT]
    rcases q.isTopLevel T <;> rcases q.definition? T <;> simp [hT]
  · rcases p.isTopLevel T <;> rcases p.definition? T <;> simp [hT]

/-- **A part of a graph fares as it does by itself.** -/
theorem normalize_component (hc : h.Component g) (o : Options) :
    (normalize g o).documents.filter (·.1 ∈ h.names) = (normalize h o).documents ∧
      (normalize g o).failures.filter (·.name ∈ h.names) = (normalize h o).failures := by
  have hfares := turns_fares (o := o) hc g.names
  rw [hc.names] at hfares
  exact ⟨documents_filter hc hfares.same, hfares.failures⟩

/-! ### Two graphs in one -/

/-- `zs` runs through `xs` and `ys` in turns of any length. -/
inductive Interleaves {α : Type} : List α → List α → List α → Prop
  | nil : Interleaves [] [] []
  | left {x xs ys zs} : Interleaves xs ys zs → Interleaves (x :: xs) ys (x :: zs)
  | right {y xs ys zs} : Interleaves xs ys zs → Interleaves xs (y :: ys) (y :: zs)

/-- No node of a tree of `h` has a type of `g` as its single type. -/
def TypeGraph.Ignores (h g : TypeGraph) : Prop :=
  ∀ T raw n U, h.HasNode T raw → NodeShape.ofJson raw = .ok n → n.typeName? = some U →
    U ∉ g.names

/-- The single type of a node that has a shape. -/
def Json.typeName? (raw : Json) : Option String :=
  match NodeShape.ofJson raw with
  | .ok n => n.typeName?
  | .error _ => none

theorem TypeGraph.ignores_iff :
    h.Ignores g ↔ ∀ T ∈ h.names, ∀ raw ∈ h.nodes T, ∀ U ∈ g.names, raw.typeName? ≠ some U := by
  constructor
  · intro hignores T _ raw hraw U hU hname
    unfold Json.typeName? at hname
    split at hname
    · exact hignores T raw _ U (mem_nodes_iff.mp hraw) ‹_› hname hU
    · cases hname
  · intro hnodes T raw n U hraw hn hname hU
    refine hnodes T hraw.mem_names raw (mem_nodes_iff.mpr hraw) U hU ?_
    rw [Json.typeName?, hn]
    exact hname

instance (h g : TypeGraph) : Decidable (h.Ignores g) :=
  decidable_of_iff _ TypeGraph.ignores_iff.symm

namespace Interleaves

variable {α β : Type} {xs ys zs : List α}

theorem symm (hi : Interleaves xs ys zs) : Interleaves ys xs zs := by
  induction hi with
  | nil => exact .nil
  | left _ ih => exact .right ih
  | right _ ih => exact .left ih

theorem map (f : α → β) (hi : Interleaves xs ys zs) :
    Interleaves (xs.map f) (ys.map f) (zs.map f) := by
  induction hi with
  | nil => exact .nil
  | left _ ih => exact .left ih
  | right _ ih => exact .right ih

theorem perm (hi : Interleaves xs ys zs) : zs.Perm (xs ++ ys) := by
  induction hi with
  | nil => exact .refl _
  | left _ ih => exact ih.cons _
  | right _ ih => exact (ih.cons _).trans List.perm_middle.symm

/-- What tells the items of the two lists apart takes one of them out. -/
theorem filter_eq_left {P : α → Bool} (hi : Interleaves xs ys zs) (hxs : ∀ x ∈ xs, P x = true)
    (hys : ∀ y ∈ ys, P y = false) : zs.filter P = xs := by
  induction hi with
  | nil => rfl
  | left _ ih =>
    obtain ⟨hx, hxs⟩ := List.forall_mem_cons.mp hxs
    rw [List.filter_cons_of_pos hx, ih hxs hys]
  | right _ ih =>
    obtain ⟨hy, hys⟩ := List.forall_mem_cons.mp hys
    rw [List.filter_cons_of_neg (by simp [hy]), ih hxs hys]

end Interleaves

section

variable {g₁ g₂ : TypeGraph}

theorem mem_names_iff_of_interleaves (hg : Interleaves g₁.trees g₂.trees g.trees) {T : String} :
    T ∈ g.names ↔ T ∈ g₁.names ∨ T ∈ g₂.names := by
  rw [← List.mem_append]
  exact (hg.map Prod.fst).perm.mem_iff

theorem notMem_names_of_interleaves (hg : Interleaves g₁.trees g₂.trees g.trees) {T : String}
    (hT : T ∈ g₂.names) : T ∉ g₁.names := by
  have hnodup : (g₁.names ++ g₂.names).Nodup := (hg.map Prod.fst).perm.nodup g.nodup_names
  exact fun hT' => List.disjoint_of_nodup_append hnodup hT' hT

theorem tree?_of_interleaves (hg : Interleaves g₁.trees g₂.trees g.trees) {T : String}
    (hT : T ∈ g₁.names) : g.tree? T = g₁.tree? T := by
  obtain ⟨tree, htree⟩ := Members.exists_get?_of_mem_keys hT
  have happend : g.tree? T = Members.get? (g₁.trees ++ g₂.trees) T :=
    Members.get?_perm hg.perm g.nodup_names T
  rw [happend, Members.get?_append_of_some htree]
  exact htree.symm

/-- Two graphs that do not refer to each other are parts of what they make up. -/
theorem component_of_interleaves (hg : Interleaves g₁.trees g₂.trees g.trees)
    (h₁ : g₁.Ignores g₂) (h₂ : g₂.Ignores g₁) : g₁.Component g where
  names := by
    have hnames : Interleaves g₁.names g₂.names g.names := hg.map Prod.fst
    refine hnames.filter_eq_left (by simp) fun T hT => ?_
    simpa using notMem_names_of_interleaves hg hT
  tree _ hT := tree?_of_interleaves hg hT
  closed T raw n U hraw hn hU hdeclared :=
    ((mem_names_iff_of_interleaves hg).mp hdeclared).resolve_right (h₁ T raw n U hraw hn hU)
  apart T U href hU := by
    obtain ⟨raw, n, hraw, hn, hdeclared⟩ := href
    have hname := (NodeShape.declared?_eq_some_iff.mp hdeclared).1
    refine ((mem_names_iff_of_interleaves hg).mp hraw.mem_names).resolve_right fun hT => ?_
    -- a node of the other graph does not have a type of this one
    have hraw₂ := hraw.of_tree?_eq (tree?_of_interleaves hg.symm hT)
    exact h₂ T raw n U hraw₂ hn hname hU

/-- **Independent parts of a graph do not interfere.**  Of an interleaving of two
graphs that do not refer to each other, each has the documents and the failures that
it has by itself, in order. -/
theorem normalize_interleaved (hg : Interleaves g₁.trees g₂.trees g.trees)
    (h₁ : g₁.Ignores g₂) (h₂ : g₂.Ignores g₁) (o : Options) :
    ((normalize g o).documents.filter (·.1 ∈ g₁.names) = (normalize g₁ o).documents ∧
      (normalize g o).failures.filter (·.name ∈ g₁.names) = (normalize g₁ o).failures) ∧
    (normalize g o).documents.filter (·.1 ∈ g₂.names) = (normalize g₂ o).documents ∧
      (normalize g o).failures.filter (·.name ∈ g₂.names) = (normalize g₂ o).failures :=
  ⟨normalize_component (component_of_interleaves hg h₁ h₂) o,
    normalize_component (component_of_interleaves hg.symm h₂ h₁) o⟩

end

/-- The types of `revivedGraph` among those of `cyclicGraph`. -/
def mingledGraph : TypeGraph :=
  .ofList
    [("T", .ofProperties [("v", .ofType (.str "V"))]),
      ("A", .ofProperties [("c", .ofType (.str "C")), ("b", .ofType (.str "B"))]),
      ("B", .ofProperties [("a", .ofType (.str "A"))]),
      ("V", .ofProperties [("t", .ofType (.str "T")), ("bad", .ofType (.num (.whole 7)))]),
      ("C", .ofType (.str "string"))]

/-- The failures of the one do not show in the other. -/
theorem normalize_interleaved_mingled :
    (normalize mingledGraph {}).failed = ["T", "V"] ∧
      (normalize mingledGraph {}).documents.filter (·.1 ∈ cyclicGraph.names)
        = (normalize cyclicGraph {}).documents ∧
      (normalize mingledGraph {}).failures.filter (·.name ∈ revivedGraph.names)
        = (normalize revivedGraph {}).failures := by
  have hmingled : Interleaves revivedGraph.trees cyclicGraph.trees mingledGraph.trees :=
    .left (.right (.right (.left (.right .nil))))
  have h := normalize_interleaved hmingled (by decide) (by decide) {}
  exact ⟨rfl, h.2.1, h.1.2⟩

end RamlSchema
