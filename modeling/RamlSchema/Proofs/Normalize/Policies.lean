/-
RamlSchema/Proofs/Normalize/Policies.lean

Where the policy for cycles makes no difference.

From the first cycle on, two conversions under different policies go different ways:
they have different types in progress, different ones done and different ones that
have failed.  A type that leads to no cycle is tame, and so are all types to which it
refers.  What comes of a tame type can be told without any progress: `Yields g part l r`
says that a part at a place gives `r`, a node or an error, where each type that is
referred to is converted by itself.  No part gives two results (`Yields.unique`), and
every conversion of a tame type, whatever was done before and under whatever policy,
gives this one (`Converts.yields`, `Progress.Valid.yields`).

Main result: `policies_agree`.
-/
import RamlSchema.Proofs.Normalize.Coverage
import RamlSchema.Proofs.Normalize.Frame
import RamlSchema.Proofs.Normalize.Levels
import RamlSchema.Proofs.Normalize.Nodes

namespace RamlSchema

open Relation

/-! ### Tame types -/

/-- A type leads to no cycle. -/
def TypeGraph.Tame (g : TypeGraph) (T : String) : Prop :=
  ∀ X, ReflTransGen (References g) T X → ¬ TransGen (References g) X X

variable {g : TypeGraph} {o : Options} {T U : String}

/-- A type to which a tame one refers is tame. -/
theorem TypeGraph.Tame.of_references (h : g.Tame U) (href : References g U T) : g.Tame T :=
  fun X hpath => h X (.head href hpath)

/-- A type is tame if all types to which it refers are. -/
theorem TypeGraph.tame_of_forall (h : ∀ V, References g T V → g.Tame V) : g.Tame T := by
  intro X hpath hcycle
  rcases hpath.cases_head with rfl | ⟨V, href, hpath⟩
  · -- a cycle through the type itself goes on through one to which it refers
    obtain ⟨V, href, hback⟩ := TransGen.head'_iff.mp hcycle
    exact h V href V .refl (.tail' hback href)
  · exact h V href X hpath hcycle

/-! ### Results without progress -/

section

variable (g)

mutual

/-- What a part gives at its place. -/
inductive Yields : Part → Location → Except ConvertError SchemaNode → Prop
  | written {element l} : Yields (.written element) l (.ok (.ofType element))
  | malformed {raw l cause} :
      NodeShape.ofJson raw = .error cause → Yields (.node raw) l (.error (.malformed l cause))
  /-- One of its tasks fails. -/
  | failed {raw l n e} :
      NodeShape.ofJson raw = .ok n → YieldsAll l (n.tasks g l) (.error e) →
      Yields (.node raw) l (.error e)
  | plain {raw l n done} :
      NodeShape.ofJson raw = .ok n → YieldsAll l (n.tasks g l) (.ok done) →
      n.declared? g = none →
      Yields (.node raw) l (.ok (n.assemble done))
  /-- What comes of its type decides. -/
  | derived {raw l n done T tree r} :
      NodeShape.ofJson raw = .ok n → YieldsAll l (n.tasks g l) (.ok done) →
      n.declared? g = some T → g.tree? T = some tree → Yields (.node tree) ⟨T, []⟩ r →
      Yields (.node raw) l (r.map (·.overlay (n.site done)))

/-- What tasks give, up to the first failure. -/
inductive YieldsAll : Location → List Task → Except ConvertError (List (Step × SchemaNode)) → Prop
  | nil {l} : YieldsAll l [] (.ok [])
  | report {l e ts r} : YieldsAll l ts r → YieldsAll l (.report e :: ts) r
  | fail {l e ts} : YieldsAll l (.fail e :: ts) (.error e)
  | stop {l step part ts e} :
      Yields part (l.descend step.keys) (.error e) →
      YieldsAll l (.convert step part :: ts) (.error e)
  | convert {l step part ts n r} :
      Yields part (l.descend step.keys) (.ok n) → YieldsAll l ts r →
      YieldsAll l (.convert step part :: ts) (r.map ((step, n) :: ·))

end

/-- What the tree of a type gives. -/
def TypeYields (T : String) (r : Except ConvertError SchemaNode) : Prop :=
  ∃ tree, g.tree? T = some tree ∧ Yields g (.node tree) ⟨T, []⟩ r

end

/-! ### One result at most -/

mutual

theorem Yields.unique {part : Part} {l : Location} {r r' : Except ConvertError SchemaNode} :
    Yields g part l r → Yields g part l r' → r = r'
  | .written, h' => by
    cases h'
    rfl
  | .malformed hn, h' => by
    cases h' with
    | malformed hn' =>
      cases hn.symm.trans hn'
      rfl
    | failed hn' _ => cases hn.symm.trans hn'
    | plain hn' _ _ => cases hn.symm.trans hn'
    | derived hn' _ _ _ _ => cases hn.symm.trans hn'
  | .failed hn hts, h' => by
    cases h' with
    | malformed hn' => cases hn.symm.trans hn'
    | failed hn' hts' =>
      obtain rfl := Except.ok.inj (hn.symm.trans hn')
      exact congrArg _ (Except.error.inj (hts.unique hts'))
    | plain hn' hts' _ =>
      obtain rfl := Except.ok.inj (hn.symm.trans hn')
      cases hts.unique hts'
    | derived hn' hts' _ _ _ =>
      obtain rfl := Except.ok.inj (hn.symm.trans hn')
      cases hts.unique hts'
  | .plain hn hts hT, h' => by
    cases h' with
    | malformed hn' => cases hn.symm.trans hn'
    | failed hn' hts' =>
      obtain rfl := Except.ok.inj (hn.symm.trans hn')
      cases hts.unique hts'
    | plain hn' hts' _ =>
      obtain rfl := Except.ok.inj (hn.symm.trans hn')
      rw [Except.ok.inj (hts.unique hts')]
    | derived hn' _ hT' _ _ =>
      obtain rfl := Except.ok.inj (hn.symm.trans hn')
      cases hT.symm.trans hT'
  | .derived hn hts hT htree hr, h' => by
    cases h' with
    | malformed hn' => cases hn.symm.trans hn'
    | failed hn' hts' =>
      obtain rfl := Except.ok.inj (hn.symm.trans hn')
      cases hts.unique hts'
    | plain hn' _ hT' =>
      obtain rfl := Except.ok.inj (hn.symm.trans hn')
      cases hT.symm.trans hT'
    | derived hn' hts' hT' htree' hr' =>
      obtain rfl := Except.ok.inj (hn.symm.trans hn')
      obtain rfl := Except.ok.inj (hts.unique hts')
      obtain rfl := Option.some.inj (hT.symm.trans hT')
      obtain rfl := Option.some.inj (htree.symm.trans htree')
      rw [hr.unique hr']

theorem YieldsAll.unique {l : Location} {ts : List Task}
    {r r' : Except ConvertError (List (Step × SchemaNode))} :
    YieldsAll g l ts r → YieldsAll g l ts r' → r = r'
  | .nil, h' => by
    cases h'
    rfl
  | .report hts, h' => by
    cases h' with
    | report hts' => exact hts.unique hts'
  | .fail, h' => by
    cases h'
    rfl
  | .stop hn, h' => by
    cases h' with
    | stop hn' => exact congrArg _ (Except.error.inj (hn.unique hn'))
    | convert hn' _ => cases hn.unique hn'
  | .convert hn hts, h' => by
    cases h' with
    | stop hn' => cases hn.unique hn'
    | convert hn' hts' =>
      obtain rfl := Except.ok.inj (hn.unique hn')
      rw [hts.unique hts']

end

theorem TypeYields.unique {r r' : Except ConvertError SchemaNode} (h : TypeYields g T r)
    (h' : TypeYields g T r') : r = r' := by
  obtain ⟨tree, htree, hr⟩ := h
  obtain ⟨tree', htree', hr'⟩ := h'
  obtain rfl := Option.some.inj (htree.symm.trans htree')
  exact hr.unique hr'

/-! ### What is done -/

/-- A part gives a node at the end of its step. -/
def YieldsPart (g : TypeGraph) (l : Location) (p : Step × Part) (d : Step × SchemaNode) : Prop :=
  p.1 = d.1 ∧ Yields g p.2 (l.descend p.1.keys) (.ok d.2)

/-- Tasks of which none fails give what their parts give. -/
theorem YieldsAll.of_parts {l : Location} {ts : List Task} {done : List (Step × SchemaNode)}
    (h : List.Forall₂ (YieldsPart g l) (ts.filterMap Task.part?) done)
    (hfail : ∀ e, .fail e ∉ ts) : YieldsAll g l ts (.ok done) := by
  induction ts generalizing done with
  | nil =>
    cases h
    exact .nil
  | cons t ts ih =>
    have hrest : ∀ e, .fail e ∉ ts := fun e he => hfail e (List.mem_cons_of_mem _ he)
    cases t with
    | report e => exact .report (ih h hrest)
    | fail e => exact absurd List.mem_cons_self (hfail e)
    | convert step part =>
      obtain ⟨⟨step', n⟩, done', ⟨hstep, hn⟩, hdone', rfl⟩ := List.forall₂_cons_left_iff.mp h
      obtain rfl : step = step' := hstep
      exact .convert hn (ih hdone' hrest)

/-- A node that passes its checks gives what its parts give. -/
theorem NodeShape.yields_tasks {n : NodeShape} {l : Location} {done : List (Step × SchemaNode)}
    (hsound : n.Sound g) (h : List.Forall₂ (YieldsPart g l) n.parts done) :
    YieldsAll g l (n.tasks g l) (.ok done) := by
  apply YieldsAll.of_parts _ (NodeShape.sound_iff.mp hsound)
  rw [NodeShape.part?_tasks]
  exact h

section

variable {base : String → SchemaNode → Prop}

mutual

/-- What is rendered from what types give is what the part gives. -/
theorem Renders.yields (hbase : ∀ V b, base V b → References g U V → TypeYields g V (.ok b))
    {part : Part} {n : SchemaNode} (hpart : part.Within g U) (l : Location) :
    Renders g base part n → Yields g part l (.ok n)
  | .written => .written
  | .plain hn hsound hparts hT => by
    have hdone := hparts.yields hbase (fun _ _ hc => hpart.of_mem hn hc) l
    exact .plain hn (NodeShape.yields_tasks hsound hdone) hT
  | .reference hn hsound hparts hT hb => by
    have hdone := hparts.yields hbase (fun _ _ hc => hpart.of_mem hn hc) l
    obtain ⟨tree, htree, hr⟩ := hbase _ _ hb (hpart.references hn hT)
    exact .derived hn (NodeShape.yields_tasks hsound hdone) hT htree hr

theorem RendersAll.yields (hbase : ∀ V b, base V b → References g U V → TypeYields g V (.ok b))
    {parts : List (Step × Part)} {done : List (Step × SchemaNode)}
    (hparts : ∀ step part, (step, part) ∈ parts → part.Within g U) (l : Location) :
    RendersAll g base parts done → List.Forall₂ (YieldsPart g l) parts done
  | .nil => .nil
  | .cons hn hrest =>
    .cons ⟨rfl, hn.yields hbase (hparts _ _ List.mem_cons_self) _⟩
      (hrest.yields hbase (fun s c hc => hparts s c (List.mem_cons_of_mem _ hc)) l)

end

end

variable {p p' : Progress}

/-- What may stand in the place of a tame type is its schema, and never a reference. -/
theorem Progress.Valid.base_of_tame (hp : p.Valid g) {D : Members SchemaNode} {b : SchemaNode}
    (hT : g.Tame T) (hb : p.base D T b) : D.get? T = some b := by
  rcases hb with ⟨hget, -⟩ | ⟨-, htarget⟩
  · exact hget
  · exact absurd (hp.targets_cyclic T htarget) (hT T .refl)

/-- **The schema of a tame type is what its tree gives.** -/
theorem Progress.Valid.yields (hp : p.Valid g) (hT : g.Tame T) {d : SchemaNode}
    (hd : p.definition? T = some d) : TypeYields g T (.ok d) := by
  refine hp.definition_induction (Q := fun T d => g.Tame T → TypeYields g T (.ok d))
    (fun D T tree d _ hbefore htree hrenders hT => ?_) T d hd hT
  refine ⟨tree, htree, hrenders.yields ?_ (.root htree) ⟨T, []⟩⟩
  intro V b hb href
  have hV := hT.of_references href
  exact hbefore V b (hp.base_of_tame hV hb) hV

/-- What is put in the place of a type to which a tame one refers. -/
theorem Progress.Valid.base_yields (hp : p.Valid g) (hU : g.Tame U) :
    ∀ V b, p.base p.definitions V b → References g U V → TypeYields g V (.ok b) := by
  intro V b hb href
  have hV := hU.of_references href
  exact hp.yields hV (hp.base_of_tame hV hb)

/-! ### Conversions of tame types -/

/-- Tasks that succeed in the tree of a tame type. -/
theorem Performs.yields_ok {k : Nat} {raw : Json} {l : Location} {n : NodeShape}
    {done : List (Step × SchemaNode)} (hp : p.Valid g) (hl : Part.Stands g p (.node raw) l)
    (hU : g.Tame l.typeName) (hn : NodeShape.ofJson raw = .ok n)
    (h : Performs g o k l (n.tasks g l) p (.ok done) p') :
    YieldsAll g l (n.tasks g l) (.ok done) := by
  obtain ⟨hlead, hdone⟩ := h.leads hp (hl.tasks hn)
  obtain ⟨hparts, hfail⟩ := hdone _ rfl
  exact .of_parts (hparts.yields ((hlead.valid hp).base_yields hU) (hl.within.tasks hn) l) hfail

mutual

/-- **The conversion of a part of a tame type fails as the part by itself does**, unless
the levels run out. -/
theorem Converts.yields {k : Nat} {part : Part} {l : Location} {p p' : Progress}
    {r : Except ConvertError SchemaNode} (hp : p.Valid g) (hl : part.Stands g p l)
    (hU : g.Tame l.typeName) :
    Converts g o k part l p r p' → ∀ e, r = .error e → ¬ Exhausted r → Yields g part l (.error e)
  | .written => nofun
  | .tooDeep => fun _ _ hr => absurd ⟨_, _, rfl⟩ hr
  | .malformed hn => by
    rintro _ ⟨⟩ -
    exact .malformed hn
  | .failed hn htasks => by
    rintro _ ⟨⟩ hr
    exact .failed hn (htasks.yields hp (hl.tasks hn) hU _ rfl fun h => hr h.error)
  | .plain _ _ _ => nofun
  | .cycle _ _ _ _ _ => nofun
  | .cyclic hn htasks hT hmem _ => by
    -- the type in progress would lie on a cycle
    have hlead := (htasks.leads hp (hl.tasks hn)).1
    have hback := (hlead.valid hp).reaches_current (hl.of_leads hlead).current hmem
    exact absurd (TransGen.head' (hl.references hn hT) hback) (hU _ .refl)
  | .inlined _ _ _ _ _ => nofun
  | .lost hn htasks hT hmem hbase => by
    rintro _ ⟨⟩ hr
    have hlead := (htasks.leads hp (hl.tasks hn)).1
    have hl₁ := hl.of_leads hlead
    have href := hl.references hn hT
    obtain ⟨tree, htree, he⟩ := hbase.yields (hlead.valid hp)
      (NodeShape.declared?_eq_some_iff.mp hT).2 hmem
      (fun V hV => hl₁.current_references hn hT hV) (hU.of_references href) _ rfl hr
    exact .derived hn (htasks.yields_ok hp hl hU hn) hT htree he

theorem Performs.yields {k : Nat} {l : Location} {ts : List Task} {p p' : Progress}
    {r : Except ConvertError (List (Step × SchemaNode))} (hp : p.Valid g)
    (hl : ∀ step part, (step, part) ∈ ts.filterMap Task.part? →
      part.Stands g p (l.descend step.keys))
    (hU : g.Tame l.typeName) :
    Performs g o k l ts p r p' → ∀ e, r = .error e → ¬ Exhausted r → YieldsAll g l ts (.error e)
  | .nil => nofun
  | @Performs.report _ _ _ _ event _ _ _ _ hts => fun e he hr =>
    .report (hts.yields (hp.emit event) (Part.Stands.after_report hl) hU e he hr)
  | .fail => by
    rintro _ ⟨⟩ -
    exact .fail
  | .stop hn => by
    rintro _ ⟨⟩ hr
    exact .stop (hn.yields hp (hl _ _ List.mem_cons_self) hU _ rfl fun h => hr h.error)
  | @Performs.later _ _ _ _ step _ _ _ _ _ _ _ hn hts => by
    rintro _ ⟨⟩ hr
    -- the part before the failure is rendered from what is done behind it
    have hpart := hl _ _ List.mem_cons_self
    obtain ⟨hlead, hrenders⟩ := hn.leads hp hpart
    have hvalid := hlead.valid hp
    have hfirst := (hrenders _ rfl).yields (hvalid.base_yields hU) hpart.within
      (l.descend step.keys)
    have hrest := hts.yields hvalid (Part.Stands.after_part hl hlead) hU _ rfl hr
    have h := YieldsAll.convert hfirst hrest
    exact h
  | .convert _ _ => nofun

theorem Completes.yields {k : Nat} {T : String} {p p' : Progress}
    {r : Except ConvertError SchemaNode} (hp : p.Valid g) (hdeclared : T ∈ g.names)
    (hmem : T ∉ p.inProgress) (hU : ∀ U, p.current? = some U → References g U T)
    (hT : g.Tame T) :
    Completes g o k T p r p' → ∀ e, r = .error e → ¬ Exhausted r → TypeYields g T (.error e)
  | .known _ => nofun
  | .undeclared _ htree => by
    have hsome := (g.tree?_isSome_iff T).mpr hdeclared
    simp [htree] at hsome
  | .defined _ _ _ => nofun
  | .abandoned hdef htree hn => by
    rintro _ ⟨⟩ hr
    have henter : Advances g o p (p.enter T) := .enter htree hdef hmem hU
    exact ⟨_, htree, hn.yields (henter.valid hp) (.root htree hmem) hT _ rfl hr⟩

end

/-! ### The end of a run -/

section

variable (hlimit : o.Suffice g) (hT : g.Tame T)
include hT

theorem definition_yields {d : SchemaNode} (hd : (converted g o).1.definition? T = some d) :
    TypeYields g T (.ok d) :=
  idle_converted.valid.yields hT hd

include hlimit

theorem failure_yields {e : ConvertError} (he : ⟨T, e⟩ ∈ (normalize g o).failures) :
    TypeYields g T (.error e) := by
  obtain ⟨hname, p, hp, hcall⟩ := exists_call_of_failure he
  refine (call_completes p T).yields hp.valid hname hp.notMem hp.references hT e hcall ?_
  rw [hcall]
  rintro ⟨l, limit, hdeep⟩
  exact hlimit _ he l limit (Except.error.inj hdeep)

/-- A tame type is done with what its tree gives, or has failed with it. -/
theorem defined_or_failed_of_tame (hname : T ∈ g.names) :
    (∃ d, (converted g o).1.definition? T = some d ∧ TypeYields g T (.ok d)) ∨
      ∃ e, ⟨T, e⟩ ∈ (normalize g o).failures ∧ TypeYields g T (.error e) := by
  rcases defined_or_failed (o := o) hname with hdone | hfailed
  · obtain ⟨d, hd⟩ := Members.exists_get?_of_mem_keys hdone
    exact .inl ⟨d, hd, definition_yields hT hd⟩
  · obtain ⟨⟨V, e⟩, he, rfl⟩ := List.mem_map.mp hfailed
    exact .inr ⟨e, he, failure_yields hlimit hT he⟩

/-- It is done with a schema if and only if its tree gives that. -/
theorem definition?_iff_yields {d : SchemaNode} :
    (converted g o).1.definition? T = some d ↔ TypeYields g T (.ok d) := by
  refine ⟨definition_yields hT, ?_⟩
  intro hd
  have hname : T ∈ g.names := by
    obtain ⟨tree, htree, -⟩ := hd
    exact (g.tree?_isSome_iff T).mp (by simp [htree])
  rcases defined_or_failed_of_tame hlimit hT hname with ⟨d', hd', h⟩ | ⟨e, -, h⟩
  · obtain rfl := Except.ok.inj (h.unique hd)
    exact hd'
  · cases h.unique hd

/-- It has failed with an error if and only if its tree gives that. -/
theorem failure_iff_yields {e : ConvertError} :
    ⟨T, e⟩ ∈ (normalize g o).failures ↔ TypeYields g T (.error e) := by
  refine ⟨failure_yields hlimit hT, ?_⟩
  intro he
  have hname : T ∈ g.names := by
    obtain ⟨tree, htree, -⟩ := he
    exact (g.tree?_isSome_iff T).mp (by simp [htree])
  rcases defined_or_failed_of_tame hlimit hT hname with ⟨d, -, h⟩ | ⟨e', he', h⟩
  · cases h.unique he
  · obtain rfl := Except.error.inj (h.unique he)
    exact he'

end

/-- Where cycles are errors, only tame types are done. -/
theorem tame_of_defined (ho : o.onCycle = .error)
    (hT : T ∈ (converted g o).1.definitions.keys) : g.Tame T := by
  intro X hpath
  have hclean := clean_converted (g := g) (.inl ho)
  exact hclean.not_cyclic (hclean.defined_of_reaches hT hpath)

/-- The options under another policy. -/
def Options.under (o : Options) (policy : CyclePolicy) : Options :=
  { o with onCycle := policy }

/-- **The policies for cycles agree away from cycles.**  If no type fails for want of
levels, whatever is done where cycles are errors is done with the same schema where
references are written.  A type that leads to no cycle is done under both policies,
with the same schema, or fails under both, with the same error. -/
theorem policies_agree (g : TypeGraph) (o : Options) (hlimit : ∀ policy, (o.under policy).Suffice g) :
    (∀ T d, (converted g (o.under .error)).1.definition? T = some d →
      (converted g (o.under .reference)).1.definition? T = some d) ∧
    ∀ T, g.Tame T →
      (∀ d, (converted g (o.under .reference)).1.definition? T = some d →
        (converted g (o.under .error)).1.definition? T = some d) ∧
      ∀ e, ⟨T, e⟩ ∈ (normalize g (o.under .error)).failures ↔
        ⟨T, e⟩ ∈ (normalize g (o.under .reference)).failures := by
  constructor
  · intro T d hd
    have hT : g.Tame T := tame_of_defined rfl (Members.mem_keys_of_get? hd)
    rw [definition?_iff_yields (hlimit .reference) hT]
    exact definition_yields hT hd
  · intro T hT
    constructor
    · intro d hd
      rw [definition?_iff_yields (hlimit .error) hT]
      exact definition_yields hT hd
    · intro e
      rw [failure_iff_yields (hlimit .error) hT, failure_iff_yields (hlimit .reference) hT]

/-- A cycle of two types, a type to which one of them refers, a malformed one, and one that is
on no cycle and refers to that. -/
def partedGraph : TypeGraph :=
  .ofList
    [("A", .ofProperties [("b", .ofType (.str "B"))]),
      ("B", .ofProperties [("a", .ofType (.str "A")), ("c", .ofType (.str "C"))]),
      ("C", .ofType (.str "string")), ("D", .ofType (.num (.whole 7))),
      ("E", .ofProperties [("c", .ofType (.str "C")), ("d", .ofType (.str "D"))])]

/-- The cycle fails under one policy only, the others agree. -/
theorem policies_agree_parted :
    (normalize partedGraph (Options.under {} .reference)).failed = ["D", "E"] ∧
      (normalize partedGraph (Options.under {} .error)).failed = ["A", "B", "D", "E"] ∧
      (converted partedGraph (Options.under {} .reference)).1.definition? "C"
        = some (.ofType "string") ∧
      ∀ e, ⟨"E", e⟩ ∈ (normalize partedGraph (Options.under {} .error)).failures ↔
        ⟨"E", e⟩ ∈ (normalize partedGraph (Options.under {} .reference)).failures := by
  have hlimit : ∀ policy, (Options.under {} policy).Suffice partedGraph :=
    fun policy => Options.suffice_of_levels (by cases policy <;> decide)
  have hC : partedGraph.Tame "C" :=
    TypeGraph.tame_of_forall fun V hV => nomatch TypeGraph.mem_targets_iff.mpr hV
  have hD : partedGraph.Tame "D" :=
    TypeGraph.tame_of_forall fun V hV => nomatch TypeGraph.mem_targets_iff.mpr hV
  have hE : partedGraph.Tame "E" := by
    apply TypeGraph.tame_of_forall
    intro V hV
    have htargets : partedGraph.targets "E" = ["C", "D"] := by decide
    have hmem := TypeGraph.mem_targets_iff.mpr hV
    rw [htargets] at hmem
    simp only [List.mem_cons, List.not_mem_nil, or_false] at hmem
    rcases hmem with rfl | rfl
    · exact hC
    · exact hD
  have hlax : (normalize partedGraph (Options.under {} .reference)).failed = ["D", "E"] := by
    decide +kernel
  have hstrict : (normalize partedGraph (Options.under {} .error)).failed = ["A", "B", "D", "E"] :=
    rfl
  have hdone : (converted partedGraph (Options.under {} .error)).1.definition? "C"
      = some (.ofType "string") := rfl
  have h := policies_agree partedGraph {} hlimit
  exact ⟨hlax, hstrict, h.1 "C" _ hdone, (h.2 "E" hE).2⟩

end RamlSchema
