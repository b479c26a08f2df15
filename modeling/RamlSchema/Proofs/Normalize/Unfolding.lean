/-
RamlSchema/Proofs/Normalize/Unfolding.lean

What documents and declarations mean, as trees without references.

A document is unfolded by putting, in the place of each reference, the unfolded
document that it names, with the keywords beside the reference laid over it.  A
declaration is expanded by putting, in the place of each declared type, its
expanded declaration, with the keywords of the site laid over it.  On a cycle
neither comes to an end, so both are cut off at a depth: `Unfolds docs depth` and
`Expands g depth` relate a node to its tree of `depth` levels, below which
everything is left out.  At one level, a chain of references, or of types that
are nothing but other types, is followed as far as it goes.

Main results: a node has at most one tree of each depth (`Unfolds.unique`,
`Expands.unique`).
-/
import RamlSchema.Proofs.Normalize.References
import RamlSchema.Proofs.Normalize.Rendering
import RamlSchema.Proofs.Schema.Overlay

namespace RamlSchema

open SchemaNode

/-! ### The relations -/

/-- A node unfolds to another one, if the nodes right below it do as `below`
says. -/
inductive UnfoldsAt (docs : Members SchemaNode) (below : SchemaNode → SchemaNode → Prop) :
    SchemaNode → SchemaNode → Prop
  | plain {n m} : n.reference = none → n.Replaces below m → UnfoldsAt docs below n m
  | follow {n m T doc u} :
      n.reference = some (documentFileName T) → docs.get? T = some doc →
      UnfoldsAt docs below { doc with schema := none } u → n.Replaces below m →
      UnfoldsAt docs below n (u.overlay m)

/-- The tree of a node, to a depth, with documents in the place of references. -/
def Unfolds (docs : Members SchemaNode) : Nat → SchemaNode → SchemaNode → Prop
  | 0, _, t => t = {}
  | depth + 1, n, t => UnfoldsAt docs (Unfolds docs depth) n t

/-- A part expands to a node, if the parts right below it do as `below` says. -/
inductive ExpandsAt (g : TypeGraph) (below : Part → SchemaNode → Prop) : Part → SchemaNode → Prop
  | written {element} : ExpandsAt g below (.written element) (.ofType element)
  | plain {raw n done} :
      NodeShape.ofJson raw = .ok n → n.declared? g = none →
      List.Forall₂ (Labelled below) n.parts done →
      ExpandsAt g below (.node raw) (n.assemble done)
  | reference {raw n done T tree b} :
      NodeShape.ofJson raw = .ok n → n.declared? g = some T → g.tree? T = some tree →
      ExpandsAt g below (.node tree) b → List.Forall₂ (Labelled below) n.parts done →
      ExpandsAt g below (.node raw) (b.overlay (n.site done))

/-- The tree of a part, to a depth, with declarations in the place of their names. -/
def Expands (g : TypeGraph) : Nat → Part → SchemaNode → Prop
  | 0, _, t => t = {}
  | depth + 1, part, t => ExpandsAt g (Expands g depth) part t

/-! ### At most one tree -/

theorem rightUnique_labelled {κ α β : Type} {R : α → β → Prop} (h : Relator.RightUnique R) :
    Relator.RightUnique (Labelled (κ := κ) R) := by
  rintro p q q' ⟨hkey, hR⟩ ⟨hkey', hR'⟩
  exact Prod.ext (hkey.symm.trans hkey') (h hR hR')

theorem rightUnique_rel {α β : Type} {R : α → β → Prop} (h : Relator.RightUnique R) :
    Relator.RightUnique (Option.Rel R) := by
  intro a b c hb hc
  cases hb with
  | none => cases hc; rfl
  | some hb =>
    cases hc with
    | some hc => rw [h hb hc]

theorem SchemaNode.Replaces.unique {R : SchemaNode → SchemaNode → Prop}
    (hR : Relator.RightUnique R) {n m m' : SchemaNode} (h : n.Replaces R m)
    (h' : n.Replaces R m') : m = m' := by
  have hlist : Relator.RightUnique (List.Forall₂ (Labelled (κ := String) R)) :=
    fun _ _ _ => List.right_unique_forall₂' (rightUnique_labelled hR)
  have hproperties : m.properties = m'.properties :=
    rightUnique_rel hlist h.properties h'.properties
  have hitems : m.items = m'.items := rightUnique_rel hR h.items h'.items
  rw [h.rest, h'.rest, hproperties, hitems]

theorem UnfoldsAt.unique {docs : Members SchemaNode} {below : SchemaNode → SchemaNode → Prop}
    (hbelow : Relator.RightUnique below) {n t t' : SchemaNode} (h : UnfoldsAt docs below n t)
    (h' : UnfoldsAt docs below n t') : t = t' := by
  induction h generalizing t' with
  | plain hnone hm =>
    -- a node with a reference follows it, and one without does not
    cases h' with
    | plain _ hm' => exact hm.unique hbelow hm'
    | follow href _ _ _ => exact nomatch hnone.symm.trans href
  | follow href hdoc _ hm ih =>
    cases h' with
    | plain hnone _ => exact nomatch hnone.symm.trans href
    | follow href' hdoc' hu' hm' =>
      obtain rfl := documentFileName_injective (Option.some.inj (href.symm.trans href'))
      rw [hdoc] at hdoc'
      cases hdoc'
      rw [ih hu', hm.unique hbelow hm']

/-- A node has at most one tree of each depth. -/
theorem Unfolds.unique {docs : Members SchemaNode} (depth : Nat) :
    Relator.RightUnique (Unfolds docs depth) := by
  induction depth with
  | zero => exact fun n t t' h h' => h.trans h'.symm
  | succ depth ih => exact fun n t t' h h' => UnfoldsAt.unique ih h h'

theorem ExpandsAt.unique {g : TypeGraph} {below : Part → SchemaNode → Prop}
    (hbelow : Relator.RightUnique below) {part : Part} {t t' : SchemaNode}
    (h : ExpandsAt g below part t) (h' : ExpandsAt g below part t') : t = t' := by
  have hlist := @List.right_unique_forall₂' _ _ _ (rightUnique_labelled (κ := Step) hbelow)
  induction h generalizing t' with
  | written => cases h'; rfl
  | plain hn hT hdone =>
    cases h' with
    | plain hn' hT' hdone' =>
      rw [hn] at hn'
      cases hn'
      rw [hlist hdone hdone']
    | reference hn' hT' _ _ _ =>
      rw [hn] at hn'
      cases hn'
      rw [hT] at hT'
      cases hT'
  | reference hn hT htree _ hdone ih =>
    cases h' with
    | plain hn' hT' _ =>
      rw [hn] at hn'
      cases hn'
      rw [hT'] at hT
      cases hT
    | reference hn' hT' htree' hb' hdone' =>
      rw [hn] at hn'
      cases hn'
      rw [hT] at hT'
      cases hT'
      rw [htree] at htree'
      cases htree'
      rw [ih hb', hlist hdone hdone']

/-- A part has at most one tree of each depth. -/
theorem Expands.unique {g : TypeGraph} (depth : Nat) : Relator.RightUnique (Expands g depth) := by
  induction depth with
  | zero => exact fun part t t' h h' => h.trans h'.symm
  | succ depth ih => exact fun part t t' h h' => ExpandsAt.unique ih h h'

end RamlSchema
