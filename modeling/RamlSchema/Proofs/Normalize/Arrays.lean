/-
RamlSchema/Proofs/Normalize/Arrays.lean

The two notations for arrays.

An array is written as an expression `E[]`, or as a node of the type `array` that
declares its items.  Either way the node is converted by `visitArray`, with its items one
level deeper; the notations differ in what they hand down.  The element of an expression
is handed down without the blanks and the parentheses around it, declared items as they
stand.  Blanks make no difference there (`visit_trim`), parentheses do: only an
expression takes them off.

Main results: `array_shorthand`, by which the notations agree unless parentheses enclose
the element, and `nested_arrays`, by which every suffix of an expression is one level of
arrays.
-/
import RamlSchema.Proofs.Normalize.WellShaped

namespace RamlSchema

open RamlSchema.Convert TypeExpr

/-! ### Blanks around a text -/

namespace Text

variable {cs bs : List Char}

theorem trimChars_dropWhile : trimChars (cs.dropWhile isBlank) = trimChars cs := by
  rw [trimChars, List.dropWhile_idempotent isBlank cs]
  rfl

/-- Brackets at the end keep the blanks before them. -/
theorem trimChars_append_brackets :
    trimChars (cs ++ ['[', ']']) = cs.dropWhile isBlank ++ ['[', ']'] := by
  have hbrackets : isBlank '[' = false ∧ isBlank ']' = false := by decide
  rw [trimChars, List.dropWhile_append]
  split
  · rename_i hnil
    simp [List.isEmpty_iff.mp hnil, hbrackets]
  · simp [hbrackets]

theorem trimChars_append_blank (h : Blank bs) : trimChars (cs ++ bs) = trimChars cs := by
  have hdrop : bs.dropWhile isBlank = [] := List.dropWhile_eq_nil_iff.mpr h
  rw [trimChars, List.dropWhile_append]
  split
  · rename_i hnil
    simp [trimChars, hdrop, List.isEmpty_iff.mp hnil]
  · rw [List.reverse_append,
      List.dropWhile_append_of_pos fun c hc => h c (List.mem_reverse.mp hc)]
    rfl

end Text

/-- A text with a pair of parentheses around it. -/
def TypeExpr.Grouped (cs : List Char) : Prop :=
  ∃ inner, cs = '(' :: (inner ++ [')'])

instance : DecidablePred Grouped := fun cs =>
  decidable_of_iff ((group? cs).isSome = true) <| by
    simp only [Option.isSome_iff_exists, group?_eq_some_iff]
    rfl

/-- Without them there is nothing to take off. -/
theorem TypeExpr.ungroups_of_not_grouped {cs : List Char} (h : ¬ Grouped cs) : Ungroups cs cs :=
  .bare fun inner hcs => absurd ⟨inner, hcs⟩ h

theorem TypeExpr.not_grouped_append_brackets (cs : List Char) : ¬ Grouped (cs ++ ['[', ']']) := by
  rintro ⟨inner, h⟩
  have hlast := congrArg List.getLast? h
  rw [← List.cons_append, List.getLast?_append, List.getLast?_append] at hlast
  simp at hlast

/-! ### A node that has only a type -/

section

variable (g : TypeGraph) (o : Options) (deeper : Visitor)

/-- The last step of the conversion of a node: its type is looked up. -/
def settle (own : SchemaNode) (l : Location) : Convert SchemaNode :=
  match own.typeName? with
  | some name =>
    if g.contains name then do
      let base ← resolve g o deeper name l
      return base.overlay { own with type := none }
    else return own
  | none => return own

/-- The conversion of an expression that is all that a node says. -/
def visitExpression (t : TypeExpr) (l : Location) : Convert SchemaNode := do
  let (type, items) ← visitType deeper (some t) l
  settle g o deeper { type, items } l

end

variable {g : TypeGraph} {o : Options} {deeper : Visitor} {k : Nat} {l : Location}
  {E : String} {e : List Char}

theorem NodeShape.ofJson_ofType (s : String) :
    ofJson (.ofType (.str s)) =
      ((nonblank s).bind typeOf).map fun t => ⟨[("type", .str s)], none, some t⟩ := by
  have hproperties : Members.get? [("type", Json.str s)] "properties" = none := rfl
  have htype : Members.get? [("type", Json.str s)] "type" = some (.str s) := rfl
  simp only [Json.ofType, ofJson, hproperties, htype, propertiesOf, typeText]
  rcases nonblank s with cause | text
  · rfl
  · rcases h : typeOf text with cause | t <;>
      simp [h, bind, Except.bind, Except.map, pure, Except.pure]

theorem visitNode_eq_settle (raw : Json) :
    visitNode g o deeper raw l = (do
      let node ← Convert.require l (NodeShape.ofJson raw)
      let own ← visitOwn g deeper node l
      settle g o deeper own l) := rfl

/-- Of the text of such a node, only the expression counts. -/
theorem visitNode_ofType (s : String) :
    visitNode g o deeper (.ofType (.str s)) l = (do
      let t ← Convert.require l ((NodeShape.nonblank s).bind NodeShape.typeOf)
      visitExpression g o deeper t l) := by
  rw [visitNode_eq_settle, NodeShape.ofJson_ofType]
  rcases (NodeShape.nonblank s).bind NodeShape.typeOf with cause | t
  · rfl
  · simp only [Except.map, Convert.require, pure_bind, visitExpression, visitOwn, bind_assoc]
    refine bind_congr fun x => ?_
    rcases x with ⟨type, - | n⟩ <;>
      simp [NodeShape.items?, NodeShape.listed, NodeShape.reference?, NodeShape.facets,
        NodeShape.keywords, visitDeclared, Members.get?]

theorem visit_trim (s : String) :
    visit g o k (.ofType (.str (Text.trim s))) l = visit g o k (.ofType (.str s)) l := by
  have hnonblank : NodeShape.nonblank (Text.trim s) = NodeShape.nonblank s := by
    rw [NodeShape.nonblank, NodeShape.nonblank, Text.trim_trim]
  cases k with
  | zero => rfl
  | succ k =>
    simp only [visit]
    rw [visitNode_ofType, visitNode_ofType, hnonblank]

theorem settle_of_not_mem {own : SchemaNode} {name : String} (hname : own.typeName? = some name)
    (h : name ∉ g.names) : settle g o deeper own l = pure own := by
  have hcontains : g.contains name = false := by
    rwa [← g.contains_iff, Bool.not_eq_true] at h
  simp [settle, hname, hcontains]

/-! ### Both notations -/

/-- A node that declares an array. -/
def Json.arrayOf (items : Json) : Json :=
  .obj [("type", .str "array"), ("items", items)]

/-- An array, as a schema. -/
def SchemaNode.arrayOf (items : SchemaNode) : SchemaNode :=
  { type := some (.single "array"), items := some items }

/-- The conversion of an array that says nothing else. -/
def visitArray (g : TypeGraph) (o : Options) (deeper : Visitor) (items : Json) (l : Location) :
    Convert SchemaNode := do
  let n ← deeper items (l.descend ["items"])
  settle g o deeper (.arrayOf n) l

/-- An array expression without bars hands its element down. -/
theorem visit_shorthand (hbar : '|' ∉ E.toList) (he : Ungroups (Text.trimChars E.toList) e) :
    visit g o (k + 1) (.ofType (.str (E ++ "[]"))) l
      = visitArray g o (visit g o k) (.ofType (.str (String.ofList e))) l := by
  have hE : '|' ∉ E.toList.dropWhile Text.isBlank := fun h =>
    hbar ((List.dropWhile_suffix _).subset h)
  have htext : '|' ∉ E.toList.dropWhile Text.isBlank ++ ['[', ']'] := by simp [hE]
  have htrim : Text.trim (E ++ "[]")
      = String.ofList (E.toList.dropWhile Text.isBlank ++ ['[', ']']) := by
    rw [Text.trim, String.toList_append]
    exact congrArg String.ofList Text.trimChars_append_brackets
  have hnonblank : NodeShape.nonblank (E ++ "[]") = .ok (Text.trim (E ++ "[]")) :=
    NodeShape.nonblank_eq_ok_iff.mpr ⟨fun h => absurd (h '[' (by simp)) (by decide), rfl⟩
  have hparse : parse? (Text.trim (E ++ "[]")) = some (.arrayOf (String.ofList e)) := by
    rw [htrim]
    exact Reads.parse?_eq
      (.array (barless_of_not_mem htext) (by rwa [Text.trimChars_dropWhile]))
  -- the element has no bar either
  have helement : hasBar (String.ofList e) = false := by
    obtain h | ⟨element, h, hnone⟩ := of_parse?_of_hasBar (by simpa [hasBar, htrim] using hE) hparse
    · cases h
    · cases h
      exact hnone
  rw [visit, visitNode_ofType, hnonblank]
  simp [Except.bind, NodeShape.typeOf_eq_ok_iff.mpr hparse, Convert.require, visitExpression,
    visitType, visitElement, helement, visitArray, SchemaNode.arrayOf, Json.ofType]

/-- A declared array hands its items down as they stand. -/
theorem visit_arrayOf (E : String) :
    visit g o (k + 1) (.arrayOf (.str E)) l
      = visitArray g o (visit g o k) (.ofType (.str E)) l := by
  have hshape : NodeShape.ofJson (.arrayOf (.str E))
      = .ok ⟨[("type", .str "array"), ("items", .str E)], none, some (.named "array")⟩ := rfl
  rw [visit, visitNode_eq_settle, hshape]
  simp [Convert.require, visitOwn, visitType, visitItems, NodeShape.items?, NodeShape.listed,
    NodeShape.reference?, NodeShape.facets, NodeShape.keywords, visitDeclared, Members.get?,
    visitArray, SchemaNode.arrayOf, Json.ofType]

/-- What is enclosed in parentheses names no type that is declared without them. -/
theorem visit_grouped (hbar : '|' ∉ E.toList) (hgroup : Grouped (Text.trimChars E.toList))
    (hE : Text.trim E ∉ g.names) :
    visit g o (k + 1) (.ofType (.str E)) l = pure (.ofType (Text.trim E)) := by
  obtain ⟨inner, hinner⟩ := hgroup
  have hparse : parse? (Text.trim E) = some (.named (Text.trim E)) := by
    have htrim : '|' ∉ Text.trimChars E.toList := fun h =>
      hbar ((Text.infix_trimChars _).subset h)
    refine Reads.parse?_eq (.named (barless_of_not_mem htrim) fun element h => ?_)
    exact not_grouped_append_brackets element (h ▸ ⟨inner, hinner⟩)
  have hnonblank : NodeShape.nonblank E = .ok (Text.trim E) := by
    refine NodeShape.nonblank_eq_ok_iff.mpr ⟨fun h => ?_, rfl⟩
    rw [trimChars_eq_nil_iff.mpr h] at hinner
    cases hinner
  rw [visit, visitNode_ofType, hnonblank]
  simp only [Except.bind, NodeShape.typeOf_eq_ok_iff.mpr hparse, Convert.require, pure_bind,
    visitExpression, visitType]
  exact settle_of_not_mem rfl hE

/-- **An array expression agrees with declared items.**  In every state, at every place
and with however many levels left, an expression `E[]` without bars gives the result and
leaves the progress that a declared array gives and leaves whose items are the element
without a pair of parentheses around it; if there is none, whose items are `E`.  Declared
items keep their parentheses: unless some declared name has them too, nothing is looked
up, and they are left as they are written. -/
theorem array_shorthand (g : TypeGraph) (o : Options) (k : Nat) (l : Location) (p : Progress)
    {E : String} (hbar : '|' ∉ E.toList) :
    (∀ e, Ungroups (Text.trimChars E.toList) e →
      exec (visit g o k (.ofType (.str (E ++ "[]"))) l) p
        = exec (visit g o k (.arrayOf (.str (String.ofList e))) l) p) ∧
    (¬ Grouped (Text.trimChars E.toList) →
      exec (visit g o k (.ofType (.str (E ++ "[]"))) l) p
        = exec (visit g o k (.arrayOf (.str E)) l) p) ∧
    (Grouped (Text.trimChars E.toList) → Text.trim E ∉ g.names → "array" ∉ g.names → 2 ≤ k →
      exec (visit g o k (.arrayOf (.str E)) l) p = (.ok (.arrayOf (.ofType (Text.trim E))), p)) := by
  have hgeneral : ∀ e, Ungroups (Text.trimChars E.toList) e →
      visit g o k (.ofType (.str (E ++ "[]"))) l
        = visit g o k (.arrayOf (.str (String.ofList e))) l := by
    intro e he
    cases k with
    | zero => rfl
    | succ k => rw [visit_shorthand hbar he, visit_arrayOf]
  refine ⟨fun e he => by rw [hgeneral e he], fun hgroup => ?_, fun hgroup hE harray hk => ?_⟩
  · rw [hgeneral _ (ungroups_of_not_grouped hgroup)]
    cases k with
    | zero => rfl
    | succ k =>
      rw [visit_arrayOf, visit_arrayOf, visitArray, visitArray]
      exact congrArg (fun x : Convert SchemaNode => exec (x >>= _) p) (visit_trim E)
  · obtain ⟨k, rfl⟩ : ∃ m, k = m + 2 := ⟨k - 2, by omega⟩
    rw [visit_arrayOf, visitArray, visit_grouped hbar hgroup hE, pure_bind,
      settle_of_not_mem rfl harray, exec_pure]

/-- A list whose items are in parentheses, and their type. -/
def tagsGraph : TypeGraph :=
  .ofList [("Tags", .arrayOf (.str "(Tag)")), ("Tag", .ofType (.str "string"))]

theorem array_shorthand_tags :
    exec (visit tagsGraph {} 3 (.ofType (.str "(Tag)[]")) ⟨"Tags", []⟩) (.enter {} "Tags")
        = exec (visit tagsGraph {} 3 (.arrayOf (.str "Tag")) ⟨"Tags", []⟩) (.enter {} "Tags") ∧
      exec (visit tagsGraph {} 3 (.ofType (.str "Tag []")) ⟨"Tags", []⟩) (.enter {} "Tags")
        = exec (visit tagsGraph {} 3 (.arrayOf (.str "Tag ")) ⟨"Tags", []⟩) (.enter {} "Tags") ∧
      exec (visit tagsGraph {} 3 (.arrayOf (.str "(Tag)")) ⟨"Tags", []⟩) (.enter {} "Tags")
        = (.ok (.arrayOf (.ofType "(Tag)")), .enter {} "Tags") := by
  have hgrouped := array_shorthand tagsGraph {} 3 ⟨"Tags", []⟩ (.enter {} "Tags")
    (E := "(Tag)") (by decide)
  have hplain := array_shorthand tagsGraph {} 3 ⟨"Tags", []⟩ (.enter {} "Tags")
    (E := "Tag ") (by decide)
  exact ⟨hgrouped.1 "Tag".toList (ungroups_iff.mpr (by decide)), hplain.2.1 (by decide),
    hgrouped.2.2 (by decide) (by decide) (by decide) (by decide)⟩

/-- The two notations part where the element is in parentheses: the expression finds its
type, the declared items do not. -/
theorem array_shorthand_parts :
    '|' ∉ "(Tag)".toList ∧
      exec (visit tagsGraph {} 3 (.ofType (.str "(Tag)[]")) ⟨"Tags", []⟩) (.enter {} "Tags")
        ≠ exec (visit tagsGraph {} 3 (.arrayOf (.str "(Tag)")) ⟨"Tags", []⟩)
            (.enter {} "Tags") := by
  refine ⟨by decide, fun h => ?_⟩
  have hitems := congrArg
    (fun r => r.1.toOption.bind fun n => n.items.bind SchemaNode.typeName?) h
  exact absurd hitems (by decide)

/-! ### Suffixes -/

/-- An expression with suffixes behind it, each of them with a text before it. -/
def TypeExpr.suffixed (E : String) (before : List String) : String :=
  before.foldl (fun text b => text ++ b ++ "[]") E

/-- A suffix is one level of arrays. -/
theorem visit_suffix (harray : "array" ∉ g.names) (hbar : '|' ∉ E.toList)
    (hgroup : ¬ Grouped (Text.trimChars E.toList)) {b : String} (hb : Blank b.toList) :
    visit g o (k + 1) (.ofType (.str (E ++ b ++ "[]"))) l
      = SchemaNode.arrayOf <$> visit g o k (.ofType (.str E)) (l.descend ["items"]) := by
  have htrim : Text.trimChars (E ++ b).toList = Text.trimChars E.toList := by
    rw [String.toList_append, Text.trimChars_append_blank hb]
  have hbars : '|' ∉ (E ++ b).toList := by
    rw [String.toList_append, List.mem_append, not_or]
    exact ⟨hbar, fun h => absurd (hb '|' h) (by decide)⟩
  have hE : Ungroups (Text.trimChars (E ++ b).toList) (Text.trimChars E.toList) := by
    rw [htrim]
    exact ungroups_of_not_grouped hgroup
  have hitems := visit_trim (g := g) (o := o) (k := k) (l := l.descend ["items"]) E
  rw [Text.trim] at hitems
  rw [visit_shorthand hbars hE, visitArray, hitems, map_eq_pure_bind]
  exact bind_congr fun n => settle_of_not_mem rfl harray

theorem suffixed_append (E : String) (before behind : List String) :
    suffixed E (before ++ behind) = suffixed (suffixed E before) behind :=
  List.foldl_append

/-- Suffixes bring neither a bar nor parentheses around the text. -/
theorem suffixed_plain (hbar : '|' ∉ E.toList) (hgroup : ¬ Grouped (Text.trimChars E.toList))
    {blanks : List String} (hblanks : ∀ b ∈ blanks, Blank b.toList) :
    '|' ∉ (suffixed E blanks).toList ∧ ¬ Grouped (Text.trimChars (suffixed E blanks).toList) := by
  induction blanks using List.reverseRecOn with
  | nil => exact ⟨hbar, hgroup⟩
  | append_singleton blanks b ih =>
    obtain ⟨hbars, -⟩ := ih fun b' hb' => hblanks b' (List.mem_append_left _ hb')
    have hb : '|' ∉ b.toList := fun h => absurd (hblanks b (by simp) '|' h) (by decide)
    have hlast : suffixed E (blanks ++ [b]) = suffixed E blanks ++ b ++ "[]" :=
      suffixed_append E blanks [b]
    rw [hlast, String.toList_append]
    refine ⟨by simp [hbars, hb], ?_⟩
    rw [show "[]".toList = ['[', ']'] from rfl, Text.trimChars_append_brackets]
    exact not_grouped_append_brackets _

/-- As many suffixes are as many levels. -/
theorem visit_suffixed (harray : "array" ∉ g.names) (hbar : '|' ∉ E.toList)
    (hgroup : ¬ Grouped (Text.trimChars E.toList)) {blanks : List String}
    (hblanks : ∀ b ∈ blanks, Blank b.toList) :
    visit g o (blanks.length + k) (.ofType (.str (suffixed E blanks))) l
      = SchemaNode.arrayOf^[blanks.length] <$>
          visit g o k (.ofType (.str E)) (l.descend (List.replicate blanks.length "items")) := by
  -- from the last suffix, which is taken off first
  induction blanks using List.reverseRecOn generalizing l with
  | nil => simp [suffixed, Location.descend]
  | append_singleton blanks b ih =>
    have hbefore : ∀ b' ∈ blanks, Blank b'.toList := fun b' hb' =>
      hblanks b' (List.mem_append_left _ hb')
    obtain ⟨hbars, hgroups⟩ := suffixed_plain hbar hgroup hbefore
    have hlast : suffixed E (blanks ++ [b]) = suffixed E blanks ++ b ++ "[]" :=
      suffixed_append E blanks [b]
    have hplace : (l.descend ["items"]).descend (List.replicate blanks.length "items")
        = l.descend (List.replicate (blanks.length + 1) "items") := by
      simp [Location.descend, List.replicate_succ]
    rw [List.length_append, List.length_singleton, Nat.add_right_comm, hlast,
      visit_suffix harray hbars hgroups (hblanks b (by simp)), ih hbefore, hplace,
      Function.iterate_succ', comp_map]

/-- **Every suffix is one level of arrays.**  In every state and at every place, where
`array` is not declared, an expression with suffixes behind it gives that many arrays
around what the expression alone gives in the same state, that many steps further down and
with that many levels less, be it a node or an error; the progress behind it is the same.
Blanks before the suffixes make no difference.  With no more levels than suffixes the
expression itself is not reached. -/
theorem nested_arrays (g : TypeGraph) (o : Options) (k : Nat) (l : Location) (p : Progress)
    {E : String} {blanks : List String} (harray : "array" ∉ g.names) (hbar : '|' ∉ E.toList)
    (hgroup : ¬ Grouped (Text.trimChars E.toList)) (hblanks : ∀ b ∈ blanks, Blank b.toList) :
    exec (visit g o (blanks.length + k) (.ofType (.str (suffixed E blanks))) l) p
      = ((exec (visit g o k (.ofType (.str E))
            (l.descend (List.replicate blanks.length "items"))) p).1.map
          SchemaNode.arrayOf^[blanks.length],
        (exec (visit g o k (.ofType (.str E))
            (l.descend (List.replicate blanks.length "items"))) p).2) ∧
    ∀ j ≤ blanks.length,
      exec (visit g o j (.ofType (.str (suffixed E blanks))) l) p
        = (.error (.tooDeep (l.descend (List.replicate j "items")) o.maxDepth), p) := by
  refine ⟨by rw [visit_suffixed harray hbar hgroup hblanks, exec_map], fun j hj => ?_⟩
  -- the last `j` suffixes use the levels up
  obtain ⟨before, behind, rfl, rfl⟩ : ∃ before behind, blanks = before ++ behind ∧
      behind.length = j :=
    ⟨blanks.take (blanks.length - j), blanks.drop (blanks.length - j), by simp, by simp; omega⟩
  obtain ⟨hbars, hgroups⟩ := suffixed_plain hbar hgroup fun b hb =>
    hblanks b (List.mem_append_left _ hb)
  have hrest := visit_suffixed (o := o) (k := 0) (l := l) harray hbars hgroups fun b hb =>
    hblanks b (List.mem_append_right _ hb)
  rw [Nat.add_zero] at hrest
  rw [suffixed_append, hrest, exec_map]
  rfl

theorem nested_arrays_tag :
    "array" ∉ tagsGraph.names ∧ suffixed "Tag" ["", " ", "\u3000"] = "Tag[] []\u3000[]" ∧
      exec (visit tagsGraph {} 5 (.ofType (.str "Tag[] []\u3000[]")) ⟨"Tags", []⟩)
          (.enter {} "Tags")
        = ((exec (visit tagsGraph {} 2 (.ofType (.str "Tag"))
              ⟨"Tags", ["items", "items", "items"]⟩) (.enter {} "Tags")).1.map
            fun n => .arrayOf (.arrayOf (.arrayOf n)),
          (exec (visit tagsGraph {} 2 (.ofType (.str "Tag"))
              ⟨"Tags", ["items", "items", "items"]⟩) (.enter {} "Tags")).2) ∧
      exec (visit tagsGraph {} 2 (.ofType (.str "Tag[] []\u3000[]")) ⟨"Tags", []⟩)
          (.enter {} "Tags")
        = (.error (.tooDeep ⟨"Tags", ["items", "items"]⟩ 128), .enter {} "Tags") := by
  have hblanks : ∀ b ∈ ["", " ", "\u3000"], Blank b.toList := by decide
  have h := nested_arrays tagsGraph {} 2 ⟨"Tags", []⟩ (.enter {} "Tags") (E := "Tag")
    (by decide) (by decide) (by decide) hblanks
  exact ⟨by decide, by decide, h.1, h.2 2 (by decide)⟩

end RamlSchema
