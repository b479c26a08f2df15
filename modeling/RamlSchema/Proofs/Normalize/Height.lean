/-
RamlSchema/Proofs/Normalize/Height.lean

How high the tree of a type is.

The height is read off the JSON of the tree alone: a step to a property or to an
item is a level, and so is every pair of brackets in a type expression, since a
conversion takes the suffixes of an array off one by one and goes a level further
down each time.

Main result: `Part.height_lt`, by which what stands right below a node is less
high, be it a node of the tree or one that is made up for a type expression.
-/
import RamlSchema.Proofs.Normalize.References
import RamlSchema.Proofs.TypeExpr

namespace RamlSchema

/-! ### Heights -/

namespace Json

mutual

/-- The height of a value that stands for a type: a text is an expression, a list
begins with one, and an object is a node. -/
def height : Json → Nat
  | .str s => TypeExpr.bracketPairs s.toList
  | .arr (.str s :: _) => TypeExpr.bracketPairs s.toList
  | .obj ms => heightMembers ms
  | _ => 0

/-- The height that the members of a node give it. -/
def heightMembers : List (String × Json) → Nat
  | [] => 0
  | (k, v) :: ms =>
    max
      (if k = "properties" then heightProperties v
        else if k = "items" then v.height + 1
        else if k = "type" then v.height
        else 0)
      (heightMembers ms)

/-- The height that properties give a node. -/
def heightProperties : Json → Nat
  | .obj ps => heightEach ps
  | _ => 0

/-- The height that each of some properties gives a node. -/
def heightEach : List (String × Json) → Nat
  | [] => 0
  | (_, v) :: ps => max (v.height + 1) (heightEach ps)

end

end Json

/-- The height of a part. -/
def Part.height : Part → Nat
  | .node raw => raw.height
  | .written _ => 0

namespace Json

variable {ms ps : Members Json} {k name : String} {v : Json}

theorem le_heightMembers (h : (k, v) ∈ ms) :
    (if k = "properties" then heightProperties v
      else if k = "items" then v.height + 1
      else if k = "type" then v.height
      else 0) ≤ heightMembers ms := by
  induction ms with
  | nil => cases h
  | cons m ms ih =>
    rw [heightMembers]
    rcases List.mem_cons.mp h with rfl | h
    · exact Nat.le_max_left _ _
    · exact (ih h).trans (Nat.le_max_right _ _)

theorem lt_heightEach (h : (name, v) ∈ ps) : v.height < heightEach ps := by
  induction ps with
  | nil => cases h
  | cons p ps ih =>
    rw [heightEach]
    rcases List.mem_cons.mp h with rfl | h
    · exact Nat.lt_of_succ_le (Nat.le_max_left _ _)
    · exact (ih h).trans_le (Nat.le_max_right _ _)

theorem height_type_le (h : ("type", v) ∈ ms) : v.height ≤ (obj ms).height := by
  simpa [height] using le_heightMembers h

theorem height_items_lt (h : ("items", v) ∈ ms) : v.height < (obj ms).height := by
  have hle : v.height + 1 ≤ heightMembers ms := le_heightMembers h
  rw [height]
  exact hle

theorem height_property_lt (h : ("properties", obj ps) ∈ ms) (hv : (name, v) ∈ ps) :
    v.height < (obj ms).height := by
  have hps : heightEach ps ≤ (obj ms).height := by
    simpa [height, heightProperties] using le_heightMembers h
  exact (lt_heightEach hv).trans_le hps

/-- A node that is nothing but a type is as high as the type. -/
theorem height_ofType (type : Json) : (obj [("type", type)]).height = type.height := by
  simp [height, heightMembers]

end Json

/-! ### The type of a node -/

namespace NodeShape

variable {raw : Json} {n : NodeShape}

/-- A value of the `type` member that says `s`. -/
inductive Says (s : String) : Json → Prop
  | text : Says s (.str s)
  | candidate (js : List Json) : Says s (.arr (.str s :: js))

theorem Says.height {s : String} {j : Json} (h : Says s j) :
    j.height = TypeExpr.bracketPairs s.toList := by
  cases h <;> rfl

theorem nonblank_eq_ok {s text : String} (h : nonblank s = .ok text) : text = Text.trim s := by
  simp only [nonblank] at h
  split at h
  · cases h
  · exact (Except.ok.inj h).symm

theorem says_of_typeText {type : Option Json} {text : String}
    (h : typeText type = .ok (some text)) :
    ∃ s j, type = some j ∧ Says s j ∧ text = Text.trim s := by
  have htrim : ∀ s : String, (nonblank s).map some = .ok (some text) → text = Text.trim s := by
    intro s hs
    rcases hok : nonblank s with e | t
    · simp [hok, Except.map] at hs
    · obtain rfl : t = text := by simpa [hok, Except.map] using hs
      exact nonblank_eq_ok hok
  unfold typeText at h
  split at h
  case h_3 s => exact ⟨s, _, rfl, .text, htrim s h⟩
  case h_5 s js => exact ⟨s, _, rfl, .candidate js, htrim s h⟩
  all_goals cases h

/-- The type of a node is what its `type` member says, or `object` for want of
one. -/
theorem type_of_ofJson (h : ofJson raw = .ok n) {t : TypeExpr} (ht : n.type = some t) :
    t = .named "object" ∨ ∃ s j, n.members.get? "type" = some j ∧ Says s j ∧
      TypeExpr.parse? (Text.trim s) = some t := by
  rcases raw with - | b | x | s | js | ms
  case obj =>
    obtain ⟨ps, -, h⟩ := Except.bind_eq_ok_iff.mp h
    obtain ⟨text, htext, h⟩ := Except.bind_eq_ok_iff.mp h
    obtain ⟨type, htype, h⟩ := Except.bind_eq_ok_iff.mp h
    cases h
    obtain rfl : type = some t := ht
    rcases text with - | text
    · left
      rcases ps with - | ps
      · cases htype
      · have hobject : typeOf "object" = .ok (.named "object") := rfl
        simpa [hobject, eq_comm] using htype
    · right
      obtain ⟨s, j, hj, hs, rfl⟩ := says_of_typeText htext
      have hparse : some <$> typeOf (Text.trim s) = Except.ok (some t) := htype
      unfold typeOf at hparse
      split at hparse
      · rename_i t' ht'
        exact ⟨s, j, hj, hs, by simpa [ht'] using hparse⟩
      · cases hparse
  all_goals cases h

end NodeShape

/-! ### Parts are less high -/

/-- The element of an array expression is less high than the node. -/
theorem NodeShape.bracketPairs_element_lt {raw : Json} {n : NodeShape}
    (hn : NodeShape.ofJson raw = .ok n) {element : String} (h : n.type = some (.arrayOf element)) :
    TypeExpr.bracketPairs element.toList < raw.height := by
  obtain ⟨rfl, -⟩ := NodeShape.of_ofJson hn
  obtain hobject | ⟨s, j, hj, hs, hparse⟩ := NodeShape.type_of_ofJson hn h
  · cases hobject
  · have helement := TypeExpr.bracketPairs_of_parse? hparse
    have htrim := TypeExpr.bracketPairs_le_of_infix (Text.infix_trimChars s.toList)
    have htype := Json.height_type_le (Members.mem_of_get? hj)
    rw [Text.trim, String.toList_ofList] at helement
    rw [hs.height] at htype
    omega

/-- **What stands right below a node is less high.** -/
theorem Part.height_lt {raw : Json} {n : NodeShape} (hn : NodeShape.ofJson raw = .ok n)
    {step : Step} {part : Part} (hpart : (step, part) ∈ n.parts) : part.height < raw.height := by
  obtain ⟨hraw, -⟩ := NodeShape.of_ofJson hn
  rcases List.mem_append.mp hpart with hitem | hproperty
  -- the part that gives the items: an element, an expression or a node
  · obtain ⟨hitemPart, -⟩ : n.itemPart? = some part ∧ Step.items = step := by
      simpa [NodeShape.itemParts] using hitem
    have hitems : ∀ items, n.items? = some items → items.height < raw.height := by
      intro items h
      rw [hraw]
      exact Json.height_items_lt (Members.mem_of_get? (NodeShape.items_of_items? h))
    unfold NodeShape.itemPart? Part.ofExpression at hitemPart
    split at hitemPart
    · rename_i element htype
      have helement := NodeShape.bracketPairs_element_lt hn htype
      split at hitemPart <;> cases hitemPart
      · exact (Nat.zero_le _).trans_lt helement
      · rwa [Part.height, Json.height_ofType]
    · split at hitemPart <;> cases hitemPart
      · rename_i h
        rw [Part.height, Json.height_ofType]
        exact hitems _ h
      · rename_i h
        rw [Part.height, Json.height_ofType]
        exact hitems _ h
      · rename_i h
        exact hitems _ h
  · obtain ⟨⟨name, v⟩, hp, hpv⟩ := List.mem_map.mp hproperty
    obtain ⟨-, rfl⟩ : _ ∧ Part.node v = part := by simpa using hpv
    rcases hps : n.properties with - | ps
    · simp [hps] at hp
    · rw [hps] at hp
      rw [hraw]
      exact Json.height_property_lt
        (Members.mem_of_get? (NodeShape.properties_of_ofJson hn hps)) hp

end RamlSchema
