/-
RamlSchema/Proofs/Json/Spelling.lean

Texts of a JSON value.

A value may be written with blanks between its tokens wherever the grammar has room
for them (`Spells`).  The writer has two such spellings, the one without any blanks
and the one with a line for each part of a container.  What is read back is the value
with, in every object, each key in its first place and with its last value
(`collapse`), which is the value itself if no object repeats a key.

Main results: `spells_render` and `spells_renderPretty`; and `collapse_of_wellFormed`.
-/
import RamlSchema.Json.Reader
import RamlSchema.Json.Writer
import RamlSchema.Proofs.Members
import Mathlib.Algebra.Group.Int.Defs
import Mathlib.Data.List.Forall2

namespace RamlSchema.Json

/-! ### Measures of a value -/

mutual

/-- How deep containers nest in a value. -/
def depth : Json → Nat
  | .arr xs => depthItems xs + 1
  | .obj ms => depthMembers ms + 1
  | _ => 0

/-- How deep containers nest in items. -/
def depthItems : List Json → Nat
  | [] => 0
  | x :: xs => max x.depth (depthItems xs)

/-- How deep containers nest in the values of members. -/
def depthMembers : List (String × Json) → Nat
  | [] => 0
  | (_, v) :: ms => max v.depth (depthMembers ms)

end

mutual

/-- Every number in a value is an integer of sixty-four bits, signed or unsigned. -/
def Integral : Json → Prop
  | .num (.whole n) => -2 ^ 63 ≤ n ∧ n < 2 ^ 64
  | .num (.double _) => False
  | .arr xs => IntegralItems xs
  | .obj ms => IntegralMembers ms
  | _ => True

/-- Every number in the items is such an integer. -/
def IntegralItems : List Json → Prop
  | [] => True
  | x :: xs => x.Integral ∧ IntegralItems xs

/-- Every number in the values of the members is such an integer. -/
def IntegralMembers : List (String × Json) → Prop
  | [] => True
  | (_, v) :: ms => v.Integral ∧ IntegralMembers ms

end

mutual

/-- The value with, in every object, each key in its first place and with its last
value. -/
def collapse : Json → Json
  | .arr xs => .arr (collapseItems xs)
  | .obj ms => .obj (Members.ofList (collapseMembers ms))
  | j => j

/-- The items, collapsed. -/
def collapseItems : List Json → List Json
  | [] => []
  | x :: xs => x.collapse :: collapseItems xs

/-- The members with their values collapsed. -/
def collapseMembers : List (String × Json) → List (String × Json)
  | [] => []
  | (k, v) :: ms => (k, v.collapse) :: collapseMembers ms

end

theorem integralItems_iff {js : List Json} : IntegralItems js ↔ ∀ j ∈ js, j.Integral :=
  iff_forall_mem trivial fun _ _ => .rfl

theorem integralMembers_iff {ms : Members Json} :
    IntegralMembers ms ↔ ∀ m ∈ ms, m.2.Integral :=
  iff_forall_mem trivial fun _ _ => .rfl

theorem collapseMembers_eq (ms : Members Json) :
    collapseMembers ms = ms.map fun m => (m.1, m.2.collapse) := by
  induction ms with
  | nil => rfl
  | cons m ms ih => rw [collapseMembers, ih, List.map_cons]

mutual

/-- **A value in which no object repeats a key is read back as it is.** -/
theorem collapse_of_wellFormed (j : Json) (h : j.WellFormed) : j.collapse = j := by
  cases j with
  | arr xs => rw [collapse, collapseItems_of_wellFormed xs h]
  | obj ms => rw [collapse, collapseMembers_of_wellFormed ms h.2, Members.ofList_of_nodup h.1]
  | _ => rfl

theorem collapseItems_of_wellFormed (xs : List Json) (h : WellFormedItems xs) :
    collapseItems xs = xs := by
  cases xs with
  | nil => rfl
  | cons x xs =>
    rw [collapseItems, collapse_of_wellFormed x h.1, collapseItems_of_wellFormed xs h.2]

theorem collapseMembers_of_wellFormed (ms : Members Json) (h : WellFormedMembers ms) :
    collapseMembers ms = ms := by
  match ms with
  | [] => rfl
  | (k, v) :: ms =>
    rw [collapseMembers, collapse_of_wellFormed v h.1, collapseMembers_of_wellFormed ms h.2]

end

/-! ### Spellings -/

/-- Nothing but blanks. -/
def Blanks (p : List Char) : Prop :=
  ∀ c ∈ p, isJsonBlank c = true

mutual

/-- Texts of a value.  Leaves are written in one way, and blanks may stand anywhere
between tokens. -/
inductive Spells : Json → List Char → Prop
  | null : Spells .null "null".toList
  | bool (b : Bool) : Spells (.bool b) (Json.bool b).render
  | num (n : Number) : Spells (.num n) (renderNumber n)
  | str (s : String) : Spells (.str s) (renderString s)
  | emptyArr {p} : Blanks p → Spells (.arr []) ('[' :: (p ++ [']']))
  | arr {xs p t} : Blanks p → SpellsItems xs t → Spells (.arr xs) ('[' :: (p ++ t))
  | emptyObj {p} : Blanks p → Spells (.obj []) ('\x7b' :: (p ++ ['\x7d']))
  | obj {ms p t} : Blanks p → SpellsMembers ms t → Spells (.obj ms) ('\x7b' :: (p ++ t))

/-- Texts of items, one or more, from the first one up to the closing bracket. -/
inductive SpellsItems : List Json → List Char → Prop
  | last {x t q} : Spells x t → Blanks q → SpellsItems [x] (t ++ (q ++ [']']))
  | more {x t q p xs u} : Spells x t → Blanks q → Blanks p → SpellsItems xs u →
      SpellsItems (x :: xs) (t ++ (q ++ ',' :: (p ++ u)))

/-- Texts of members, one or more, from the first key up to the closing brace. -/
inductive SpellsMembers : List (String × Json) → List Char → Prop
  | last {k b a v t q} : Blanks b → Blanks a → Spells v t → Blanks q →
      SpellsMembers [(k, v)] (renderString k ++ (b ++ ':' :: (a ++ t)) ++ (q ++ ['\x7d']))
  | more {k b a v t q p ms u} : Blanks b → Blanks a → Spells v t → Blanks q → Blanks p →
      SpellsMembers ms u →
      SpellsMembers ((k, v) :: ms)
        (renderString k ++ (b ++ ':' :: (a ++ t)) ++ (q ++ ',' :: (p ++ u)))

end

/-! ### The two spellings of the writer -/

variable {p q : List Char}

theorem blanks_nil : Blanks [] :=
  fun _ h => nomatch h

theorem blanks_space : Blanks [' '] := by
  intro c hc
  rw [List.mem_singleton.mp hc]
  rfl

theorem blanks_lineStart (d : Nat) : Blanks (lineStart d) := by
  intro c hc
  rcases List.mem_cons.mp hc with rfl | hc
  · rfl
  · rw [List.eq_of_mem_replicate hc]
    rfl

/-- **Items set out one by one**, with blanks before each and before the bracket. -/
theorem spellsItems_commaSeparated {xs : List Json} {ts : List (List Char)}
    (h : List.Forall₂ Spells xs ts) (hxs : xs ≠ []) (hp : Blanks p) (hq : Blanks q) :
    ∃ t, commaSeparated (ts.map (p ++ ·)) ++ (q ++ [']']) = p ++ t ∧ SpellsItems xs t := by
  induction h with
  | nil => exact absurd rfl hxs
  | cons hx hrest ih =>
    cases hrest with
    | nil => exact ⟨_, by simp [commaSeparated], .last hx hq⟩
    | cons hy hrest =>
      obtain ⟨u, hu, hspells⟩ := ih (List.cons_ne_nil _ _)
      refine ⟨_, ?_, .more hx blanks_nil hp hspells⟩
      rw [← hu]
      simp [commaSeparated]

/-- The text of a member, with blanks behind the colon. -/
def SpellsMember (a : List Char) (m : String × Json) (t : List Char) : Prop :=
  ∃ u, Spells m.2 u ∧ t = renderString m.1 ++ ':' :: (a ++ u)

/-- **Members set out one by one**, with blanks before each and before the brace. -/
theorem spellsMembers_commaSeparated {ms : List (String × Json)} {ts : List (List Char)}
    {a : List Char} (h : List.Forall₂ (SpellsMember a) ms ts) (hms : ms ≠ []) (ha : Blanks a)
    (hp : Blanks p) (hq : Blanks q) :
    ∃ t, commaSeparated (ts.map (p ++ ·)) ++ (q ++ ['\x7d']) = p ++ t ∧ SpellsMembers ms t := by
  induction h with
  | nil => exact absurd rfl hms
  | cons hm hrest ih =>
    obtain ⟨u, hu, rfl⟩ := hm
    cases hrest with
    | nil => exact ⟨_, by simp [commaSeparated], .last blanks_nil ha hu hq⟩
    | cons hm' hrest =>
      obtain ⟨t, ht, hspells⟩ := ih (List.cons_ne_nil _ _)
      refine ⟨_, ?_, .more blanks_nil ha hu blanks_nil hp hspells⟩
      rw [← ht]
      simp [commaSeparated]

mutual

/-- **The text without blanks.** -/
theorem spells_render (j : Json) : Spells j j.render := by
  match j with
  | .null => exact .null
  | .bool b => exact .bool b
  | .num n => exact .num n
  | .str s => exact .str s
  | .arr [] => exact .emptyArr blanks_nil
  | .arr (x :: xs) =>
    obtain ⟨t, ht, h⟩ := spellsItems_commaSeparated (spells_renderItems (x :: xs))
      (List.cons_ne_nil x xs) blanks_nil blanks_nil
    have h := Spells.arr blanks_nil h
    rw [List.nil_append, ← List.nil_append t, ← ht] at h
    simpa [render] using h
  | .obj [] => exact .emptyObj blanks_nil
  | .obj (m :: ms) =>
    obtain ⟨t, ht, h⟩ := spellsMembers_commaSeparated (spells_renderMembers (m :: ms))
      (List.cons_ne_nil m ms) blanks_nil blanks_nil blanks_nil
    have h := Spells.obj blanks_nil h
    rw [List.nil_append, ← List.nil_append t, ← ht] at h
    simpa [render] using h

theorem spells_renderItems (xs : List Json) : List.Forall₂ Spells xs (renderItems xs) := by
  match xs with
  | [] => exact .nil
  | x :: xs => exact .cons (spells_render x) (spells_renderItems xs)

theorem spells_renderMembers (ms : List (String × Json)) :
    List.Forall₂ (SpellsMember []) ms (renderMembers ms) := by
  match ms with
  | [] => exact .nil
  | (k, v) :: ms => exact .cons ⟨_, spells_render v, rfl⟩ (spells_renderMembers ms)

end

mutual

/-- **The text with a line for each part.** -/
theorem spells_renderPretty (d : Nat) (j : Json) : Spells j (j.renderPretty d) := by
  match j with
  | .null => exact .null
  | .bool b => exact .bool b
  | .num n => exact .num n
  | .str s => exact .str s
  | .arr [] => exact .emptyArr blanks_nil
  | .arr (x :: xs) =>
    obtain ⟨t, ht, h⟩ := spellsItems_commaSeparated (spells_renderPrettyItems (d + 1) (x :: xs))
      (List.cons_ne_nil x xs) (blanks_lineStart (d + 1)) (blanks_lineStart d)
    have h := Spells.arr (blanks_lineStart (d + 1)) h
    rw [← ht] at h
    simpa [renderPretty, bracketed, renderPrettyItems] using h
  | .obj [] => exact .emptyObj blanks_nil
  | .obj (m :: ms) =>
    obtain ⟨t, ht, h⟩ := spellsMembers_commaSeparated (spells_renderPrettyMembers (d + 1) (m :: ms))
      (List.cons_ne_nil m ms) blanks_space (blanks_lineStart (d + 1)) (blanks_lineStart d)
    have h := Spells.obj (blanks_lineStart (d + 1)) h
    rw [← ht] at h
    simpa [renderPretty, bracketed, renderPrettyMembers] using h

theorem spells_renderPrettyItems (d : Nat) (xs : List Json) :
    List.Forall₂ Spells xs (renderPrettyItems d xs) := by
  match xs with
  | [] => exact .nil
  | x :: xs => exact .cons (spells_renderPretty d x) (spells_renderPrettyItems d xs)

theorem spells_renderPrettyMembers (d : Nat) (ms : List (String × Json)) :
    List.Forall₂ (SpellsMember [' ']) ms (renderPrettyMembers d ms) := by
  match ms with
  | [] => exact .nil
  | (k, v) :: ms =>
    exact .cons ⟨_, spells_renderPretty d v, rfl⟩ (spells_renderPrettyMembers d ms)

end

end RamlSchema.Json
