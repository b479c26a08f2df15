/-
RamlSchema/Json/Basic.lean

JSON values.

Numbers are of two kinds that are never equal: whole numbers, exact, and
doubles.  The members of an object stand in order of insertion.  `same` is
equality as the format means it: the order of an object's members does not
count, that of an array's items does, and doubles compare as doubles, so that
the two zeros are equal.  `WellFormed` says that no object, at any depth,
repeats a key; everything that is read from a text is well formed.
-/
import RamlSchema.Members

namespace RamlSchema

/-- A JSON number. -/
inductive Number where
  | whole (n : Int)
  | double (x : Float)
deriving DecidableEq

/-- Equality of numbers: whole numbers exactly, doubles as doubles. -/
def Number.same : Number → Number → Bool
  | .whole m, .whole n => m == n
  | .double x, .double y => x == y
  | _, _ => false

/-- A JSON value. -/
inductive Json where
  | null
  | bool (b : Bool)
  | num (n : Number)
  | str (s : String)
  | arr (items : List Json)
  | obj (members : List (String × Json))
deriving Inhabited

/-- The kinds of JSON values. -/
inductive Json.Kind where
  | null
  | boolean
  | number
  | string
  | array
  | mapping
deriving DecidableEq, Repr

/-- A kind as messages name it. -/
def Json.Kind.phrase : Json.Kind → String
  | .null => "null"
  | .boolean => "a boolean"
  | .number => "a number"
  | .string => "a string"
  | .array => "an array"
  | .mapping => "a mapping"

namespace Json

/-! ### Looking inside -/

/-- The text, if the value is a string. -/
def str? : Json → Option String
  | .str s => some s
  | _ => none

/-- The truth value, if the value is one. -/
def bool? : Json → Option Bool
  | .bool b => some b
  | _ => none

/-- The members, if the value is an object. -/
def obj? : Json → Option (Members Json)
  | .obj ms => some ms
  | _ => none

/-- The value of a member, if the value is an object that has it. -/
def member? (j : Json) (k : String) : Option Json :=
  j.obj?.bind (Members.get? · k)

/-- The kind of a value. -/
def kind : Json → Kind
  | .null => .null
  | .bool _ => .boolean
  | .num _ => .number
  | .str _ => .string
  | .arr _ => .array
  | .obj _ => .mapping

/-! ### Equality -/

mutual

/-- Equality that disregards the order of members. -/
def same : Json → Json → Bool
  | .null, .null => true
  | .bool a, .bool b => a == b
  | .num m, .num n => m.same n
  | .str s, .str t => s == t
  | .arr xs, .arr ys => sameItems xs ys
  | .obj ms, .obj ns => ms.length == ns.length && sameMembers ms ns
  | _, _ => false

/-- Equality of items, one by one. -/
def sameItems : List Json → List Json → Bool
  | [], [] => true
  | x :: xs, y :: ys => x.same y && sameItems xs ys
  | _, _ => false

/-- Whether each of the members on the left has an equal one on the right. -/
def sameMembers : List (String × Json) → List (String × Json) → Bool
  | [], _ => true
  | (k, v) :: ms, ns =>
    (match Members.get? ns k with
      | some w => v.same w
      | none => false) && sameMembers ms ns

end

/-! ### Values without repeated keys -/

mutual

/-- No object in the value repeats a key. -/
def WellFormed : Json → Prop
  | .arr xs => WellFormedItems xs
  | .obj ms => (Members.keys ms).Nodup ∧ WellFormedMembers ms
  | _ => True

/-- No object in any of the items repeats a key. -/
def WellFormedItems : List Json → Prop
  | [] => True
  | x :: xs => x.WellFormed ∧ WellFormedItems xs

/-- No object in any of the members' values repeats a key. -/
def WellFormedMembers : List (String × Json) → Prop
  | [] => True
  | (_, v) :: ms => v.WellFormed ∧ WellFormedMembers ms

end

end Json

end RamlSchema
