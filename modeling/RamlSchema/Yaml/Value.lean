/-
RamlSchema/Yaml/Value.lean

The values that YAML documents hold.

Mappings keep the order of their entries, and their keys are values of any
kind.  `same` is the equality by which a mapping's keys are distinct: numbers of
the two kinds are never equal, the order of a mapping's entries does not count,
and a number that is none equals itself.
-/
import RamlSchema.Json.Basic

namespace RamlSchema.Yaml

/-- A YAML value. -/
inductive Value where
  | null
  | bool (b : Bool)
  | num (n : Number)
  | str (s : String)
  | seq (items : List Value)
  | map (entries : List (Value × Value))
  /-- A value with a local tag, whose name is without its mark. -/
  | tagged (tag : String) (content : Value)
deriving Inhabited

namespace Value

/-- Equality of numbers, in which a number that is none equals itself. -/
def sameNumber : Number → Number → Bool
  | .double x, .double y => x == y || (x.isNaN && y.isNaN)
  | m, n => m.same n

mutual

/-- Equality that disregards the order of entries. -/
def same : Value → Value → Bool
  | .null, .null => true
  | .bool a, .bool b => a == b
  | .num m, .num n => sameNumber m n
  | .str s, .str t => s == t
  | .seq xs, .seq ys => sameItems xs ys
  | .map es, .map fs => es.length == fs.length && sameEntries es fs
  | .tagged s v, .tagged t w => s == t && v.same w
  | _, _ => false

/-- Equality of items, one by one. -/
def sameItems : List Value → List Value → Bool
  | [], [] => true
  | x :: xs, y :: ys => x.same y && sameItems xs ys
  | _, _ => false

/-- Whether each of the entries on the left has an equal one on the right. -/
def sameEntries : List (Value × Value) → List (Value × Value) → Bool
  | [], _ => true
  | (k, v) :: es, fs => hasEntry k v fs && sameEntries es fs

/-- Whether an entry with the key is among the given ones, with an equal
value. -/
def hasEntry (k v : Value) : List (Value × Value) → Bool
  | [] => false
  | (k', v') :: fs => (k.same k' && v.same v') || hasEntry k v fs

end

/-- The value that a mapping has for a key that is a string. -/
def entry? (name : String) : List (Value × Value) → Option Value
  | [] => none
  | (.str s, v) :: es => if s = name then some v else entry? name es
  | _ :: es => entry? name es

end Value

end RamlSchema.Yaml
