/-
RamlSchema/Pointer.lean

Where a node stands: JSON pointers that start at a declared type.

A `Location` names a type and the steps that lead from the root of its tree to
a node, so `Person#/properties/pet/items` is the type `Person` with three
steps.  Only its text needs the pointer escapes: a tilde is written `~0` and a
slash `~1`, hence the slashes of a pointer are exactly those between its steps.
-/

namespace RamlSchema

namespace Pointer

/-- A character as it stands inside a step. -/
def escapeChar (c : Char) : List Char :=
  if c = '~' then ['~', '0'] else if c = '/' then ['~', '1'] else [c]

/-- The characters of a step, escaped. -/
def escapeChars (cs : List Char) : List Char :=
  cs.flatMap escapeChar

/-- A step as a pointer writes it. -/
def escape (step : String) : String :=
  String.ofList (escapeChars step.toList)

/-- Reads the characters of an escaped step back. -/
def unescapeChars : List Char → List Char
  | '~' :: '0' :: cs => '~' :: unescapeChars cs
  | '~' :: '1' :: cs => '/' :: unescapeChars cs
  | c :: cs => c :: unescapeChars cs
  | [] => []

/-- The pointer that leads on from `parent` by the given steps. -/
def append (parent : String) (steps : List String) : String :=
  steps.foldl (fun path step => path ++ "/" ++ escape step) parent

/-- The pointer to the root of a type's tree. -/
def root (typeName : String) : String :=
  typeName ++ "#"

theorem unescapeChars_escapeChar_append (c : Char) (cs : List Char) :
    unescapeChars (escapeChar c ++ cs) = c :: unescapeChars cs := by
  by_cases h : c = '~'
  · subst h; rfl
  · by_cases h' : c = '/'
    · subst h'; rfl
    · simp only [escapeChar, h, h', if_false, List.cons_append, List.nil_append]
      rw [unescapeChars] <;> simp_all

/-- Reading an escaped step back gives the step. -/
theorem unescapeChars_escapeChars (cs : List Char) : unescapeChars (escapeChars cs) = cs := by
  induction cs with
  | nil => rfl
  | cons c cs ih =>
    rw [escapeChars, List.flatMap_cons, unescapeChars_escapeChar_append]
    exact congrArg (c :: ·) ih

end Pointer

/-- A place in the tree of a declared type. -/
structure Location where
  typeName : String
  steps : List String := []
deriving DecidableEq, Repr

namespace Location

/-- The place that further steps lead to. -/
def descend (l : Location) (steps : List String) : Location :=
  { l with steps := l.steps ++ steps }

/-- The place as a pointer. -/
def text (l : Location) : String :=
  Pointer.append (Pointer.root l.typeName) l.steps

end Location

/-- The file that holds the document of a type. -/
def documentFileName (typeName : String) : String :=
  typeName ++ ".json"

end RamlSchema
