/-
RamlSchema/Files/Tree.lean

A tree of files and directories in memory.

The tree is a list of places with what stands there; a place is the list of
names that lead to it from the root, and the root itself is always a directory.
A path is walked name by name, so that `a/../b` needs a directory `a`.

Saving puts a new file beside its target and then moves it over the target, so
a target is either as it was or complete.  A move that fails takes the new file
away again.
-/
import RamlSchema.Files.Disk
import RamlSchema.Files.Path

namespace RamlSchema

/-- A place in a tree: the names that lead to it from the root. -/
abbrev Place := List String

/-- What stands at a place. -/
inductive Entry where
  | file (content : ByteArray)
  | directory

instance : DecidableEq Entry
  | .directory, .directory => isTrue rfl
  | .directory, .file _ => isFalse nofun
  | .file _, .directory => isFalse nofun
  | .file a, .file b => decidable_of_iff (a.data = b.data) (by simp [ByteArray.ext_iff])

/-- A tree of files, and the directory that paths start at. -/
structure Tree where
  current : Place := []
  entries : List (Place × Entry) := []

/-- Why a path leads nowhere, or an entry cannot be made at its end. -/
inductive Obstacle where
  /-- A name on the way is missing. -/
  | missing
  /-- A file is on the way. -/
  | notDirectory
  /-- Something is there already. -/
  | occupied
  /-- No path may have this text. -/
  | illFormed
deriving DecidableEq, Repr

namespace Tree

/-! ### Entries -/

/-- What a list of entries has at a place. -/
def lookup : List (Place × Entry) → Place → Option Entry
  | [], _ => none
  | (q, e) :: es, p => if q = p then some e else lookup es p

/-- What stands at a place. -/
def get? (t : Tree) (p : Place) : Option Entry :=
  if p = [] then some .directory else lookup t.entries p

/-- The tree without what stands at a place. -/
def erase (t : Tree) (p : Place) : Tree :=
  { t with entries := t.entries.filter fun e => e.1 ≠ p }

/-- The tree with an entry at a place. -/
def put (t : Tree) (p : Place) (e : Entry) : Tree :=
  { t with entries := (p, e) :: (t.erase p).entries }

/-- The tree with an entry at a place, and directories on the way there. -/
def plant (t : Tree) (p : Place) (e : Entry) : Tree :=
  let way := (List.range p.length).map p.take
  (way.foldl (fun t q => if (t.get? q).isSome then t else t.put q .directory) t).put p e

theorem lookup_filter_ne (es : List (Place × Entry)) (p q : Place) :
    lookup (es.filter fun e => e.1 ≠ p) q = if q = p then none else lookup es q := by
  induction es with
  | nil => simp [lookup]
  | cons e es ih =>
    by_cases h : e.1 = p
    · by_cases hq : q = p
      · simpa [h, hq] using ih
      · have hpq : ¬ p = q := fun h' => hq h'.symm
        simpa [lookup, h, hq, hpq] using ih
    · by_cases hq : e.1 = q
      · subst hq
        simp [lookup, h]
      · simpa [lookup, h, hq] using ih

theorem get?_erase {p : Place} (hp : p ≠ []) (t : Tree) (q : Place) :
    (t.erase p).get? q = if q = p then none else t.get? q := by
  by_cases h : q = []
  · subst h
    simp [get?, hp.symm]
  · simp only [get?, erase, h, if_false, lookup_filter_ne]

theorem get?_put {p : Place} (hp : p ≠ []) (t : Tree) (e : Entry) (q : Place) :
    (t.put p e).get? q = if q = p then some e else t.get? q := by
  by_cases h : q = []
  · subst h
    simp [get?, hp.symm]
  · by_cases hq : q = p
    · subst hq
      simp [get?, put, lookup, h]
    · have hpq : ¬ p = q := fun h' => hq h'.symm
      simp only [get?, put, erase, lookup, h, hq, hpq, if_false, lookup_filter_ne]

/-! ### Paths -/

/-- How many bytes a name may have. -/
def nameLimit : Nat := 255

/-- A path has fewer bytes than this. -/
def pathLimit : Nat := 4096

/-- Whether a path may have this text. -/
def isUsable (path : String) : Bool :=
  path.utf8ByteSize < pathLimit && !path.toList.contains '\x00'

/-- Takes one step of a path from a place. -/
def step (t : Tree) (p : Place) (name : String) : Except Obstacle Place :=
  match t.get? p with
  | none => .error .missing
  | some (.file _) => .error .notDirectory
  | some .directory =>
    if name = "." then .ok p
    else if name = ".." then .ok p.dropLast
    else if nameLimit < name.utf8ByteSize then .error .illFormed
    else .ok (p ++ [name])

/-- Where a path starts. -/
def start (t : Tree) (path : String) : Place :=
  if Path.isAbsolute path then [] else t.current

/-- The place that a path leads to, whether or not something stands there. -/
def walk (t : Tree) (path : String) : Except Obstacle Place :=
  if !isUsable path then .error .illFormed
  else if path.isEmpty then .error .missing
  else (Path.names path).foldlM t.step (t.start path)

/-- What stands at the end of a path. -/
def find? (t : Tree) (path : String) : Option Entry :=
  match t.walk path with
  | .error _ => none
  | .ok p =>
    match t.get? p with
    | some (.file content) => if Path.endsInSlash path then none else some (.file content)
    | e => e

/-- The place of the directory at the end of a path. -/
def directoryAt? (t : Tree) (path : String) : Option Place :=
  match t.walk path with
  | .error _ => none
  | .ok p => if t.get? p = some .directory then some p else none

/-! ### Directories -/

/-- Makes the directory that `names` lead to from the place `p`. -/
def makeDirectory (t : Tree) (p : Place) (names : List String) : Except Obstacle Tree := do
  let q ← names.foldlM t.step p
  if (t.get? q).isSome then .error .occupied else return t.put q .directory

/-- Whether `names` lead from the place `p` to a directory. -/
def isDirectory (t : Tree) (p : Place) (names : List String) : Bool :=
  match names.foldlM t.step p with
  | .error _ => false
  | .ok q => t.get? q = some .directory

/-- The names of the directory above, all names in reverse order. -/
def above (back : List String) : List String :=
  (back.dropWhile (· = ".")).tail.dropWhile (· = ".")

theorem length_above_lt (name : String) (back : List String) :
    (above (name :: back)).length < (name :: back).length := by
  have h₁ : (above (name :: back)).length ≤ ((name :: back).dropWhile (· = ".")).tail.length :=
    (List.dropWhile_sublist _).length_le
  have h₂ : ((name :: back).dropWhile (· = ".")).length ≤ (name :: back).length :=
    (List.dropWhile_sublist _).length_le
  have h₃ : 0 < (name :: back).length := Nat.succ_pos _
  rw [List.length_tail] at h₁
  omega

/-- Makes the directory that names lead to from the place `p`, and those above
it.  The names are in reverse order.  What has been made stays, even when a
name further on cannot be made. -/
def makeDirectoriesAt (t : Tree) (p : Place) : List String → Bool × Tree
  | [] => (true, t)
  | name :: back =>
    let names := (name :: back).reverse
    match t.makeDirectory p names with
    | .ok t => (true, t)
    | .error .missing =>
      match t.makeDirectoriesAt p (above (name :: back)) with
      | (false, t) => (false, t)
      | (true, t) =>
        match t.makeDirectory p names with
        | .ok t => (true, t)
        | .error _ => (t.isDirectory p names, t)
    | .error _ => (t.isDirectory p names, t)
termination_by back => back.length
decreasing_by exact length_above_lt name back

/-- Makes the directory at the end of a path, and those above it. -/
def makeDirectories (t : Tree) (path : String) : Bool × Tree :=
  if isUsable path then t.makeDirectoriesAt (t.start path) (Path.names path).reverse
  else (false, t)

/-! ### Files -/

/-- The bytes at the end of a path. -/
def read (t : Tree) (path : String) : Except ReadFailure ByteArray :=
  match t.find? path with
  | none => .error .missing
  | some .directory => .error .directory
  | some (.file content) => .ok content

/-- A name that is longer than all names of the tree together, so that no entry
has it. -/
def freshName (t : Tree) : String :=
  String.ofList (".tmp".toList
    ++ List.replicate ((t.entries.flatMap Prod.fst).foldl (fun n name => n + name.length) 0) 'x')

/-- Moves the file at the place `p` to the end of a path, over a file that is
there. -/
def moveFile (t : Tree) (p : Place) (content : ByteArray) (path : String) :
    Except Obstacle Tree := do
  let q ← t.walk path
  if t.get? q = some .directory then .error .occupied
  else return (t.erase p).put q (.file content)

/-- Saves a file at the end of a path. -/
def save (t : Tree) (path : String) (content : ByteArray) : Except SaveFailure Unit × Tree :=
  match t.directoryAt? (Path.directory path) with
  | none => (.error .temporary, t)
  | some d =>
    let p := d ++ [t.freshName]
    match (t.put p (.file content)).moveFile p content path with
    | .ok t => (.ok (), t)
    | .error _ => (.error .replacement, (t.put p (.file content)).erase p)

end Tree

instance : Disk (StateM Tree) where
  read path := fun t => (t.read path, t)
  makeDirectories path := fun t => t.makeDirectories path
  save path content := fun t => t.save path content

end RamlSchema
