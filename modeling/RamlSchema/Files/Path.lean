/-
RamlSchema/Files/Path.lean

What the text of a path says.

A path is names with slashes between them.  Empty names count for nothing, so
`a//b/` has the names of `a/b`; a path that begins with a slash starts at the
root and any other at the current directory.  The step `.` stays where it is,
which is why the directory of a path, and the name of the file it leads to, are
found as if it were not there.
-/

namespace RamlSchema

namespace Path

/-- Whether a path starts at the root. -/
def isAbsolute (path : String) : Bool :=
  path.toList.head? = some '/'

/-- Whether a path says by its last character that it leads to a directory. -/
def endsInSlash (path : String) : Bool :=
  path.toList.getLast? = some '/'

/-! ### Names -/

/-- What stands between slashes, empty pieces included. -/
def splitSlashes : List Char → List (List Char)
  | [] => [[]]
  | '/' :: cs => [] :: splitSlashes cs
  | c :: cs =>
    match splitSlashes cs with
    | [] => [[c]]
    | p :: ps => (c :: p) :: ps

/-- The names that a path goes through. -/
def names (path : String) : List String :=
  ((splitSlashes path.toList).filter (· ≠ [])).map String.ofList

/-- The name of the file that a path leads to, unless it leads back or nowhere. -/
def fileName? (path : String) : Option String :=
  ((names path).filter (· ≠ ".")).getLast?.filter (· ≠ "..")

/-- What follows the last dot of a name, unless the dot comes first. -/
def extensionOf (name : String) : Option String :=
  let back := name.toList.reverse
  if 1 < (back.dropWhile (· ≠ '.')).length then
    some (String.ofList (back.takeWhile (· ≠ '.')).reverse)
  else none

/-- The extension of the file that a path leads to. -/
def extension? (path : String) : Option String :=
  (fileName? path).bind extensionOf

/-! ### Joining and parting -/

/-- The path of a file in a directory.  A name that starts at the root is a path
by itself. -/
def join (directory name : String) : String :=
  if isAbsolute name then name
  else if directory.isEmpty || endsInSlash directory then directory ++ name
  else directory ++ "/" ++ name

/-- A path in reverse order without the slashes and the steps `.` at its end. -/
def trimBack : List Char → List Char
  | '/' :: cs => trimBack cs
  | '.' :: '/' :: cs => trimBack cs
  | cs => cs

/-- The directory of a path that ends in a name. -/
def directory (path : String) : String :=
  let back := trimBack (path.toList.reverse.dropWhile (· ≠ '/'))
  if back.isEmpty then if isAbsolute path then "/" else "."
  else String.ofList back.reverse

end Path

end RamlSchema
