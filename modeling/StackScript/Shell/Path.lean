/-!
# File names

A file is named by a path, the names of folders and of the file with slashes between them. The names `.` and
`..` are not names of files: they stand for a folder itself and for the one above it. The *extension* of a file is what
follows the last dot of its own name; a dot that heads the name does not start one.
-/

namespace StackScript
namespace Path

/-- The parts of a path between its slashes. -/
def parts : List Char → List (List Char)
  | [] => [[]]
  | c :: cs =>
    if c = '/' then [] :: parts cs
    else
      match parts cs with
      | part :: rest => (c :: part) :: rest
      | [] => [[c]]

/-- The names in a path; several slashes count as one. -/
def names (path : String) : List String :=
  ((parts path.toList).filter (! ·.isEmpty)).map String.ofList

/-- Whether a path starts at the root of all folders. -/
def isAbsolute (path : String) : Bool := path.toList.head? == some '/'

/-- Whether a path ends in a slash, so that it can only name a folder. -/
def endsInSlash (path : String) : Bool := path.toList.getLast? == some '/'

/-- Whether a name stands for a folder that is there already. -/
def isDots (name : String) : Bool := name == "." || name == ".."

/-- The extension of the last name in a path, if it has one. -/
def extension? (path : String) : Option String := do
  let name ← ((names path).filter (· != ".")).getLast?
  if name = ".." then none
  else
    let reversed := name.toList.reverse
    match reversed.dropWhile (· != '.') with
    | _ :: _ :: _ => some (String.ofList (reversed.takeWhile (· != '.')).reverse)
    | _ => none

/-- A file's own name without its extension. -/
def stem (name : List Char) : List Char :=
  match (name.reverse.dropWhile (· != '.')).drop 1 with
  | [] => name
  | before => before.reverse

/-- A file's own name with `extension` in place of its extension, or added to it. The name is cut behind its last
dot; if `..` is left, this stands for a folder and takes no extension. -/
def nameWithExtension (name : List Char) (extension : String) : List Char :=
  if stem name = ['.'] then ['.', '.'] else stem name ++ '.' :: extension.toList

/-- The path with `extension` in place of the extension of its last name, or added to it. -/
def withExtension (path extension : String) : String :=
  let reversed := path.toList.reverse
  let folder := (reversed.dropWhile (· != '/')).reverse
  let name := (reversed.takeWhile (· != '/')).reverse
  String.ofList (folder ++ nameWithExtension name extension)

end Path
end StackScript
