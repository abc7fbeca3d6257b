import StackScript.Shell.Arguments
import StackScript.Shell.Log
import StackScript.Shell.System

/-!
# Folders

A folder holds files and folders, which may be empty, under paths relative to it. The folders above it exist too, and so
does the root of all folders, but of what is in them only the null device is known: what is written to it is lost, and
reading it gives nothing. Such a folder is a system for commands (`Folder.system`), on which they can be carried out
without an operating system.

A path is followed name by name, each of which but the last has to lead to a folder, and the first one that goes wrong
decides the error.
-/

namespace StackScript
namespace Shell

namespace Folder

/-- A file or a folder, by the names that lead to it. A place above starts with names `..`, one for each level,
and a place below the root of all folders starts with the name of the root. -/
abbrev Place := List String

end Folder

/-- What a folder holds. -/
structure Folder where
  /-- The contents of files by the names of their places. -/
  files : Table Bytes := ∅
  /-- The folders inside. -/
  folders : List Folder.Place := []

namespace Folder

/-! ### Places -/

/-- The root of all folders. -/
def root : Place := ["/"]

/-- The folder of the devices. -/
def devices : Place := ["/", "dev"]

/-- The device that keeps nothing. -/
def nullDevice : Place := ["/", "dev", "null"]

def placeName (place : Place) : String := "/".intercalate place

/-- The contents of the file at a place. -/
def file? (f : Folder) (place : Place) : Option Bytes :=
  if place = nullDevice then some [] else f.files.get? (placeName place)

/-- Whether a place is a folder: the folder itself, one above, the root, the one of the devices, or one inside. -/
def isFolder (f : Folder) (place : Place) : Bool :=
  place.all (· == "..") || place == root || place == devices || f.folders.contains place

/-- The folder above a folder. The root is above itself. -/
def above (place : Place) : Place :=
  match place.getLast? with
  | none => [".."]
  | some ".." => place ++ [".."]
  | some "/" => place
  | some _ => place.dropLast

/-- The files inside, without those that are above or below the root. -/
def inside (f : Folder) : List (String × Bytes) :=
  f.files.toList.filter fun (name, _) => !Path.isAbsolute name && (Path.names name).head? != some ".."

/-- Where a path starts. -/
def start (path : String) : Place := if Path.isAbsolute path then root else []

/-! ### Following a path -/

def notFound : FileError := .refused "No such file or directory" 2
def notFolder : FileError := .refused "Not a directory" 20
def isFolderError : FileError := .refused "Is a directory" 21
def tooLong : FileError := .refused "File name too long" 36

/-- The number of bytes that a name may have. -/
def maxNameBytes : Nat := 255

/-- The number of bytes that a path may have. -/
def maxPathBytes : Nat := 4095

/-- Refuses a name that has too many bytes. -/
def checkName (name : String) : Except FileError Unit :=
  if maxNameBytes < name.utf8ByteSize then .error tooLong else .ok ()

/-- Goes from a folder to the folder that `name` leads to. -/
def enter (f : Folder) (place : Place) (name : String) : Except FileError Place :=
  if name = "." then .ok place
  else if name = ".." then .ok (above place)
  else do
    checkName name
    let next := place ++ [name]
    if f.isFolder next then return next
    throw (if (f.file? next).isSome then notFolder else notFound)

/-- The folder that a path leads to and the last name in it, which is absent if the path names a folder in any
case. -/
def locate (f : Folder) (path : String) : Except FileError (Place × Option String) := do
  if maxPathBytes < path.utf8ByteSize then throw tooLong
  let names := Path.names path
  let place ← names.dropLast.foldlM f.enter (start path)
  return (place, names.getLast?.filter (!Path.isDots ·))

/-! ### Files -/

/-- The contents of a file. -/
def read (f : Folder) (path : String) : Except FileError Bytes := do
  let (place, some name) ← f.locate path | throw isFolderError
  checkName name
  match f.file? (place ++ [name]) with
  | some bytes => if Path.endsInSlash path then throw notFolder else return bytes
  | none => throw (if f.isFolder (place ++ [name]) then isFolderError else notFound)

/-- The folder with the given contents at a place. -/
def store (f : Folder) (place : Place) (bytes : Bytes) : Folder :=
  if place = nullDevice then f else { f with files := f.files.insert (placeName place) bytes }

/-- Gives a file its contents. A slash at the end of the path is an error whatever the name before it. -/
def write (f : Folder) (path : String) (bytes : Bytes) : Except FileError Folder := do
  let (place, some name) ← f.locate path | throw isFolderError
  if Path.endsInSlash path then throw isFolderError
  checkName name
  if f.isFolder (place ++ [name]) then throw isFolderError
  return f.store (place ++ [name]) bytes

/-! ### Filling a folder -/

/-- Goes on to the folder that `name` leads to, and creates it if need be. -/
def create (f : Folder) (place : Place) (name : String) : Folder × Place :=
  if name = "." then (f, place)
  else if name = ".." then (f, above place)
  else
    let next := place ++ [name]
    (if f.isFolder next then f else { f with folders := next :: f.folders }, next)

/-- Adds a file under a path, with all folders that the path goes through. -/
def add (f : Folder) (path : String) (bytes : Bytes) : Folder :=
  let names := Path.names path
  let (f, place) := names.dropLast.foldl (fun (f, place) name => f.create place name) (f, start path)
  match names.getLast? with
  | some name => { f with files := f.files.insert (placeName (place ++ [name])) bytes }
  | none => f

/-! ### Commands -/

/-- The folder as a system. -/
def system : System Folder where
  parse := Command.parse
  read path f := f.read path
  write path bytes f :=
    match f.write path bytes with
    | .ok f' => (.ok (), f')
    | .error e => (.error e, f)
  log env _ e := Log.line env e
  abortText _ := abortText

end Folder
end Shell
end StackScript
