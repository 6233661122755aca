import ContextFree.Fault
import ContextFree.Segments

/-!
# Folders held in memory

A folder holds files and further folders under paths. Reading a file by name follows the name from
part to part, as a file system does: empty parts and single dots stay, double dots go back, and every
part but the last has to be a folder.

## Main definitions

* `ContextFree.Folder` - what lies under which path.
* `ContextFree.Folder.read` - the bytes of a file by name, or why it cannot be read.
-/

namespace ContextFree

/-- What lies under a path. -/
inductive Folder.Entry where
  /-- A file with its bytes. -/
  | file (bytes : ByteArray)
  /-- A folder. -/
  | folder

/-- A folder by what lies under each path in it; a path is the list of its names. -/
structure Folder where
  /-- The entries; of several under one path the first is found. -/
  entries : List (List (List Char) × Folder.Entry)

namespace Folder

/-- A folder that holds nothing. -/
def empty : Folder := ⟨[]⟩

/-- The parts of a file name between slashes. -/
def parts (name : String) : List (List Char) := segments (· == '/') name.toList

/-- The part stays in the folder it is met in. -/
def isHere (part : List Char) : Bool := part.isEmpty || part == ['.']

/-- What lies under a path; the empty path is the folder itself. -/
def entry? (f : Folder) : List (List Char) → Option Entry
  | [] => some .folder
  | path => f.entries.lookup path

/-- The part goes back to the folder above. -/
def isBack (part : List Char) : Bool := part == ['.', '.']

/-- The path that one part of a name leads to from a path. -/
def move (path : List (List Char)) (part : List Char) : List (List Char) :=
  if isHere part then path else if isBack part then path.dropLast else path ++ [part]

/-- The path that a name leads to. -/
def pathOf (name : String) : List (List Char) := (parts name).foldl move []

/-- Put an entry under a name. -/
def put (f : Folder) (name : String) (entry : Entry) : Folder :=
  ⟨(pathOf name, entry) :: f.entries⟩

/-- Follow the parts of a name from a path on. -/
def follow (f : Folder) (path : List (List Char)) : List (List Char) → Except ReadFailure ByteArray
  | [] =>
    match f.entry? path with
    | some (.file bytes) => .ok bytes
    | some .folder => .error .folder
    | none => .error .notFound
  | part :: rest =>
    match f.entry? path with
    | some .folder =>
      let next := move path part
      if (f.entry? next).isSome then follow f next rest else .error .notFound
    | _ => .error .notAFolder

/-- The bytes of the file with a name, or why it cannot be read. -/
def read (f : Folder) (name : String) : Except ReadFailure ByteArray :=
  if name.toList.contains '\x00' then .error .nullInName
  else if name.isEmpty then .error .notFound
  else f.follow [] (parts name)

end Folder

end ContextFree
