import ContextFree.Segments

/-!
# Locations and reports

Whatever is found in a file is located by the name of the file and a line number; line zero is the
file as a whole, and a file without a name is the input at hand. A report shows one located fault a
line, the location in red and in brackets.

Two locations are the same when their line numbers are and their file names lead to the same file as
paths: repeated and trailing slashes do not matter, nor do dots that stand for the folder itself,
except for one at the beginning of a relative path.

## Main definitions

* `ContextFree.Location` - a file name and a line number.
* `ContextFree.Located` - a value with its location.
* `ContextFree.report` - located faults as a text.
-/

namespace ContextFree

/-- A file name and a line number. -/
structure Location where
  /-- The name of the file as it was given. -/
  file : String
  /-- The number of the line, or zero for the file as a whole. -/
  line : Nat
deriving DecidableEq, Repr, Inhabited

namespace Location

/-- A file as a whole. -/
def ofFile (file : String) : Location := ⟨file, 0⟩

/-- A line of the file of a location. -/
def atLine (l : Location) (line : Nat) : Location := { l with line }

/-- The location as it is shown. -/
def text (l : Location) : String :=
  let file := if l.file.isEmpty then "<input>" else l.file
  if l.line = 0 then file else file ++ ":" ++ toString l.line

/-- What a path is besides its spelling: whether it begins at the root, whether it begins with a dot
for the folder itself, and the names along it. -/
structure Path where
  /-- The path begins at the root. -/
  absolute : Bool
  /-- The path is relative and begins with a dot for the folder itself. -/
  dotted : Bool
  /-- The names along the path. -/
  names : List (List Char)
deriving DecidableEq, Repr

/-- A file name read as a path. -/
def Path.ofFile (file : String) : Path :=
  let parts := segments (· == '/') file.toList
  let absolute := file.toList.head? == some '/'
  { absolute
    dotted := !absolute && parts.head? == some ['.']
    names := parts.filter fun part => !part.isEmpty && part != ['.'] }

/-- Two locations are the same line of the same path. -/
def same (a b : Location) : Bool :=
  a.line == b.line && Path.ofFile a.file == Path.ofFile b.file

end Location

/-- A value with the place where it was found. -/
structure Located (α : Type) where
  /-- The place. -/
  location : Location
  /-- The value. -/
  value : α
deriving DecidableEq, Repr, Inhabited

namespace Located

variable {α : Type}

/-- A located fault as it is shown, given its message. -/
def text (message : α → String) (l : Located α) : String :=
  "\x1b[31;49;1m[" ++ l.location.text ++ "]\x1b[39;49;1m  " ++ message l.value ++ "\x1b[0m"

end Located

/-- Located faults, one a line. -/
def report {α : Type} (message : α → String) (faults : List (Located α)) : String :=
  "\n".intercalate (faults.map (Located.text message))

end ContextFree
