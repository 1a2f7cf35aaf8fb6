/-!
# Files

A tree of files known beforehand, and how a path leads through it. A path is walked name by name
from the root or from the directory where the program runs: each name is looked up in a directory,
an empty name and `.` stay where they are, and `..` goes back.
-/

namespace Catena.CommandLine

/-- Why a file cannot be read. -/
inductive FileError where
  | notFound
  /-- A part of the path before its last is no directory. -/
  | notDirectory
  | isDirectory
  | nameTooLong
  | other (description : String)
  deriving DecidableEq

/-- The wording of a failure to read. -/
def FileError.message : FileError → String
  | notFound => "No such file or directory (os error 2)"
  | notDirectory => "Not a directory (os error 20)"
  | isDirectory => "Is a directory (os error 21)"
  | nameTooLong => "File name too long (os error 36)"
  | other description => description

/-- What stands at a location. -/
inductive Place where
  | directory
  | file (content : String)
  deriving DecidableEq

/-- The names that lead to a place from the root. -/
abbrev Location := List String

/-- Places, each with its location; the first one counts. -/
structure FileTree where
  places : List (Location × Place) := []
  /-- Where a path that does not begin at the root begins. -/
  workingDirectory : Location := []
  /-- The files that stand for standard input. -/
  inputs : List Location := []

namespace FileTree

/-- Names are at most this many bytes long. -/
def maxNameBytes : Nat := 255

/-- Paths are at most this many bytes long. -/
def maxPathBytes : Nat := 4095

/-- Whether a location lies on the way to a place. -/
def leads (t : FileTree) (l : Location) : Bool :=
  decide (l <+: t.workingDirectory) || t.places.any (l <+: ·.1)

/-- What stands at a location. Whatever leads to a place is a directory. -/
def place? (t : FileTree) (l : Location) : Option Place :=
  match t.places.lookup l with
  | some place => some place
  | none => if t.leads l then some .directory else none

/-- Whether a directory stands at a location. -/
def isDirectory (t : FileTree) (l : Location) : Bool := t.place? l = some .directory

/-- Where a name leads from a location. -/
def follow (t : FileTree) (l : Location) (name : String) : Except FileError Location :=
  if !t.isDirectory l then .error .notDirectory
  else if name = "" ∨ name = "." then .ok l
  else if name = ".." then .ok l.dropLast
  else if name.utf8ByteSize > maxNameBytes then .error .nameTooLong
  else if (t.place? (l ++ [name])).isNone then .error .notFound
  else .ok (l ++ [name])

/-- The names of a path, with the location where it begins. -/
def begin (t : FileTree) (path : String) : Except FileError (Location × List String) :=
  if path.isEmpty then .error .notFound
  else if path.utf8ByteSize > maxPathBytes then .error .nameTooLong
  else match path.splitOn "/" with
    | "" :: names => .ok ([], names)
    | names => .ok (t.workingDirectory, names)

/-- The location that a path leads to. -/
def locate (t : FileTree) (path : String) : Except FileError Location := do
  let (start, names) ← t.begin path
  names.foldlM t.follow start

/-- Whether a path leads to standard input. -/
def isInput (t : FileTree) (path : String) : Bool :=
  match t.locate path with
  | .ok l => t.inputs.contains l
  | .error _ => false

/-- The content of the file that a path leads to. -/
def read (t : FileTree) (path : String) : Except FileError String := do
  match t.place? (← t.locate path) with
  | some (.file content) => .ok content
  | some .directory => .error .isDirectory
  | none => .error .notFound

/-- Puts a place at a location. -/
def put (t : FileTree) (l : Location) (place : Place) : FileTree :=
  { t with places := (l, place) :: t.places }

/-- Writes a file. All but the last name of its path must lead to a directory, and the last name
must be one that a file can have. -/
def write? (t : FileTree) (path content : String) : Option FileTree := do
  let (start, names) ← (t.begin path).toOption
  let l ← (names.dropLast.foldlM t.follow start).toOption
  let name ← names.getLast?
  let target := l ++ [name]
  if !t.isDirectory l || ["", ".", ".."].contains name || name.utf8ByteSize > maxNameBytes
      || t.isDirectory target then none
  else some (t.put target (.file content))

@[simp]
theorem place?_put (t : FileTree) (l : Location) (place : Place) :
    (t.put l place).place? l = some place := by
  simp [place?, put]

theorem leads_put (t : FileTree) {l m : Location} (place : Place) (h : ¬ m <+: l) :
    (t.put l place).leads m = t.leads m := by
  change (decide (m <+: t.workingDirectory) || (decide (m <+: l) || t.places.any (m <+: ·.1))) = _
  rw [decide_eq_false h, Bool.false_or, leads]

/-- A new place makes directories of the locations on its way and changes nothing else. -/
theorem place?_put_of_not_prefix (t : FileTree) {l m : Location} (place : Place)
    (h : ¬ m <+: l) : (t.put l place).place? m = t.place? m := by
  have hne : (m == l) = false := by
    simp only [beq_eq_false_iff_ne]
    rintro rfl
    exact h (List.prefix_refl m)
  rw [place?, place?, t.leads_put place h]
  simp only [put, List.lookup_cons, hne]

end FileTree

end Catena.CommandLine
