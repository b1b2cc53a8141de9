/-!
# Paths of files

Paths are text, with slashes between their parts, and start in a directory that holds nothing.  A
part leads to the entry of that name, except that `..` leads one directory up, and that empty parts
and dots alone lead nowhere.

## What is here

* `fileExtension?` — the extension of the file that a path names.
* `Location` and `Location.trail` — where a path leads, and the directories that it goes through.
* What stands at a path: `isDirectory` while nothing was made, `isDirectoryOnceMade` when the
  directories on the way were, and `isWritable`, whether a file can be written there then.
-/

set_option autoImplicit false
namespace NativeRecord

/-! ## Parts -/

/-- All that stands between slashes. -/
def pathSegments (path : String) : List (List Char) := path.toList.splitOnP (· = '/')

/-- The parts that lead somewhere. -/
def pathParts (path : String) : List (List Char) :=
  (pathSegments path).filter fun part => part ≠ [] ∧ part ≠ ['.']

/-- The part that leads up. -/
def parentPart : List Char := ['.', '.']

/-- What stands behind the last dot of the last part, unless the dot starts that part. -/
def fileExtension? (path : String) : Option String :=
  match (pathParts path).getLast? with
  | none => none
  | some name =>
    if name = parentPart then none
    else
      let ending := name.reverse.takeWhile (· ≠ '.')
      let stem := name.take (name.length - ending.length - 1)
      if stem = [] then none else some (String.ofList ending.reverse)

/-- Names have at most 255 bytes and whole paths at most 4095, none of them zero. -/
def isUsablePath (path : String) : Bool :=
  path.utf8ByteSize ≤ 4095 && !path.toList.contains '\x00' &&
    (pathParts path).all fun part => (String.ofList part).utf8ByteSize ≤ 255

/-! ## Locations -/

/-- A place seen from the directory in which paths start: so many directories up, and from there
down through names, the last of which stands first. -/
structure Location where
  up : Nat
  down : List (List Char)
deriving DecidableEq, Repr

namespace Location

/-- Where paths start. -/
def start : Location := ⟨0, []⟩

/-- One part further. -/
def step (l : Location) (part : List Char) : Location :=
  if part = parentPart then
    match l.down with
    | [] => ⟨l.up + 1, []⟩
    | _ :: outer => ⟨l.up, outer⟩
  else ⟨l.up, part :: l.down⟩

/-- The places that parts lead through, without the last one. -/
def trail (l : Location) : List (List Char) → List Location
  | [] => []
  | part :: parts => l :: (l.step part).trail parts

end Location

/-! ## What stands at a path -/

/-- Whether a path leads to a directory while there are only the one it starts in and those above:
each of its parts leads up. -/
def isDirectory (path : String) : Bool :=
  isUsablePath path && (pathParts path).all (· = parentPart)

/-- Whether a path leads to a directory once all directories that it goes through are made. -/
def isDirectoryOnceMade (path : String) : Bool :=
  let target := (pathParts path).foldl Location.step .start
  isUsablePath path &&
    (target.down.isEmpty || (Location.start.trail (pathParts path)).contains target)

/-- Whether a file can be written at a path once all directories that it goes through are made.
The path must end with a name, and no directory may stand there. -/
def isWritable (path : String) : Bool :=
  isUsablePath path && !isDirectoryOnceMade path &&
    (pathSegments path).getLast?.any fun part => part ≠ [] ∧ part ≠ ['.'] ∧ part ≠ parentPart

end NativeRecord
