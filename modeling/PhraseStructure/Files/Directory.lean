import PhraseStructure.Files.Fault
import PhraseStructure.Files.Path

/-!
# Files in memory

A directory is a list of entries, each at a place. An entry without bytes is a
directory of its own. Writing a file makes every directory that its path goes
through, also one that the path leaves again. A later entry hides an earlier
one at the same place.

A path is followed part by part, and each part must start at a directory. The
directories above the start are there, and nothing else is outside.
-/

namespace PhraseStructure

structure Directory where
  entries : List (List String × Option ByteArray) := []

namespace Directory

inductive Entry where
  | file (bytes : ByteArray)
  | folder

/-- Puts an entry at a path, and directories on the way. -/
def put (d : Directory) (path : String) (bytes : Option ByteArray) : Directory :=
  let way := (Path.passed (Path.origin path) (Path.parts path)).map fun place ↦ (place, none)
  ⟨(Path.target path, bytes) :: way ++ d.entries⟩

def ofFiles (files : List (String × Option ByteArray)) : Directory :=
  files.foldl (fun d (path, bytes) ↦ d.put path bytes) {}

def entry? (d : Directory) (place : List String) : Option Entry :=
  match d.entries.lookup place with
  | some (some bytes) => some (.file bytes)
  | some none => some .folder
  | none => if place.all fun name ↦ name = ".." || name = "/" then some .folder else none

def follow (d : Directory) (place : List String) (part : String) :
    Except FileFault (List String) :=
  match d.entry? place with
  | none => .error .notFound
  | some (.file _) => .error .notADirectory
  | some .folder => .ok (Path.enter place part)

def read (d : Directory) (path : String) : Except FileFault ByteArray :=
  if path = "" then .error .notFound
  else do
    let place ← (Path.parts path).foldlM d.follow (Path.origin path)
    match d.entry? place with
    | none => .error .notFound
    | some .folder => .error .isADirectory
    | some (.file bytes) => .ok bytes

end Directory

end PhraseStructure
