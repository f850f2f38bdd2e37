/-!
# Paths

A path is a text cut at slashes. Repeated slashes, a slash at the end and
inner `.` parts do not tell two paths apart. A slash or a `.` in front does,
and so does every `..`.

Where a path leads is a row of names, from the directory where it starts or
from the root. In front stand as many `..` as the path goes above its start.
-/

namespace PhraseStructure.Path

def parts (path : String) : List String :=
  (path.toList.splitOnP (· == '/')).map String.ofList

def isAbsolute (path : String) : Bool := path.toList.head? == some '/'

def steps (path : String) : List String :=
  (parts path).filter fun part ↦ part != "" && part != "."

/-- What two spellings of one path have in common. -/
def components (path : String) : List String :=
  if isAbsolute path then "/" :: steps path
  else if (parts path).head? == some "." then "." :: steps path
  else steps path

def origin (path : String) : List String := if isAbsolute path then ["/"] else []

/-- The place one part further. Nothing is above the root. -/
def enter (place : List String) (part : String) : List String :=
  if part = "" || part = "." then place
  else if part = ".." then
    match place.getLast? with
    | none | some ".." => place ++ [".."]
    | some "/" => place
    | some _ => place.dropLast
  else place ++ [part]

/-- The places on the way, without the last. -/
def passed (place : List String) : List String → List (List String)
  | [] => []
  | part :: rest => place :: passed (enter place part) rest

def target (path : String) : List String := (parts path).foldl enter (origin path)

end PhraseStructure.Path
