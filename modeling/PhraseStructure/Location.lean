import PhraseStructure.Files.Path

/-!
# Locations

A fault in a grammar is reported at a line, counted from zero, of a file if
the grammar came from one.
-/

namespace PhraseStructure

structure Location where
  file : Option String
  line : Nat
  deriving DecidableEq

namespace Location

/-- No file and line zero: the place of faults that no rule has caused. -/
def origin : Location := ⟨none, 0⟩

/-- The file stands as it was given. -/
def text (l : Location) : String :=
  match l.file with
  | some file => file ++ ":" ++ toString l.line
  | none => "line " ++ toString l.line

/-- Two locations agree if they have the same line and spell the same path. -/
def agrees (l m : Location) : Bool :=
  l.line = m.line && l.file.map Path.components = m.file.map Path.components

theorem agrees_self (l : Location) : l.agrees l = true := by
  simp [agrees]

end Location

structure Located (ε : Type) where
  location : Location
  cause : ε
  deriving DecidableEq

namespace Located

variable {ε : Type}

def message (describe : ε → String) (e : Located ε) : String :=
  "[" ++ e.location.text ++ "] " ++ describe e.cause

def agrees (same : ε → ε → Bool) (e f : Located ε) : Bool :=
  e.location.agrees f.location && same e.cause f.cause

end Located

end PhraseStructure
