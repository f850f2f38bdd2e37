/-!
# Faults of files

What can go wrong while a file is read. A fault has a kind and a text. The
kinds alone decide whether two faults are the same.
-/

namespace PhraseStructure

namespace FileFault

inductive Kind where
  | notFound
  | permissionDenied
  | isADirectory
  | notADirectory
  | invalidData
  | other
  deriving DecidableEq

/-- What a kind means, where no system has said more about the fault. -/
def Kind.description : Kind → String
  | .notFound => "entity not found"
  | .permissionDenied => "permission denied"
  | .isADirectory => "is a directory"
  | .notADirectory => "not a directory"
  | .invalidData => "invalid data"
  | .other => "other error"

end FileFault

structure FileFault where
  kind : FileFault.Kind
  text : String
  deriving DecidableEq

namespace FileFault

def agrees (a b : FileFault) : Bool := a.kind = b.kind

def notFound : FileFault := ⟨.notFound, "No such file or directory (os error 2)"⟩

def isADirectory : FileFault := ⟨.isADirectory, "Is a directory (os error 21)"⟩

def notADirectory : FileFault := ⟨.notADirectory, "Not a directory (os error 20)"⟩

def invalidText : FileFault := ⟨.invalidData, "stream did not contain valid UTF-8"⟩

def ofKind (kind : Kind) (text : Option String) : FileFault :=
  ⟨kind, text.getD kind.description⟩

end FileFault

end PhraseStructure
