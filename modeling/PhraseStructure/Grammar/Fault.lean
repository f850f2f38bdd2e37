import PhraseStructure.Files.Fault
import PhraseStructure.Location
import PhraseStructure.Symbol

/-!
# Faults of grammars

Why a text is not a grammar, or what is missing in one.
-/

namespace PhraseStructure

inductive GrammarFault where
  /-- A symbol stands where it cannot. If only one kind could have stood
  there, that kind was expected. -/
  | malformed (expected : Option Kind) (found : Symbol)
  | undefined (name : String)
  | unreadable (fault : FileFault)
  deriving DecidableEq

namespace GrammarFault

def text : GrammarFault → String
  | malformed (some kind) found =>
      kind.title ++ " expected but `" ++ found.surface ++ "` (" ++ found.kind.title ++ ") found"
  | malformed none found =>
      "Unexpected `" ++ found.surface ++ "` (" ++ found.kind.title ++ ") found"
  | undefined name => "Could not find definition for `" ++ name ++ "`"
  | unreadable fault => "File error: " ++ fault.text

/-- Faults of files are compared by kind, all others in full. -/
def agrees : GrammarFault → GrammarFault → Bool
  | unreadable a, unreadable b => a.agrees b
  | a, b => a = b

def unexpected (found : Symbol) : GrammarFault := malformed none found

end GrammarFault

abbrev GrammarError := Located GrammarFault

namespace GrammarError

def message (e : GrammarError) : String := Located.message GrammarFault.text e

def agrees (e f : GrammarError) : Bool := Located.agrees GrammarFault.agrees e f

end GrammarError

end PhraseStructure
