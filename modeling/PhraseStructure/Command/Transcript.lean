import PhraseStructure.Command.Run

/-!
# Transcripts

What the world sees of a run: an exit code and the texts on the two standard
streams.
-/

namespace PhraseStructure

structure Transcript where
  code : UInt32
  stdout : String
  stderr : String

namespace Transcript

def version : String := "shino 0.1.0\n"

def help : String :=
  "Usage: shino <COMMAND>\n\n" ++
  "  parse [-S|--strategy STRATEGY] [-s|--start SYMBOL] FILE [SENTENCE]\n" ++
  "  generate [-s|--start SYMBOL] [-n|--amount AMOUNT] [--seed SEED] FILE\n" ++
  "  check FILE\n"

/-- Arguments that cannot be read have an exit code of their own. -/
def refusal : Transcript := ⟨2, "", help⟩

/-- The complaint that a run fails with is its last line. -/
def ofRun (detail : Nat) (x : Command.Run Unit) : Transcript where
  code := match x.outcome with
    | .ok () => 0
    | .error _ => 1
  stdout := String.join (x.events.map Output.onStandardOutput)
  stderr := String.join (x.events.map (Output.onStandardError detail)) ++
    match x.outcome with
    | .ok () => ""
    | .error message => message ++ "\n"

def ofRequest (request : Arguments.Request) (level : Option String)
    (read : String → Except FileFault ByteArray) (input : ByteArray) (fresh : WordSource) :
    Transcript :=
  match request with
  | .showVersion => ⟨0, version, ""⟩
  | .showHelp => ⟨0, help, ""⟩
  | .run command =>
      ofRun (Output.detail level) (command.run (read command.file) input fresh)

end Transcript

end PhraseStructure
