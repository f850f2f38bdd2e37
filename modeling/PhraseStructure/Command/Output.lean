import PhraseStructure.Event
import PhraseStructure.Text.Terminal

/-!
# Output of the command

A run of the command is a list of outputs in the order in which they are
made. Results go to standard output. Complaints go to standard error, and so
do the events that are important enough for the chosen level of detail.
-/

namespace PhraseStructure

inductive Output where
  /-- Text for standard output, line endings included. -/
  | printed (text : String)
  | complaint (text : String)
  | reported (event : Event)

namespace Output

/-- The least important rank that is shown, by the name of the level. Without
a level errors are shown, and with an unknown one nothing is. -/
def detail (level : Option String) : Nat :=
  match level with
  | none | some "" => Event.Level.error.rank
  | some name =>
      let levels := [Event.Level.error, .warn, .info, .debug, .trace]
      match levels.find? fun l ↦ l.title = name.toUpper with
      | some l => l.rank
      | none => 0

/-- Texts of several lines are set off from the left margin. A text with
controls is written as a terminal would show it, and if they hide the line
ending, the next line goes on in the same place. -/
def logLine (e : Event) : String :=
  let level := e.level.title ++ String.ofList (List.replicate (5 - e.level.title.length) ' ')
  Text.shown
    ("[" ++ level ++ " " ++ e.target ++ "] " ++ e.text.replace "\n" "\n    " ++ "\n")

def onStandardOutput : Output → String
  | printed text => text
  | _ => ""

def onStandardError (detail : Nat) : Output → String
  | printed _ => ""
  | complaint text => text ++ "\n"
  | reported e => if e.level.rank ≤ detail then logLine e else ""

end Output

end PhraseStructure
