import PhraseStructure.Command.Arguments
import PhraseStructure.Command.Output
import PhraseStructure.Grammar.Lint
import PhraseStructure.Grammar.Printer
import PhraseStructure.Grammar.Reader
import PhraseStructure.Random.Keystream
import PhraseStructure.Sentence

/-!
# Runs of the command

A run is a traced computation over outputs. It fails with the last complaint
of the command, or succeeds without a value. Whatever it takes from the world
is an argument: the contents of the file, the bytes of standard input, and a
source of random words for sentences without a seed.
-/

namespace PhraseStructure.Command

abbrev Run (α : Type) := Traced Output String α

def print (text : String) : Run Unit := Traced.emit (.printed text)

def complain (text : String) : Run Unit := Traced.emit (.complaint text)

def printLine (text : String) : Run Unit := print (text ++ "\n")

def report {ε α : Type} (message : ε → String) (x : Traced Event ε α) : Run α :=
  x.reword .reported message

def loadGrammar (file : String) (contents : Except FileFault ByteArray) : Run Grammar :=
  report GrammarError.message (Grammar.ofFile file contents)

/-- Loads a grammar, changes its start symbol if there is another one, and
warns of each missing rule. -/
def prepare (file : String) (contents : Except FileFault ByteArray) (start : Option String) :
    Run Grammar := do
  let loaded ← loadGrammar file contents
  let g := match start with
    | some start => loaded.startingAt start
    | none => loaded
  (g.lint ⟨some file, 0⟩).forM fun e ↦ Traced.emit (.reported (.warned (GrammarError.message e)))
  pure g

def parseSentence (strategy : Strategy) (g : Grammar) (sentence : String) : Run Unit := do
  let tree ← report ParseFault.message (strategy.parse g (Text.chunks sentence))
  printLine tree.render

/-- Parses one line of the input, if it is not blank, and counts it if it
fails. A line that is not text stops the run. The count is a signed number of
32 bits, which wraps around as it does where overflow is not checked. -/
def parseLine (strategy : Strategy) (g : Grammar) (failures : Int32) (line : ByteArray) :
    Run Int32 :=
  match String.fromUTF8? line with
  | none => .fail FileFault.invalidText.text
  | some line =>
      let tokens := Text.chunks line
      if tokens.isEmpty then pure failures
      else
        let attempt := strategy.parse g tokens
        let events := attempt.events.map Output.reported
        match attempt.outcome with
        | .ok tree => ⟨events ++ [.printed (tree.render ++ "\n")], .ok failures⟩
        | .error e =>
            ⟨events ++ [.complaint (Text.trim line ++ ": " ++ e.message)], .ok (failures + 1)⟩

def parseInput (strategy : Strategy) (g : Grammar) (input : ByteArray) : Run Unit := do
  let failures ← (Text.byteLines input).foldlM (parseLine strategy g) 0
  if 0 < failures then .fail (toString failures ++ " sentence(s) failed to parse")

def printSentences (g : Grammar) : Nat → WordSource → Run Unit
  | 0, _ => pure ()
  | more + 1, s =>
      match (Sentence.generate g).run s with
      | (.error e, _) => .fail (SentenceError.message e)
      | (.ok words, s) => do
          printLine (String.intercalate " " words)
          printSentences g more s

def checkGrammar (file : String) (g : Grammar) : Run Unit := do
  print g.text
  let missing := g.lint ⟨some file, 0⟩
  missing.forM fun e ↦ complain (GrammarError.message e)
  if !missing.isEmpty then .fail (toString missing.length ++ " undefined nonterminal(s)")

def readsInput : Command → Bool
  | parse _ none _ _ => true
  | _ => false

def run (command : Command) (contents : Except FileFault ByteArray) (input : ByteArray)
    (fresh : WordSource) : Run Unit :=
  match command with
  | parse file sentence strategy start => do
      let g ← prepare file contents start
      Traced.emit (.reported (.parsing strategy.title))
      match sentence with
      | some sentence => parseSentence strategy g sentence
      | none => parseInput strategy g input
  | generate file start amount seed => do
      let g ← prepare file contents start
      printSentences g amount ((seed.map Keystream.ofSeed).getD fresh)
  | check file => do
      let g ← loadGrammar file contents
      checkGrammar file g

end PhraseStructure.Command
