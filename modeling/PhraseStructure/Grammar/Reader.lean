import PhraseStructure.Event
import PhraseStructure.Grammar.Basic
import PhraseStructure.Grammar.Fault
import PhraseStructure.Text.Blank
import PhraseStructure.Text.Lines
import PhraseStructure.Traced

/-!
# Grammars from text

A rule line is a nonterminal, an arrow and alternatives with separators
between them. Blank lines are skipped, and so are comments, which start with a
semicolon. All physical lines count, from zero.

Reading stops at the first line that is not a rule. The error cites the first
symbol that no rule could have in its place.
-/

namespace PhraseStructure

/-- Reads alternatives up to the end of a line. The symbols of the open
alternative stand in `group`, last symbol first. If the line ends while it is
empty, `closing` is at fault: the separator before it or the end of the line. -/
def readAlternatives (closing : Symbol) (group : Alternative) :
    List Symbol → Except GrammarFault (List Alternative)
  | [] => if group.isEmpty then .error (.unexpected closing) else .ok [group.reverse]
  | symbol :: rest =>
      match symbol.kind with
      | .separator =>
          if group.isEmpty then .error (.unexpected symbol)
          else (group.reverse :: ·) <$> readAlternatives symbol [] rest
      | .terminal | .nonterminal => readAlternatives closing (symbol :: group) rest
      | .arrow | .lineEnd => .error (.unexpected symbol)

def readRuleLine : List Symbol → Except GrammarFault (String × List Alternative)
  | ⟨.nonterminal, name⟩ :: ⟨.arrow, _⟩ :: side =>
      (name, ·) <$> readAlternatives Symbol.endOfLine [] side
  | ⟨.nonterminal, _⟩ :: rest =>
      .error (.malformed (some .arrow) (rest.headD Symbol.endOfLine))
  | symbols => .error (.malformed (some .nonterminal) (symbols.headD Symbol.endOfLine))

/-- There is something on the line, and behind the blanks in front no comment
starts. -/
def isRuleLine (line : String) : Bool :=
  match line.toList.dropWhile Text.isBlank with
  | [] => false
  | first :: _ => first != ';'

/-- The rule lines of a text, each with its number and its chunks. -/
def ruleLines (text : String) : List (Nat × List String) :=
  ((Text.lines text).zipIdx.filter fun (line, _) ↦ isRuleLine line).map fun (line, number) ↦
    (number, Text.chunks line)

namespace Grammar

def readLine (file : Option String) (g : Grammar) (line : Nat × List String) :
    Traced Event GrammarError Grammar :=
  match readRuleLine (line.2.map Symbol.ofChunk) with
  | .error fault => .fail ⟨⟨file, line.1⟩, fault⟩
  | .ok (name, alternatives) => do
      Traced.emit (.declared line.1 name alternatives.length)
      if g.defines name then Traced.emit (.redeclared line.1 name)
      pure (g.declare ⟨name, alternatives, line.1⟩)

/-- Reads a grammar. If it came from a file, errors name the file. -/
def read (text : String) (file : Option String) : Traced Event GrammarError Grammar := do
  let g ← (ruleLines text).foldlM (readLine file) empty
  Traced.emit (.loaded g.rules.length)
  pure g

def ofFile (path : String) (contents : Except FileFault ByteArray) :
    Traced Event GrammarError Grammar :=
  match contents with
  | .error fault => .fail ⟨⟨some path, 0⟩, .unreadable fault⟩
  | .ok bytes =>
      match String.fromUTF8? bytes with
      | none => .fail ⟨⟨some path, 0⟩, .unreadable .invalidText⟩
      | some text => read text (some path)

end Grammar

end PhraseStructure
