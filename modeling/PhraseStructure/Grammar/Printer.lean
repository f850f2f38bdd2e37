import PhraseStructure.Grammar.Basic

/-!
# Grammars as text

Each rule takes one line: its name, an arrow, and its alternatives with a
separator between two of them. Everything stands one space apart.
-/

namespace PhraseStructure

namespace Alternative

def text (alternative : Alternative) : String :=
  String.intercalate " " (alternative.map Symbol.written)

end Alternative

namespace Rule

/-- The line of a rule, without its ending. -/
def text (rule : Rule) : String :=
  rule.name ++ " -> " ++ String.intercalate " | " (rule.alternatives.map Alternative.text)

end Rule

namespace Grammar

def text (g : Grammar) : String := String.join (g.rules.map fun rule ↦ rule.text ++ "\n")

end Grammar

end PhraseStructure
