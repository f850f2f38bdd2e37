import PhraseStructure.Grammar.Basic
import PhraseStructure.Grammar.Fault

/-!
# Missing rules

Lists the nonterminals that are used and have no rule, each at the line of
the rule that uses it, and after them a start symbol without a rule. An empty
grammar has nothing to report.
-/

namespace PhraseStructure

def Rule.symbols (rule : Rule) : List Symbol := rule.alternatives.flatten

namespace Grammar

def undefinedIn (g : Grammar) (rule : Rule) : List String :=
  (rule.symbols.filter fun s ↦ s.isNonterminal && !g.defines s.surface).map Symbol.surface

/-- All missing rules. The file of `base` is the file of every location. -/
def lint (g : Grammar) (base : Location) : List GrammarError :=
  let used := g.rules.flatMap fun rule ↦
    (g.undefinedIn rule).map fun name ↦
      ⟨{ base with line := rule.line }, .undefined name⟩
  if g.rules.isEmpty || g.defines g.start then used
  else used ++ [⟨base, .undefined g.start⟩]

end Grammar

end PhraseStructure
