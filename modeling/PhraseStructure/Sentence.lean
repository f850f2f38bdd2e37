import PhraseStructure.Grammar.Basic
import PhraseStructure.Location
import PhraseStructure.Random.Choice
import PhraseStructure.Tree

/-!
# Random sentences

A name is expanded by choosing one of the alternatives of its rule and
expanding the nonterminals in it from left to right. The result is a tree, and
the sentence is the words at its leaves. Rules may nest up to a limit.

An error is located at the rule that needed the expansion. Words drawn before
an error stay drawn.
-/

namespace PhraseStructure

inductive SentenceFault where
  | undefined (name : String)
  | tooDeep (limit : Nat)
  deriving DecidableEq

namespace SentenceFault

def text : SentenceFault → String
  | undefined name => "No definition for nonterminal `" ++ name ++ "`"
  | tooDeep limit => "Sentence nested deeper than " ++ toString limit ++ " rules"

end SentenceFault

abbrev SentenceError := Located SentenceFault

namespace SentenceError

def message (e : SentenceError) : String := Located.message SentenceFault.text e

def agrees (e f : SentenceError) : Bool := Located.agrees (fun a b ↦ a = b) e f

end SentenceError

namespace Sentence

/-- The deepest nesting of a rule below the first one. -/
def maxDepth : Nat := 64

abbrev Draw (α : Type) := ExceptT SentenceError (StateM WordSource) α

def choose (alternatives : List Alternative) : Draw (Option Alternative) := fun s ↦
  let (chosen, s) := Choice.choose alternatives s
  (.ok chosen, s)

def expandSymbol (expandName : String → Draw Tree) (symbol : Symbol) : Draw Tree :=
  if symbol.isNonterminal then expandName symbol.surface else pure (.leaf symbol.surface)

def expandSymbols (expandName : String → Draw Tree) : List Symbol → Draw (List Tree)
  | [] => pure []
  | symbol :: rest => do
      let tree ← expandSymbol expandName symbol
      let trees ← expandSymbols expandName rest
      pure (tree :: trees)

/-- Expands a name with the given number of levels left. The place is that of
the rule that uses the name. A rule without alternatives expands to nothing. -/
def expand (g : Grammar) : Nat → Location → String → Draw Tree
  | 0, place, _ => throw ⟨place, .tooDeep maxDepth⟩
  | levels + 1, place, name =>
      match g.rule? name with
      | none => throw ⟨place, .undefined name⟩
      | some rule => do
          let chosen ← choose rule.alternatives
          let trees ← expandSymbols (expand g levels ⟨none, rule.line⟩) (chosen.getD [])
          pure (.node name trees)

def derive (g : Grammar) (start : String) : Draw Tree :=
  expand g (maxDepth + 1) Location.origin start

def generateFrom (g : Grammar) (start : String) : Draw (List String) :=
  Tree.words <$> derive g start

def generate (g : Grammar) : Draw (List String) := generateFrom g g.start

end Sentence

end PhraseStructure
