import PhraseStructure.Parse.ShiftReduce
import PhraseStructure.Parse.TopDown

/-!
# Strategies

The three ways to parse that a user can choose from, each with the default
settings of its kind.
-/

namespace PhraseStructure

inductive Strategy where
  | topDown
  | topDownEpsilon
  | shiftReduce
  deriving DecidableEq

namespace Strategy

def all : List Strategy := [topDown, topDownEpsilon, shiftReduce]

def title : Strategy → String
  | topDown => "TopDown"
  | topDownEpsilon => "TopDownEpsilon"
  | shiftReduce => "ShiftReduce"

def option : Strategy → String
  | topDown => "top-down"
  | topDownEpsilon => "top-down-epsilon"
  | shiftReduce => "shift-reduce"

def ofOption? (name : String) : Option Strategy := all.find? fun s ↦ s.option = name

theorem ofOption?_option (s : Strategy) : ofOption? s.option = some s := by
  cases s <;> decide

def parse (s : Strategy) (g : Grammar) (tokens : List String) : Traced Event ParseFault Tree :=
  match s with
  | topDown => TopDown.parse {} g tokens
  | topDownEpsilon => TopDown.parse { emptyAtEnd := true } g tokens
  | shiftReduce => ShiftReduce.parse {} g tokens

end Strategy

end PhraseStructure
