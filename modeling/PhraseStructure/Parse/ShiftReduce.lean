import PhraseStructure.Event
import PhraseStructure.Grammar.Basic
import PhraseStructure.Parse.Fault
import PhraseStructure.Traced
import PhraseStructure.Tree

/-!
# Shift-reduce parsing

Tokens are shifted onto a stack one at a time. After each shift the stack is
reduced for as long as one of its suffixes is an alternative of some rule.
The longest suffix goes first, and of the rules that have it as an
alternative the first one. There is no other choice.

Each item stands for exactly one symbol, so a suffix of the stack is an
alternative or it is not, and `owner` is all that reducing asks of a grammar.
Stacks are written from the bottom.
-/

namespace PhraseStructure.ShiftReduce

structure Settings where
  /-- The most reductions between two shifts. -/
  maxReductions : Nat := 4096

inductive Item where
  /-- A token that no rule has consumed yet. -/
  | raw (symbol : Symbol)
  | built (tree : Tree)

namespace Item

def label : Item → String
  | raw symbol => symbol.surface
  | built tree => tree.label

def tree : Item → Tree
  | raw symbol => .leaf symbol.surface
  | built tree => tree

/-- The symbol that an item matches. A token matches a terminal, whatever the
token looks like, and a tree matches the nonterminal above it. -/
def symbol : Item → Symbol
  | raw symbol => .terminal symbol.surface
  | built tree => .nonterminal tree.label

end Item

abbrev Step (α : Type) := Traced Event ParseFault α

def owner (g : Grammar) (handle : Alternative) : Option String :=
  (g.rules.find? fun rule ↦ decide (handle ∈ rule.alternatives)).map Rule.name

/-- The longest suffix that some rule owns: the number of symbols below it,
and the name of the rule. -/
def findHandle (g : Grammar) : List Symbol → Option (Nat × String)
  | [] => none
  | symbol :: above =>
      match owner g (symbol :: above) with
      | some name => some (0, name)
      | none => (findHandle g above).map fun (below, name) ↦ (below + 1, name)

def reduce (stack : List Item) (below : Nat) (name : String) : List Item :=
  stack.take below ++ [.built (.node name ((stack.drop below).map Item.tree))]

def reduceAll (s : Settings) (g : Grammar) : Nat → List Item → Step (List Item)
  | 0, stack =>
      match findHandle g (stack.map Item.symbol) with
      | none => pure stack
      | some _ => .fail (.tooManyReductions s.maxReductions)
  | left + 1, stack =>
      match findHandle g (stack.map Item.symbol) with
      | none => pure stack
      | some (below, name) => do
          Traced.emit (.reduced name ((stack.drop below).map Item.label))
          reduceAll s g left (reduce stack below name)

def advance (s : Settings) (g : Grammar) (stack : List Item) (token : String) :
    Step (List Item) := do
  let symbol := Symbol.ofChunk token
  Traced.emit (.shifted symbol)
  reduceAll s g s.maxReductions (stack ++ [.raw symbol])

def run (s : Settings) (g : Grammar) (tokens : List String) : Step (List Item) :=
  tokens.foldlM (advance s g) []

def finish : List Item → Step Tree
  | [.built tree] => do
      Traced.emit (.accepted tree.label tree.depth)
      pure tree
  | stack => .fail (.unreduced (stack.map Item.label))

def parse (s : Settings) (g : Grammar) (tokens : List String) : Step Tree := do
  finish (← run s g tokens)

end PhraseStructure.ShiftReduce
