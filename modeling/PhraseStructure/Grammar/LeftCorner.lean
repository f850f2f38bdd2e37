import PhraseStructure.Grammar.Basic

/-!
# Left corners

The left corners of a symbol are the surfaces with which what it derives can
begin. They are reached by taking the first symbol of an alternative over and
over. A grammar is deterministic if one token is always enough to choose an
alternative: no two alternatives of a rule share a left corner, and no name
comes back to itself through first symbols.
-/

namespace PhraseStructure.Grammar

/-- A symbol that is not a nonterminal has its surface as its only corner. -/
inductive Corner (g : Grammar) : Symbol → String → Prop where
  | surface {symbol : Symbol} (own : symbol.isNonterminal = false) :
      Corner g symbol symbol.surface
  | first {rule : Rule} {symbol : Symbol} {rest : List Symbol} {surface : String}
      (declared : rule ∈ g.rules) (chosen : symbol :: rest ∈ rule.alternatives)
      (corner : Corner g symbol surface) : Corner g (.nonterminal rule.name) surface

def BeginsWith (g : Grammar) (name other : String) : Prop :=
  ∃ rule ∈ g.rules, rule.name = name ∧ ∃ rest, .nonterminal other :: rest ∈ rule.alternatives

def Uses (g : Grammar) (name other : String) : Prop :=
  ∃ rule ∈ g.rules, rule.name = name ∧ .nonterminal other ∈ rule.alternatives.flatten

def Closed (g : Grammar) : Prop :=
  g.defines g.start = true ∧
    ∀ rule ∈ g.rules, ∀ symbol ∈ rule.alternatives.flatten,
      symbol.isNonterminal = true → g.defines symbol.surface = true

def Filled (g : Grammar) : Prop :=
  ∀ rule ∈ g.rules, ∀ alternative ∈ rule.alternatives, alternative ≠ []

def AlternativeCorner (g : Grammar) (alternative : Alternative) (surface : String) : Prop :=
  ∃ symbol ∈ alternative.head?, g.Corner symbol surface

structure Deterministic (g : Grammar) : Prop where
  filled : g.Filled
  closed : g.Closed
  wellFounded : ∀ name, ¬ Relation.TransGen g.BeginsWith name name
  apart : ∀ rule ∈ g.rules, rule.alternatives.Pairwise fun a b ↦
    ∀ surface, g.AlternativeCorner a surface → ¬ g.AlternativeCorner b surface

theorem corner_of_not_nonterminal {g : Grammar} {symbol : Symbol} {surface : String}
    (own : symbol.isNonterminal = false) : g.Corner symbol surface ↔ surface = symbol.surface := by
  constructor
  · intro corner
    cases corner with
    | surface => rfl
    | first => cases own
  · rintro rfl
    exact .surface own

theorem corner_nonterminal {g : Grammar} {name surface : String} :
    g.Corner (.nonterminal name) surface ↔
      ∃ rule ∈ g.rules, rule.name = name ∧
        ∃ alternative ∈ rule.alternatives, g.AlternativeCorner alternative surface := by
  constructor
  · intro corner
    cases corner with
    | surface own => cases own
    | first declared chosen corner => exact ⟨_, declared, rfl, _, chosen, _, rfl, corner⟩
  · rintro ⟨rule, declared, rfl, alternative, chosen, symbol, head, corner⟩
    cases alternative with
    | nil => cases head
    | cons first rest =>
        cases head
        exact .first declared chosen corner

end PhraseStructure.Grammar
