import PhraseStructure.Grammar.LeftCorner
import PhraseStructure.Proofs.Reach

/-!
# Certificates of determinism

A table that gives each name some surfaces bounds the left corners if each rule
respects it. A ranking of the names that goes down at first symbols shows that
no name comes back to itself. Both are checked rule by rule, and together they
show that a grammar is deterministic.
-/

namespace PhraseStructure.Grammar

variable {g : Grammar}

/-- The corners that a table allows a symbol. -/
def tableCorners (table : String → List String) (symbol : Symbol) : List String :=
  if symbol.isNonterminal then table symbol.surface else [symbol.surface]

theorem Corner.mem_tableCorners {table : String → List String}
    (htable : ∀ rule ∈ g.rules, ∀ alternative ∈ rule.alternatives,
      ∀ first ∈ alternative.head?, tableCorners table first ⊆ table rule.name)
    {symbol : Symbol} {surface : String} (h : g.Corner symbol surface) :
    surface ∈ tableCorners table symbol := by
  induction h with
  | surface hown => simp [tableCorners, hown]
  | first hrule hchosen _ ih => exact htable _ hrule _ hchosen _ rfl ih

theorem not_transGen_beginsWith {rank : String → Nat}
    (hrank : ∀ rule ∈ g.rules, ∀ alternative ∈ rule.alternatives, ∀ first ∈ alternative.head?,
      first.isNonterminal = true → rank first.surface < rank rule.name) (name : String) :
    ¬ Relation.TransGen g.BeginsWith name name := by
  apply not_transGen_of_rank rank
  rintro name other ⟨rule, hrule, rfl, rest, hchosen⟩
  exact hrank rule hrule _ hchosen _ rfl rfl

theorem deterministic_of_table (table : String → List String) (rank : String → Nat)
    (hfilled : g.Filled) (hclosed : g.Closed)
    (htable : ∀ rule ∈ g.rules, ∀ alternative ∈ rule.alternatives,
      ∀ first ∈ alternative.head?, tableCorners table first ⊆ table rule.name)
    (hrank : ∀ rule ∈ g.rules, ∀ alternative ∈ rule.alternatives, ∀ first ∈ alternative.head?,
      first.isNonterminal = true → rank first.surface < rank rule.name)
    (hapart : ∀ rule ∈ g.rules, rule.alternatives.Pairwise fun a b ↦ ∀ first ∈ a.head?,
      ∀ other ∈ b.head?, ∀ surface ∈ tableCorners table first,
        surface ∉ tableCorners table other) :
    g.Deterministic where
  filled := hfilled
  closed := hclosed
  wellFounded := not_transGen_beginsWith hrank
  apart := by
    intro rule hrule
    apply (hapart rule hrule).imp
    rintro a b hdisjoint surface ⟨first, hfirst, hcorner⟩ ⟨other, hother, hshared⟩
    have hmem := hcorner.mem_tableCorners htable
    have hboth := hshared.mem_tableCorners htable
    exact hdisjoint first hfirst other hother surface hmem hboth

end PhraseStructure.Grammar
