import PhraseStructure.Grammar.Basic
import PhraseStructure.Tree

/-!
# Derivation trees

A tree derives from a symbol of a grammar if each of its nodes carries the name
of a rule, and the children of the node derive from the symbols of one of the
rule's alternatives, one by one. The alternative is not empty, so no node is
without children. A symbol that reads tokens derives the leaf with its surface.

Which symbols read tokens is a parameter. Parsing from the top reads any
symbol that is not a nonterminal, parsing by reduction reads terminals only.
-/

namespace PhraseStructure.Grammar

mutual

inductive Derives (g : Grammar) (reads : Symbol → Bool) : Symbol → Tree → Prop where
  | leaf {symbol : Symbol} (read : reads symbol = true) :
      Derives g reads symbol (.leaf symbol.surface)
  | node {rule : Rule} {alternative : Alternative} {children : List Tree}
      (declared : rule ∈ g.rules) (chosen : alternative ∈ rule.alternatives)
      (filled : alternative ≠ []) (each : DerivesEach g reads alternative children) :
      Derives g reads (.nonterminal rule.name) (.node rule.name children)

inductive DerivesEach (g : Grammar) (reads : Symbol → Bool) : List Symbol → List Tree → Prop where
  | nil : DerivesEach g reads [] []
  | cons {symbol : Symbol} {symbols : List Symbol} {tree : Tree} {trees : List Tree}
      (first : Derives g reads symbol tree) (rest : DerivesEach g reads symbols trees) :
      DerivesEach g reads (symbol :: symbols) (tree :: trees)

end

variable {g : Grammar} {reads : Symbol → Bool}

theorem DerivesEach.length_eq {symbols : List Symbol} {trees : List Tree}
    (h : DerivesEach g reads symbols trees) : trees.length = symbols.length := by
  induction trees generalizing symbols with
  | nil => cases h; rfl
  | cons tree trees ih =>
      cases h with
      | cons _ rest => simp [ih rest]

theorem DerivesEach.append {symbols others : List Symbol} {trees more : List Tree}
    (front : DerivesEach g reads symbols trees) (back : DerivesEach g reads others more) :
    DerivesEach g reads (symbols ++ others) (trees ++ more) := by
  induction trees generalizing symbols with
  | nil => cases front; exact back
  | cons tree trees ih =>
      cases front with
      | cons first rest => exact .cons first (ih rest)

theorem Derives.children_ne_nil {symbol : Symbol} {label : String} {children : List Tree}
    (h : Derives g reads symbol (.node label children)) : children ≠ [] := by
  cases h with
  | node declared chosen filled each =>
      intro none
      exact filled (List.length_eq_zero_iff.mp (by rw [← each.length_eq, none]; rfl))

end PhraseStructure.Grammar
