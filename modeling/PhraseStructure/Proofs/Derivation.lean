import Mathlib.Data.List.Forall2
import PhraseStructure.Grammar.Derivation

/-!
# Facts about derivation trees

A symbol that is not a nonterminal derives one leaf at most. A nonterminal
that reads nothing derives nodes only, and the children of the node follow an
alternative of its rule. Every derivation tree has a leaf, so a row of trees is
never longer than the row of their leaves.
-/

namespace PhraseStructure.Grammar

variable {g : Grammar} {reads : Symbol → Bool}

theorem derivesEach_iff_forall₂ {symbols : List Symbol} {trees : List Tree} :
    g.DerivesEach reads symbols trees ↔ List.Forall₂ (g.Derives reads) symbols trees := by
  constructor
  · intro h
    induction trees generalizing symbols with
    | nil => cases h; exact .nil
    | cons tree trees ih =>
        cases h with
        | cons first rest => exact .cons first (ih rest)
  · intro h
    induction h with
    | nil => exact .nil
    | cons first _ ih => exact .cons first ih

theorem DerivesEach.take_drop {symbols : List Symbol} {trees : List Tree}
    (h : g.DerivesEach reads symbols trees) (count : Nat) :
    g.DerivesEach reads (symbols.take count) (trees.take count) ∧
      g.DerivesEach reads (symbols.drop count) (trees.drop count) := by
  simp only [derivesEach_iff_forall₂] at h ⊢
  exact ⟨List.forall₂_take count h, List.forall₂_drop count h⟩

/-- Induction over a derivation tree, with the hypothesis for each child of a
node under the symbol that it derives from. -/
theorem Derives.forall_induction {motive : Symbol → Tree → Prop}
    (leaf : ∀ symbol, reads symbol = true → motive symbol (.leaf symbol.surface))
    (node : ∀ rule ∈ g.rules, ∀ alternative ∈ rule.alternatives, alternative ≠ [] →
      ∀ children, g.DerivesEach reads alternative children →
        List.Forall₂ motive alternative children →
          motive (.nonterminal rule.name) (.node rule.name children))
    {symbol : Symbol} {tree : Tree} (h : g.Derives reads symbol tree) : motive symbol tree :=
  Derives.rec (motive_1 := fun symbol tree _ ↦ motive symbol tree)
    (motive_2 := fun symbols trees _ ↦ List.Forall₂ motive symbols trees)
    (fun hread ↦ leaf _ hread)
    (fun hrule hchosen hfilled heach ih ↦ node _ hrule _ hchosen hfilled _ heach ih)
    .nil (fun _ _ hfirst hrest ↦ .cons hfirst hrest) h

/-- A derivation tree stays one if more symbols read tokens. -/
theorem Derives.mono {more : Symbol → Bool} (hmore : ∀ symbol, reads symbol = true →
    more symbol = true) {symbol : Symbol} {tree : Tree} (h : g.Derives reads symbol tree) :
    g.Derives more symbol tree := by
  apply h.forall_induction (motive := g.Derives more)
  case leaf =>
    intro symbol hread
    exact .leaf (hmore symbol hread)
  case node =>
    intro rule hrule alternative hchosen hfilled children _ ih
    exact .node hrule hchosen hfilled (derivesEach_iff_forall₂.mpr ih)

theorem Derives.eq_leaf {symbol : Symbol} {tree : Tree} (hsymbol : symbol.isNonterminal = false)
    (h : g.Derives reads symbol tree) : reads symbol = true ∧ tree = .leaf symbol.surface := by
  cases h with
  | leaf hread => exact ⟨hread, rfl⟩
  | node => cases hsymbol

theorem Derives.eq_node {name : String} {tree : Tree} (hreads : reads (.nonterminal name) = false)
    (h : g.Derives reads (.nonterminal name) tree) :
    ∃ rule ∈ g.rules, rule.name = name ∧ ∃ alternative ∈ rule.alternatives, alternative ≠ [] ∧
      ∃ children, tree = .node name children ∧ g.DerivesEach reads alternative children := by
  cases h with
  | leaf hread => rw [hread] at hreads; cases hreads
  | node hrule hchosen hfilled heach =>
      exact ⟨_, hrule, rfl, _, hchosen, hfilled, _, rfl, heach⟩

theorem length_le_leavesOf {trees : List Tree} (h : ∀ tree ∈ trees, tree.leaves ≠ []) :
    trees.length ≤ (Tree.leavesOf trees).length := by
  induction trees with
  | nil => exact Nat.zero_le _
  | cons tree trees ih =>
      have hfirst : 0 < tree.leaves.length :=
        List.length_pos_iff.mpr (h tree List.mem_cons_self)
      have hrest := ih fun other hmem ↦ h other (List.mem_cons_of_mem _ hmem)
      rw [Tree.leavesOf, List.length_append, List.length_cons]
      omega

theorem Derives.leaves_ne_nil {symbol : Symbol} {tree : Tree} (h : g.Derives reads symbol tree) :
    tree.leaves ≠ [] := by
  apply h.forall_induction (motive := fun _ tree ↦ tree.leaves ≠ [])
  case leaf =>
    intro symbol _
    simp [Tree.leaves]
  case node =>
    intro rule _ alternative _ hfilled children _ ih
    cases ih with
    | nil => exact (hfilled rfl).elim
    | cons hfirst _ =>
        rw [Tree.leaves, Tree.leavesOf]
        exact List.append_ne_nil_of_left_ne_nil hfirst _

theorem DerivesEach.leavesOf_ne_nil {symbols : List Symbol} {trees : List Tree}
    (hfilled : symbols ≠ []) (h : g.DerivesEach reads symbols trees) :
    Tree.leavesOf trees ≠ [] := by
  cases h with
  | nil => exact (hfilled rfl).elim
  | cons hfirst _ => exact List.append_ne_nil_of_left_ne_nil hfirst.leaves_ne_nil _

end PhraseStructure.Grammar
