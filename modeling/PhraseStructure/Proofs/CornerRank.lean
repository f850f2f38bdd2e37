import PhraseStructure.Grammar.LeftCorner
import PhraseStructure.Proofs.Derivation
import PhraseStructure.Proofs.Reach

/-!
# Ranks of names by their first symbols

The rank of a name counts the declared names that it reaches by going to a
first symbol over and over, itself included. A step to a first symbol lowers
it, unless the name comes back to itself, so ranks bound every chain of first
symbols.

A derivation tree begins with a left corner of its symbol.
-/

namespace PhraseStructure.Grammar

variable {g : Grammar}

open Classical in
noncomputable def cornerRank (g : Grammar) (name : String) : Nat :=
  {other ∈ g.names.toFinset | Relation.ReflTransGen g.BeginsWith name other}.card

/-- Only nonterminals have a rank above zero. -/
noncomputable def symbolRank (g : Grammar) (symbol : Symbol) : Nat :=
  if symbol.isNonterminal then g.cornerRank symbol.surface else 0

theorem BeginsWith.defines {name other : String} (h : g.BeginsWith name other) :
    g.defines name = true := by
  obtain ⟨rule, hrule, hname, -⟩ := h
  exact defines_iff.mpr ⟨rule, hrule, hname⟩

theorem cornerRank_le (g : Grammar) (name : String) : g.cornerRank name ≤ g.rules.length :=
  reachCount_le g g.BeginsWith name

theorem cornerRank_pos {name : String} (h : g.defines name = true) : 0 < g.cornerRank name :=
  reachCount_pos h

theorem cornerRank_lt {name other : String} (hbegins : g.BeginsWith name other)
    (hacyclic : ¬ Relation.TransGen g.BeginsWith name name) :
    g.cornerRank other < g.cornerRank name :=
  reachCount_lt hbegins.defines hbegins hacyclic

theorem symbolRank_le (g : Grammar) (symbol : Symbol) : g.symbolRank symbol ≤ g.rules.length := by
  unfold symbolRank
  split
  · exact cornerRank_le g _
  · exact Nat.zero_le _

/-- The first symbol of an alternative ranks below the name of the rule. -/
theorem symbolRank_lt {rule : Rule} {first : Symbol} {rest : List Symbol} (hrule : rule ∈ g.rules)
    (hchosen : first :: rest ∈ rule.alternatives)
    (hacyclic : ¬ Relation.TransGen g.BeginsWith rule.name rule.name) :
    g.symbolRank first < g.cornerRank rule.name := by
  unfold symbolRank
  split
  next hfirst =>
      rw [Symbol.eq_nonterminal hfirst] at hchosen
      exact cornerRank_lt ⟨rule, hrule, rfl, rest, hchosen⟩ hacyclic
  next => exact cornerRank_pos (defines_iff.mpr ⟨rule, hrule, rfl⟩)

/-- What a tree begins with is a left corner of what it derives from. -/
theorem Derives.corner {reads : Symbol → Bool} (hreads : ∀ name, reads (.nonterminal name) = false)
    {symbol : Symbol} {tree : Tree} (h : g.Derives reads symbol tree) :
    ∀ word ∈ tree.leaves.head?, g.Corner symbol word := by
  apply h.forall_induction
    (motive := fun symbol tree ↦ ∀ word ∈ tree.leaves.head?, g.Corner symbol word)
  case leaf =>
    intro symbol hread word hword
    cases hword
    apply Corner.surface
    cases hkind : symbol.isNonterminal with
    | false => rfl
    | true =>
        rw [Symbol.eq_nonterminal hkind, hreads] at hread
        cases hread
  case node =>
    intro rule hrule alternative hchosen hfilled children heach ih word hword
    cases ih with
    | nil => exact (hfilled rfl).elim
    | @cons first child rest others hcorner _ =>
        rw [derivesEach_iff_forall₂, List.forall₂_cons] at heach
        have hwords := heach.1.leaves_ne_nil
        rw [Tree.leaves, Tree.leavesOf, List.head?_append_of_ne_nil _ hwords] at hword
        exact .first hrule hchosen (hcorner word hword)

theorem DerivesEach.corner {reads : Symbol → Bool}
    (hreads : ∀ name, reads (.nonterminal name) = false) {alternative : Alternative}
    {children : List Tree} (h : g.DerivesEach reads alternative children) :
    ∀ word ∈ (Tree.leavesOf children).head?, g.AlternativeCorner alternative word := by
  intro word hword
  cases h with
  | nil => cases hword
  | cons hfirst _ =>
      rw [Tree.leavesOf, List.head?_append_of_ne_nil _ hfirst.leaves_ne_nil] at hword
      exact ⟨_, rfl, hfirst.corner hreads word hword⟩

end PhraseStructure.Grammar
