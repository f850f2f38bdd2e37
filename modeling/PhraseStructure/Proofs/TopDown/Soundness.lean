import PhraseStructure.Proofs.Derivation
import PhraseStructure.Proofs.TopDown.Outcome
import PhraseStructure.Proofs.TopDown.Reading

/-!
# What a tree from the top says about the tokens

A tree that is found for a symbol derives from it, its leaves are the words
read between the two positions, and its depth is bounded by the levels that
were left. This holds of the parts of an alternative if it holds one level
down, hence of every name at every level.

For a whole parse the leaves are a front part of the tokens, followed by empty
leaves if all tokens were read.
-/

namespace PhraseStructure.TopDown

/-- The tree accounts for the words between two positions as a derivation of
the symbol. -/
structure Accounts (s : Settings) (g : Grammar) (tokens : List String) (bound : Nat)
    (symbol : Symbol) (pos : Nat) (tree : Tree) (stop : Nat) : Prop where
  derives : g.Derives reads symbol tree
  words : Reads s tokens pos tree.leaves stop
  depth_le : tree.depth ≤ bound

structure AccountsEach (s : Settings) (g : Grammar) (tokens : List String) (bound : Nat)
    (symbols : List Symbol) (pos : Nat) (trees : List Tree) (stop : Nat) : Prop where
  derives : g.DerivesEach reads symbols trees
  words : Reads s tokens pos (Tree.leavesOf trees) stop
  depth_le : Tree.depthOf trees ≤ bound

section

variable {s : Settings} {g : Grammar} {tokens : List String} {bound : Nat}

theorem AccountsEach.nil (pos : Nat) : AccountsEach s g tokens bound [] pos [] pos :=
  ⟨.nil, rfl, Nat.zero_le _⟩

theorem AccountsEach.cons {symbol : Symbol} {rest : List Symbol} {pos next stop : Nat}
    {tree : Tree} {trees : List Tree} (hfirst : Accounts s g tokens bound symbol pos tree next)
    (hrest : AccountsEach s g tokens bound rest next trees stop) :
    AccountsEach s g tokens bound (symbol :: rest) pos (tree :: trees) stop where
  derives := .cons hfirst.derives hrest.derives
  words := reads_append_iff.mpr ⟨next, hfirst.words, hrest.words⟩
  depth_le := Nat.max_le.mpr ⟨hfirst.depth_le, hrest.depth_le⟩

theorem AccountsEach.node {rule : Rule} {alternative : Alternative} {pos stop : Nat}
    {trees : List Tree} (hrule : rule ∈ g.rules) (hchosen : alternative ∈ rule.alternatives)
    (hfilled : alternative ≠ [])
    (heach : AccountsEach s g tokens bound alternative pos trees stop) :
    Accounts s g tokens (bound + 1) (.nonterminal rule.name) pos (.node rule.name trees) stop where
  derives := .node hrule hchosen hfilled heach.derives
  words := heach.words
  depth_le := by
    have hdepth := heach.depth_le
    rw [Tree.depth]
    omega

theorem accounts_leaf {symbol : Symbol} {pos : Nat} (hsymbol : symbol.isNonterminal = false)
    (hword : lookahead s tokens pos = some symbol.surface) :
    Accounts s g tokens (bound + 1) symbol pos (.leaf symbol.surface) (after tokens pos) where
  derives := .leaf (reads_eq_true_iff.mpr hsymbol)
  words := ⟨hword, rfl⟩
  depth_le := Nat.le_add_left 1 bound

variable {descend : String → Nat → Step Match}

/-- All trees found one level down account for what they read. -/
def Sound (s : Settings) (g : Grammar) (tokens : List String) (bound : Nat)
    (descend : String → Nat → Step Match) : Prop :=
  ∀ name pos tree stop, (descend name pos).outcome = .ok (some (tree, stop)) →
    Accounts s g tokens bound (.nonterminal name) pos tree stop

theorem Sound.matchPart (hsound : Sound s g tokens (bound + 1) descend) {symbol : Symbol}
    {pos stop : Nat} {tree : Tree}
    (h : (matchPart s tokens descend symbol pos).outcome = .ok (some (tree, stop))) :
    Accounts s g tokens (bound + 1) symbol pos tree stop := by
  cases hkind : symbol.isNonterminal with
  | true =>
      rw [matchPart_of_nonterminal hkind] at h
      rw [Symbol.eq_nonterminal hkind]
      exact hsound _ _ _ _ h
  | false =>
      rw [matchPart_of_surface hkind, matchSurface_eq] at h
      by_cases hword : lookahead s tokens pos = some symbol.surface
      · rw [if_pos hword] at h
        cases h
        exact accounts_leaf hkind hword
      · rw [if_neg hword] at h
        cases h

theorem Sound.matchRest (hsound : Sound s g tokens (bound + 1) descend) {symbols : List Symbol}
    {pos stop : Nat} {trees : List Tree}
    (h : (matchRest s tokens descend symbols pos).outcome = .ok (trees, stop)) :
    AccountsEach s g tokens (bound + 1) symbols pos trees stop := by
  induction symbols generalizing pos trees with
  | nil =>
      cases h
      exact .nil _
  | cons symbol rest ih =>
      obtain ⟨tree, next, others, hfirst, hrest, rfl⟩ := matchRest_cons_eq_ok_iff.mp h
      have htree := hsound.matchPart hfirst
      have hothers := ih hrest
      exact .cons htree hothers

theorem Sound.matchAlternatives (hsound : Sound s g tokens (bound + 1) descend) {rule : Rule}
    (hrule : rule ∈ g.rules) {pos stop : Nat} {tree : Tree}
    (h : (matchAlternatives s tokens descend rule.name rule.alternatives pos).outcome =
      .ok (some (tree, stop))) :
    Accounts s g tokens (bound + 2) (.nonterminal rule.name) pos tree stop := by
  obtain ⟨before, alternative, behind, hsplit, -, hfound⟩ := matchAlternatives_eq_some_iff.mp h
  have hchosen : alternative ∈ rule.alternatives := by simp [hsplit]
  obtain ⟨first, rest, child, next, others, rfl, hfirst, hrest, rfl⟩ :=
    matchAlternative_eq_some_iff.mp hfound
  have hchild := hsound.matchPart hfirst
  have hothers := hsound.matchRest hrest
  have heach := AccountsEach.cons hchild hothers
  exact heach.node hrule hchosen (List.cons_ne_nil first rest)

/-- Trees found with some levels left are at most one deeper than the levels. -/
theorem sound_matchName (levels : Nat) :
    Sound s g tokens (levels + 1) (matchName s g tokens levels) := by
  induction levels with
  | zero =>
      intro name pos tree stop h
      cases h
  | succ levels ih =>
      intro name pos tree stop h
      obtain ⟨below, rule, hlevels, hrule, h⟩ := matchName_eq_ok_iff.mp h
      cases hlevels
      obtain ⟨hmem, rfl⟩ := Grammar.rule?_eq_some_iff.mp hrule
      exact ih.matchAlternatives hmem h

end

theorem accounts_of_parse {s : Settings} {g : Grammar} {tokens : List String} {tree : Tree}
    (h : (parse s g tokens).outcome = .ok tree) :
    ∃ stop, Accounts s g tokens (s.maxDepth + 2) (.nonterminal g.start) 0 tree stop ∧
      (s.fullInput = true → tokens.length ≤ stop) := by
  obtain ⟨stop, hname, hfull⟩ := parse_eq_ok_iff.mp h
  exact ⟨stop, sound_matchName _ _ _ _ _ hname, hfull⟩

/-- Whatever the grammar and the settings, a parse from the top returns only
derivation trees of the start symbol. The leaves are the tokens up to some
position and then empty leaves, of which there are none unless the settings
allow them and all tokens were read. -/
theorem parse_sound {s : Settings} {g : Grammar} {tokens : List String} {tree : Tree}
    (h : (parse s g tokens).outcome = .ok tree) :
    g.Derives reads (.nonterminal g.start) tree ∧
      (∃ stop empties, stop ≤ tokens.length ∧
        tree.leaves = tokens.take stop ++ List.replicate empties "" ∧
        (s.emptyAtEnd = false → empties = 0 ∧ 1 ≤ stop) ∧
        (0 < empties → stop = tokens.length) ∧
        (s.fullInput = true → stop = tokens.length)) ∧
      tree.depth ≤ s.maxDepth + 2 := by
  obtain ⟨stop, haccounts, hfull⟩ := accounts_of_parse h
  obtain ⟨hstop, empties, hleaves, hend, hnone⟩ := haccounts.words.eq_take
  have hall : s.fullInput = true → stop = tokens.length :=
    fun hset ↦ Nat.le_antisymm hstop (hfull hset)
  refine ⟨haccounts.derives, ⟨stop, empties, hstop, hleaves, ?_, hend, hall⟩, haccounts.depth_le⟩
  intro hstrict
  exact ⟨hnone hstrict, haccounts.words.lt_of_strict hstrict haccounts.derives.leaves_ne_nil⟩

/-- A sentence with an ending that may be left out. -/
def optionalEnding : Grammar :=
  .ofRules [⟨"S", [[.terminal "a", .nonterminal "End"]], 0⟩,
    ⟨"End", [[.terminal "!"], [.terminal ""]], 1⟩]

theorem parse_sound_without_ending :
    (parse { emptyAtEnd := true, fullInput := true } optionalEnding ["a"]).outcome =
        .ok (.node "S" [.leaf "a", .node "End" [.leaf ""]]) ∧
      optionalEnding.Derives reads (.nonterminal "S")
        (.node "S" [.leaf "a", .node "End" [.leaf ""]]) ∧
      (∃ stop empties, stop ≤ 1 ∧ ["a", ""] = ["a"].take stop ++ List.replicate empties "" ∧
        (true = false → empties = 0 ∧ 1 ≤ stop) ∧ (0 < empties → stop = 1) ∧
          (true = true → stop = 1)) ∧
      3 ≤ 514 := by
  have hparse : (parse { emptyAtEnd := true, fullInput := true } optionalEnding ["a"]).outcome =
      .ok (.node "S" [.leaf "a", .node "End" [.leaf ""]]) := rfl
  exact ⟨hparse, parse_sound hparse⟩

end PhraseStructure.TopDown
