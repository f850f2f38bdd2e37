import PhraseStructure.Proofs.Sentence.Expansion
import PhraseStructure.Proofs.TopDown.Soundness

/-!
# The sentences that can be generated

Every derivation tree can be drawn: one word for each of its nodes, in the
order in which the nodes are expanded, leads each choice to the alternative of
the node. Such words do not depend on what a source has drawn before, so the
words for the children of a node can stand one after the other.

With soundness, the sentences that some words lead to are those of the
derivation trees whose nodes nest up to the limit.
-/

namespace PhraseStructure.Sentence

open TopDown (reads)

variable {g : Grammar}

/-- The words lead to the tree, whatever was drawn before, if the levels
suffice. No other word is drawn. -/
def Steers (g : Grammar) (words : List UInt32) (symbol : Symbol) (tree : Tree) : Prop :=
  ∀ levels place s, tree.nesting ≤ levels → s.Offers words →
    (expandSymbol (expand g levels place) symbol).run s = (.ok tree, s.skip words.length)

def SteersEach (g : Grammar) (words : List UInt32) (symbols : List Symbol) (trees : List Tree) :
    Prop :=
  ∀ levels place s, Tree.nestingOf trees ≤ levels → s.Offers words →
    (expandSymbols (expand g levels place) symbols).run s = (.ok trees, s.skip words.length)

theorem steers_leaf {symbol : Symbol} (hread : reads symbol = true) :
    Steers g [] symbol (.leaf symbol.surface) := by
  intro levels place s _ _
  have hkind : symbol.isNonterminal = false := TopDown.reads_eq_true_iff.mp hread
  rw [expandSymbol_of_surface hkind]
  rfl

theorem SteersEach.cons {words more : List UInt32} {symbol : Symbol} {symbols : List Symbol}
    {tree : Tree} {trees : List Tree} (hfirst : Steers g words symbol tree)
    (hrest : SteersEach g more symbols trees) :
    SteersEach g (words ++ more) (symbol :: symbols) (tree :: trees) := by
  intro levels place s hnesting hoffers
  obtain ⟨hdeep, hothers⟩ := Nat.max_le.mp hnesting
  obtain ⟨hwords, hmore⟩ := WordSource.offers_append.mp hoffers
  have htree := hfirst levels place s hdeep hwords
  have htrees := hrest levels place _ hothers hmore
  rw [WordSource.skip_skip, ← List.length_append] at htrees
  exact expandSymbols_cons_eq_ok_iff.mpr ⟨tree, _, trees, htree, htrees, rfl⟩

theorem exists_steersEach {symbols : List Symbol} {trees : List Tree}
    (h : List.Forall₂ (fun symbol tree ↦ ∃ words, Steers g words symbol tree) symbols trees) :
    ∃ words, SteersEach g words symbols trees := by
  induction h with
  | nil => exact ⟨[], fun _ _ _ _ _ ↦ rfl⟩
  | cons hfirst _ ih =>
      obtain ⟨words, hwords⟩ := hfirst
      obtain ⟨more, hmore⟩ := ih
      exact ⟨words ++ more, .cons hwords hmore⟩

/-- One more word chooses the alternative of a node. -/
theorem SteersEach.node {words : List UInt32} {rule : Rule} {alternative : Alternative}
    {children : List Tree} (hrule : rule ∈ g.rules)
    (hchosen : alternative ∈ rule.alternatives) (hcount : rule.alternatives.length < UInt32.size)
    (heach : SteersEach g words alternative children) :
    ∃ word, Steers g (word :: words) (.nonterminal rule.name) (.node rule.name children) := by
  obtain ⟨word, hword⟩ := Choice.exists_word_choosing hchosen hcount
  refine ⟨word, fun levels place s hnesting hoffers ↦ ?_⟩
  obtain ⟨below, rfl⟩ := Nat.exists_eq_add_of_le' (Nat.le_trans (Nat.le_add_left 1 _) hnesting)
  have hlookup : g.rule? rule.name = some rule := Grammar.rule?_eq_some_iff.mpr ⟨hrule, rfl⟩
  have hchoose := hword s hoffers.1
  have hchildren := heach below ⟨none, rule.line⟩ s.advance (Nat.le_of_succ_le_succ hnesting)
    hoffers.2
  rw [WordSource.skip_advance] at hchildren
  rw [expandSymbol_of_nonterminal rfl]
  exact expand_eq_ok_iff.mpr ⟨below, rule, _, _, children, rfl, hlookup, hchoose, hchildren, rfl⟩

theorem exists_steers (hcount : ∀ rule ∈ g.rules, rule.alternatives.length < UInt32.size)
    {symbol : Symbol} {tree : Tree} (h : g.Derives reads symbol tree) :
    ∃ words, Steers g words symbol tree := by
  apply h.forall_induction (motive := fun symbol tree ↦ ∃ words, Steers g words symbol tree)
  case leaf =>
    intro symbol hread
    exact ⟨[], steers_leaf hread⟩
  case node =>
    intro rule hrule alternative hchosen _ children _ ih
    obtain ⟨words, heach⟩ := exists_steersEach ih
    obtain ⟨word, hnode⟩ := heach.node hrule hchosen (hcount rule hrule)
    exact ⟨word :: words, hnode⟩

theorem generateFrom_eq_ok_iff {name : String} {sentence : List String} {s stop : WordSource} :
    (generateFrom g name).run s = (.ok sentence, stop) ↔
      ∃ tree, (derive g name).run s = (.ok tree, stop) ∧ tree.words = sentence := by
  rw [generateFrom, map_eq_pure_bind, run_bind_eq_ok_iff]
  constructor
  · rintro ⟨tree, middle, htree, hend⟩
    obtain ⟨rfl, rfl⟩ := run_pure_eq_ok_iff.mp hend
    exact ⟨tree, htree, rfl⟩
  · rintro ⟨tree, htree, rfl⟩
    exact ⟨tree, stop, htree, rfl⟩

/-- If every rule has an alternative, though not more than words can number,
and none is empty, then the sentences that are generated from some words are
the leaves of derivation trees without the empty ones. A node of such a tree has
at most 64 nodes above it. -/
theorem exists_words_iff_exists_derives {g : Grammar} (hfilled : g.Filled)
    (hoffered : ∀ rule ∈ g.rules, rule.alternatives ≠ [] ∧ rule.alternatives.length < UInt32.size)
    (name : String) (sentence : List String) :
    (∃ words, ((generateFrom g name).run (.ofWords words)).1 = .ok sentence) ↔
      ∃ tree, g.Derives reads (.nonterminal name) tree ∧ tree.nesting ≤ 65 ∧
        tree.leaves.filter (· ≠ "") = sentence := by
  constructor
  · rintro ⟨words, hrun⟩
    have hpair : (generateFrom g name).run (.ofWords words) =
        (.ok sentence, ((generateFrom g name).run (.ofWords words)).2) := Prod.ext hrun rfl
    obtain ⟨tree, htree, hwords⟩ := generateFrom_eq_ok_iff.mp hpair
    have hunfolds := sound_expand hfilled (fun rule hrule ↦ (hoffered rule hrule).1) _ _ _ _ _ _
      htree
    exact ⟨tree, hunfolds.derives, hunfolds.nesting_le, tree.words_eq_filter.symm.trans hwords⟩
  · rintro ⟨tree, hderives, hnesting, hleaves⟩
    obtain ⟨words, hsteers⟩ := exists_steers (fun rule hrule ↦ (hoffered rule hrule).2) hderives
    have htree := hsteers _ Location.origin _ hnesting (WordSource.offers_ofWords words)
    rw [expandSymbol_of_nonterminal rfl] at htree
    have hwords := tree.words_eq_filter.trans hleaves
    refine ⟨words, ?_⟩
    rw [generateFrom_eq_ok_iff.mpr ⟨tree, htree, hwords⟩]

/-- The ending that is left out has an empty leaf. -/
theorem exists_words_iff_exists_derives_ending :
    TopDown.optionalEnding.Filled ∧
      (∀ rule ∈ TopDown.optionalEnding.rules,
        rule.alternatives ≠ [] ∧ rule.alternatives.length < UInt32.size) ∧
      TopDown.optionalEnding.Derives reads (.nonterminal "S")
        (.node "S" [.leaf "a", .node "End" [.leaf ""]]) ∧
      (∃ words, ((generateFrom TopDown.optionalEnding "S").run (.ofWords words)).1 =
        .ok ["a"]) ∧
      ¬ ∃ words, ((generateFrom TopDown.optionalEnding "S").run (.ofWords words)).1 =
        .ok ["a", ""] := by
  have hfilled : TopDown.optionalEnding.Filled := by unfold Grammar.Filled; decide
  have hoffered : ∀ rule ∈ TopDown.optionalEnding.rules,
      rule.alternatives ≠ [] ∧ rule.alternatives.length < UInt32.size := by decide
  have hparse : (TopDown.parse { emptyAtEnd := true } TopDown.optionalEnding ["a"]).outcome =
      .ok (.node "S" [.leaf "a", .node "End" [.leaf ""]]) := rfl
  obtain ⟨stop, haccounts, -⟩ := TopDown.accounts_of_parse hparse
  have hsentences := exists_words_iff_exists_derives hfilled hoffered "S"
  refine ⟨hfilled, hoffered, haccounts.derives, (hsentences ["a"]).mpr ?_, ?_⟩
  · exact ⟨_, haccounts.derives, by decide, by decide⟩
  · intro hgenerated
    obtain ⟨tree, -, -, hleaves⟩ := (hsentences ["a", ""]).mp hgenerated
    have hkept : "" ∈ tree.leaves.filter (· ≠ "") := hleaves ▸ by simp
    simpa using (List.mem_filter.mp hkept).2

end PhraseStructure.Sentence
