import PhraseStructure.Proofs.CornerRank
import PhraseStructure.Proofs.CornerTable
import PhraseStructure.Proofs.TopDown.Soundness

/-!
# Deterministic grammars lose nothing from the top

A symbol of which the next word is no left corner is not matched, and finding
that out takes no more levels than the rank of the symbol. In a deterministic
grammar the first word of a derivation tree is therefore no corner of the
alternatives in front of the right one. They are passed over, and the tree is
found if enough levels are left for its nodes and for passing over.

Between two words read, nested names go down in rank. So as many levels as
there are rules are enough for each word.
-/

namespace PhraseStructure.TopDown

variable {s : Settings} {g : Grammar} {tokens : List String}

/-! ## Passing over -/

/-- What is reached through first symbols has a rule and does not come back. -/
def Grounded (g : Grammar) (name : String) : Prop :=
  ∀ other, Relation.ReflTransGen g.BeginsWith name other →
    g.defines other = true ∧ ¬ Relation.TransGen g.BeginsWith other other

theorem Grounded.of_beginsWith {name other : String} (h : Grounded g name)
    (hbegins : g.BeginsWith name other) : Grounded g other :=
  fun _ hreached ↦ h _ (hreached.head hbegins)

theorem grounded_of_closed (hclosed : g.Closed)
    (hacyclic : ∀ name, ¬ Relation.TransGen g.BeginsWith name name) {name : String}
    (hname : g.defines name = true) : Grounded g name := by
  intro other hreached
  refine ⟨?_, hacyclic other⟩
  cases hreached with
  | refl => exact hname
  | tail _ hbegins =>
      obtain ⟨rule, hrule, -, rest, hchosen⟩ := hbegins
      have hused : .nonterminal other ∈ rule.alternatives.flatten :=
        List.mem_flatten.mpr ⟨_, hchosen, List.mem_cons_self⟩
      exact hclosed.2 rule hrule _ hused rfl

theorem matchPart_eq_none {descend : String → Nat → Step Match} {symbol : Symbol} {pos : Nat}
    (hdescend : symbol.isNonterminal = true →
      (descend symbol.surface pos).outcome = .ok none)
    (hcorner : ∀ word ∈ lookahead s tokens pos, ¬ g.Corner symbol word) :
    (matchPart s tokens descend symbol pos).outcome = .ok none := by
  cases hkind : symbol.isNonterminal with
  | true =>
      rw [matchPart_of_nonterminal hkind]
      exact hdescend hkind
  | false =>
      have hword : lookahead s tokens pos ≠ some symbol.surface := by
        intro hword
        exact hcorner _ hword (.surface hkind)
      rw [matchPart_of_surface hkind, matchSurface_eq, if_neg hword]
      rfl

/-- A name is passed over if the next word is none of its left corners. -/
theorem matchName_eq_none {levels : Nat} {name : String} {pos : Nat} (hgrounded : Grounded g name)
    (hlevels : g.cornerRank name ≤ levels)
    (hcorner : ∀ word ∈ lookahead s tokens pos, ¬ g.Corner (.nonterminal name) word) :
    (matchName s g tokens levels name pos).outcome = .ok none := by
  induction levels generalizing name with
  | zero =>
      have hpos := Grammar.cornerRank_pos (hgrounded name .refl).1
      omega
  | succ levels ih =>
      obtain ⟨hdefined, hacyclic⟩ := hgrounded name .refl
      obtain ⟨rule, hrule⟩ := Option.isSome_iff_exists.mp hdefined
      obtain ⟨hmem, rfl⟩ := Grammar.rule?_eq_some_iff.mp hrule
      refine matchName_eq_ok_iff.mpr ⟨levels, rule, rfl, hrule, ?_⟩
      apply matchAlternatives_eq_none_iff.mpr
      intro alternative hchosen
      apply matchAlternative_eq_none_iff.mpr
      intro first hfirst
      obtain ⟨rest, rfl⟩ := List.head?_eq_some_iff.mp hfirst
      have hnot : ∀ word ∈ lookahead s tokens pos, ¬ g.Corner first word :=
        fun word hword hfirst ↦ hcorner word hword (.first hmem hchosen hfirst)
      apply matchPart_eq_none _ hnot
      intro hkind
      have hsymbol := Symbol.eq_nonterminal hkind
      have hbegins : g.BeginsWith rule.name first.surface :=
        ⟨rule, hmem, rfl, rest, hsymbol ▸ hchosen⟩
      have hrank := Grammar.cornerRank_lt hbegins hacyclic
      have hbelow : g.cornerRank first.surface ≤ levels := by omega
      exact ih (hgrounded.of_beginsWith hbegins) hbelow (hsymbol ▸ hnot)

/-! ## Levels for a tree -/

mutual

/-- The levels that are needed to find a tree: at each node enough to pass
over what stands before its alternative, and one more than its children. -/
noncomputable def need (g : Grammar) : Tree → Nat
  | .leaf _ => 0
  | .node label children => max (g.cornerRank label) (needEach g children + 1)

noncomputable def needEach (g : Grammar) : List Tree → Nat
  | [] => 0
  | tree :: trees => max (need g tree) (needEach g trees)

end

theorem needEach_add_le {reads : Symbol → Bool} {symbols : List Symbol} {trees : List Tree}
    (heach : g.DerivesEach reads symbols trees)
    (h : List.Forall₂ (fun symbol tree ↦
      need g tree + g.rules.length ≤ tree.leaves.length * g.rules.length + g.symbolRank symbol)
      symbols trees) :
    needEach g trees ≤ (Tree.leavesOf trees).length * g.rules.length := by
  induction h with
  | nil => exact Nat.zero_le _
  | @cons symbol tree symbols trees hfirst _ ih =>
      cases heach with
      | cons _ hrest =>
          have hothers := ih hrest
          have hrank := g.symbolRank_le symbol
          rw [needEach, Tree.leavesOf, List.length_append, Nat.add_mul]
          omega

/-- Each word of a tree adds the number of rules to the levels needed. -/
theorem need_add_le {reads : Symbol → Bool}
    (hacyclic : ∀ name, ¬ Relation.TransGen g.BeginsWith name name) {symbol : Symbol} {tree : Tree}
    (h : g.Derives reads symbol tree) :
    need g tree + g.rules.length ≤
      tree.leaves.length * g.rules.length + g.symbolRank symbol := by
  apply h.forall_induction (motive := fun symbol tree ↦
    need g tree + g.rules.length ≤ tree.leaves.length * g.rules.length + g.symbolRank symbol)
  case leaf =>
    intro symbol _
    simp [need, Tree.leaves]
  case node =>
    intro rule hrule alternative hchosen hfilled children heach ih
    cases ih with
    | nil => exact (hfilled rfl).elim
    | @cons first child rest others hfirst hothers =>
        cases heach with
        | cons hchild hrest =>
            have hneed := needEach_add_le hrest hothers
            have hrank := Grammar.symbolRank_lt hrule hchosen (hacyclic rule.name)
            have hword := List.length_pos_iff.mpr hchild.leaves_ne_nil
            have hspan : g.rules.length ≤ child.leaves.length * g.rules.length :=
              Nat.le_mul_of_pos_left _ hword
            have hname : g.symbolRank (.nonterminal rule.name) = g.cornerRank rule.name := rfl
            rw [need, needEach, Tree.leaves, Tree.leavesOf, List.length_append, Nat.add_mul, hname]
            omega

/-! ## Finding -/

variable {descend : String → Nat → Step Match} {bound : Nat}

/-- All trees that need no more levels than there are one level down are found
by it. -/
def Complete (s : Settings) (g : Grammar) (tokens : List String) (bound : Nat)
    (descend : String → Nat → Step Match) : Prop :=
  ∀ name pos tree stop, g.Derives reads (.nonterminal name) tree →
    Reads s tokens pos tree.leaves stop → need g tree ≤ bound →
      (descend name pos).outcome = .ok (some (tree, stop))

theorem Complete.matchPart (hcomplete : Complete s g tokens bound descend) {symbol : Symbol}
    {pos stop : Nat} {tree : Tree} (hderives : g.Derives reads symbol tree)
    (hwords : Reads s tokens pos tree.leaves stop) (hneed : need g tree ≤ bound) :
    (matchPart s tokens descend symbol pos).outcome = .ok (some (tree, stop)) := by
  cases hkind : symbol.isNonterminal with
  | true =>
      rw [matchPart_of_nonterminal hkind]
      exact hcomplete _ _ _ _ (Symbol.eq_nonterminal hkind ▸ hderives) hwords hneed
  | false =>
      obtain ⟨-, rfl⟩ := hderives.eq_leaf hkind
      obtain ⟨hword, hstop⟩ := hwords
      cases hstop
      rw [matchPart_of_surface hkind, matchSurface_eq, if_pos hword]
      rfl

theorem Complete.matchRest (hcomplete : Complete s g tokens bound descend) {symbols : List Symbol}
    {pos stop : Nat} {trees : List Tree} (hderives : g.DerivesEach reads symbols trees)
    (hwords : Reads s tokens pos (Tree.leavesOf trees) stop) (hneed : needEach g trees ≤ bound) :
    (matchRest s tokens descend symbols pos).outcome = .ok (trees, stop) := by
  induction symbols generalizing pos trees with
  | nil =>
      cases hderives
      cases hwords
      rfl
  | cons symbol rest ih =>
      cases hderives with
      | cons hfirst hrest =>
          obtain ⟨next, hhead, htail⟩ := reads_append_iff.mp hwords
          obtain ⟨hheadNeed, htailNeed⟩ := Nat.max_le.mp hneed
          have hpart := hcomplete.matchPart hfirst hhead hheadNeed
          have hothers := ih hrest htail htailNeed
          exact matchRest_cons_eq_ok_iff.mpr ⟨_, next, _, hpart, hothers, rfl⟩

theorem matchAlternative_eq_none (hdet : g.Deterministic) {levels : Nat} {rule : Rule}
    (hrule : rule ∈ g.rules) {passed : Alternative} (hpassed : passed ∈ rule.alternatives)
    {pos : Nat} (hlevels : g.cornerRank rule.name ≤ levels + 1)
    (hcorner : ∀ word ∈ lookahead s tokens pos, ¬ g.AlternativeCorner passed word) :
    (matchAlternative s tokens (matchName s g tokens levels) rule.name passed pos).outcome =
      .ok none := by
  apply matchAlternative_eq_none_iff.mpr
  intro first hfirst
  obtain ⟨rest, rfl⟩ := List.head?_eq_some_iff.mp hfirst
  have hnot : ∀ word ∈ lookahead s tokens pos, ¬ g.Corner first word :=
    fun word hword h ↦ hcorner word hword ⟨first, rfl, h⟩
  apply matchPart_eq_none _ hnot
  intro hkind
  have hused : first ∈ rule.alternatives.flatten :=
    List.mem_flatten.mpr ⟨_, hpassed, List.mem_cons_self⟩
  have hgrounded : Grounded g first.surface :=
    grounded_of_closed hdet.closed hdet.wellFounded (hdet.closed.2 rule hrule first hused hkind)
  have hrank := Grammar.symbolRank_lt hrule hpassed (hdet.wellFounded rule.name)
  rw [Grammar.symbolRank, if_pos hkind] at hrank
  exact matchName_eq_none hgrounded (by omega) (Symbol.eq_nonterminal hkind ▸ hnot)

/-- A derivation tree whose words come next is found if its levels are left. -/
theorem complete_matchName (hdet : g.Deterministic) (levels : Nat) :
    Complete s g tokens levels (matchName s g tokens levels) := by
  induction levels with
  | zero =>
      intro name pos tree stop hderives hwords hneed
      obtain ⟨rule, hrule, rfl, -, -, -, children, rfl, -⟩ := hderives.eq_node rfl
      have hpos := Grammar.cornerRank_pos (Grammar.defines_iff.mpr ⟨rule, hrule, rfl⟩)
      have hroot := (Nat.max_le.mp hneed).1
      omega
  | succ levels ih =>
      intro name pos tree stop hderives hwords hneed
      obtain ⟨word, words, hleaves⟩ := List.exists_cons_of_ne_nil hderives.leaves_ne_nil
      have hreads : Reads s tokens pos (word :: words) stop := hleaves ▸ hwords
      have hword : lookahead s tokens pos = some word := hreads.1
      obtain ⟨rule, hrule, rfl, alternative, hchosen, hfilled, children, rfl, heach⟩ :=
        hderives.eq_node rfl
      obtain ⟨hlevels, hbelow⟩ := Nat.max_le.mp hneed
      obtain ⟨before, behind, hsplit⟩ := List.append_of_mem hchosen
      have hlookup : g.rule? rule.name = some rule := Grammar.rule?_eq_some_iff.mpr ⟨hrule, rfl⟩
      refine matchName_eq_ok_iff.mpr ⟨levels, rule, rfl, hlookup, ?_⟩
      refine matchAlternatives_eq_some_iff.mpr ⟨before, alternative, behind, hsplit, ?_, ?_⟩
      · -- the next word is a corner of the alternative, so of none in front of it
        intro passed hpassed
        rw [Tree.leaves] at hleaves
        have hcorner := heach.corner (fun _ ↦ rfl) word (by rw [hleaves]; rfl)
        have hapart := hdet.apart rule hrule
        rw [hsplit, List.pairwise_append] at hapart
        have hdeclared : passed ∈ rule.alternatives := by simp [hsplit, hpassed]
        apply matchAlternative_eq_none hdet hrule hdeclared hlevels
        intro other hnext hother
        cases hword.symm.trans hnext
        exact hapart.2.2 passed hpassed alternative List.mem_cons_self word hother hcorner
      · cases heach with
        | nil => exact (hfilled rfl).elim
        | @cons first rest child others hfirst hrest =>
            obtain ⟨next, hhead, htail⟩ := reads_append_iff.mp hwords
            obtain ⟨hneedChild, hneedOthers⟩ := Nat.max_le.mp (Nat.le_of_succ_le_succ hbelow)
            have hchild := ih.matchPart hfirst hhead hneedChild
            have hothers := ih.matchRest hrest htail hneedOthers
            exact matchAlternative_eq_some_iff.mpr
              ⟨first, rest, child, next, others, rfl, hchild, hothers, rfl⟩

/-- A derivation tree over all of the tokens is what a parse returns. -/
theorem parse_of_need (hdet : g.Deterministic) {tree : Tree}
    (hderives : g.Derives reads (.nonterminal g.start) tree)
    (hwords : Reads s tokens 0 tree.leaves tokens.length) (hneed : need g tree ≤ s.maxDepth + 1) :
    (parse s g tokens).outcome = .ok tree := by
  apply parse_eq_ok_iff.mpr
  refine ⟨tokens.length, ?_, fun _ ↦ Nat.le_refl _⟩
  exact complete_matchName hdet _ _ _ _ _ hderives hwords hneed

/-- In a deterministic grammar, parsing from the top with all tokens to be used
returns exactly the derivation trees of the start symbol over the tokens, if
rules may nest as often as there are rules for each token and once more. -/
theorem parse_eq_ok_iff_derives {g : Grammar} (hdet : g.Deterministic) (tokens : List String)
    {maxDepth : Nat} (hdeep : (tokens.length + 1) * g.rules.length ≤ maxDepth) (tree : Tree) :
    (parse { maxDepth, fullInput := true } g tokens).outcome = .ok tree ↔
      g.Derives reads (.nonterminal g.start) tree ∧ tree.leaves = tokens := by
  constructor
  · intro h
    obtain ⟨stop, haccounts, hfull⟩ := accounts_of_parse h
    obtain ⟨hstop, empties, hleaves, -, hnone⟩ := haccounts.words.eq_take
    refine ⟨haccounts.derives, ?_⟩
    have hall : stop = tokens.length := Nat.le_antisymm hstop (hfull rfl)
    rw [hleaves, hnone rfl, hall]
    simp
  · rintro ⟨hderives, rfl⟩
    have hneed := need_add_le hdet.wellFounded hderives
    have hrank := g.symbolRank_le (.nonterminal g.start)
    rw [Nat.add_mul] at hdeep
    have henough : need g tree ≤ maxDepth + 1 := by omega
    apply parse_eq_ok_iff.mpr
    refine ⟨tree.leaves.length, ?_, fun _ ↦ Nat.le_refl _⟩
    exact complete_matchName hdet _ _ _ _ _ hderives reads_all henough

/-- Sentences of the words `a` and `b a` that end in `c c`. -/
def doubleEnding : Grammar :=
  .ofRules [⟨"S", [[.nonterminal "Word", .nonterminal "S"], [.nonterminal "End"]], 0⟩,
    ⟨"Word", [[.terminal "a"], [.terminal "b", .terminal "a"]], 1⟩,
    ⟨"End", [[.terminal "c", .terminal "c"]], 2⟩]

theorem deterministic_doubleEnding : doubleEnding.Deterministic :=
  Grammar.deterministic_of_table
    (fun name ↦ if name = "S" then ["a", "b", "c"] else if name = "Word" then ["a", "b"] else ["c"])
    (fun name ↦ if name = "S" then 1 else 0) (by unfold Grammar.Filled; decide)
    (by unfold Grammar.Closed; decide) (by decide) (by decide) (by decide)

theorem parse_eq_ok_iff_derives_doubleEnding :
    doubleEnding.Deterministic ∧
      (["b", "a", "c", "c"].length + 1) * doubleEnding.rules.length ≤ 15 ∧
      ((parse { maxDepth := 15, fullInput := true } doubleEnding ["b", "a", "c", "c"]).outcome =
          .ok (.node "S" [.node "Word" [.leaf "b", .leaf "a"],
            .node "S" [.node "End" [.leaf "c", .leaf "c"]]]) ↔
        doubleEnding.Derives reads (.nonterminal doubleEnding.start)
            (.node "S" [.node "Word" [.leaf "b", .leaf "a"],
              .node "S" [.node "End" [.leaf "c", .leaf "c"]]]) ∧
          (Tree.node "S" [.node "Word" [.leaf "b", .leaf "a"],
            .node "S" [.node "End" [.leaf "c", .leaf "c"]]]).leaves = ["b", "a", "c", "c"]) :=
  ⟨deterministic_doubleEnding, by decide,
    parse_eq_ok_iff_derives deterministic_doubleEnding _ (by decide) _⟩

end PhraseStructure.TopDown
