import PhraseStructure.Proofs.Reader.RoundTrip
import PhraseStructure.Proofs.TopDown.Shadowing
import PhraseStructure.Proofs.TopDown.Soundness
import PhraseStructure.Tree.Inorder

/-!
# What the events of a parse from the top say

Alternatives that are passed over write nothing, and once the parser is
committed there is a tree or a fault. So every event of a match that finds a
tree belongs to a node of that tree. A node is told when its first child is
found: behind the events of that child and in front of those of the others. The
events are therefore the inorder of the tree.

An event holds the first symbol of an alternative. In a grammar that was read,
all symbols of alternatives are terminals and nonterminals, so the first child
of the node shows which symbol that was.
-/

namespace PhraseStructure

/-- The terminal or nonterminal that a tree stands for. -/
def Tree.symbol : Tree → Symbol
  | leaf surface => .terminal surface
  | node label _ => .nonterminal label

namespace Grammar

/-- Alternatives hold terminals and nonterminals only. -/
def OfParts (g : Grammar) : Prop :=
  ∀ rule ∈ g.rules, ∀ alternative ∈ rule.alternatives, ∀ symbol ∈ alternative, symbol.isPart

theorem WellFormed.ofParts {g : Grammar} (h : g.WellFormed) : g.OfParts :=
  fun rule hrule alternative hchosen symbol hmem ↦
    ((h rule hrule).writable alternative hchosen symbol hmem).isPart

end Grammar

namespace TopDown

variable {s : Settings} {g : Grammar} {tokens : List String} {descend : String → Nat → Step Match}

theorem symbol_eq_of_derives {symbol : Symbol} {tree : Tree} (hpart : symbol.isPart)
    (h : g.Derives reads symbol tree) : tree.symbol = symbol := by
  cases h with
  | node => rfl
  | leaf hread =>
      rw [reads_eq_true_iff] at hread
      obtain ⟨kind, surface⟩ := symbol
      rcases hpart with rfl | rfl
      · rfl
      · cases hread

/-! ## One level -/

/-- The event of a node whose first child ends with the last of the words. -/
def commitment (tokens : List String) (label : String) (first : Tree) (words : List String) :
    Event :=
  .committed label first.symbol (tokensUsed tokens words)

/-- One level down, the events of what is found are the inorder of its tree. -/
def Tells (s : Settings) (tokens : List String) (descend : String → Nat → Step Match) : Prop :=
  ∀ name before pos tree stop, Reads s tokens 0 before pos →
    (descend name pos).outcome = .ok (some (tree, stop)) →
      (descend name pos).events = tree.inorder (commitment tokens) before

section

variable {bound : Nat} {before : List String} {pos stop : Nat}

theorem Tells.matchPart (htells : Tells s tokens descend) (hbefore : Reads s tokens 0 before pos)
    {symbol : Symbol} {tree : Tree}
    (h : (matchPart s tokens descend symbol pos).outcome = .ok (some (tree, stop))) :
    (matchPart s tokens descend symbol pos).events = tree.inorder (commitment tokens) before := by
  cases hkind : symbol.isNonterminal with
  | true =>
      rw [matchPart_of_nonterminal hkind] at h ⊢
      exact htells _ _ _ _ _ hbefore h
  | false =>
      rw [matchPart_of_surface hkind, matchSurface_eq] at h ⊢
      split at h
      next =>
          cases h
          rfl
      next => cases h

/-- What has been read when a symbol has matched. -/
theorem Sound.reads_append (hsound : Sound s g tokens (bound + 1) descend)
    (hbefore : Reads s tokens 0 before pos) {symbol : Symbol} {tree : Tree}
    (h : (TopDown.matchPart s tokens descend symbol pos).outcome = .ok (some (tree, stop))) :
    Reads s tokens 0 (before ++ tree.leaves) stop :=
  reads_append_iff.mpr ⟨pos, hbefore, (hsound.matchPart h).words⟩

theorem events_matchRest_cons {symbol : Symbol} {rest : List Symbol} {next : Nat} {tree : Tree}
    {others : List Tree}
    (hfirst : (matchPart s tokens descend symbol pos).outcome = .ok (some (tree, next)))
    (hrest : (matchRest s tokens descend rest next).outcome = .ok (others, stop)) :
    (matchRest s tokens descend (symbol :: rest) pos).events =
      (matchPart s tokens descend symbol pos).events ++
        (matchRest s tokens descend rest next).events := by
  rw [matchRest, Traced.events_bind_of_ok hfirst, Traced.events_bind_of_ok hrest,
    Traced.events_pure, List.append_nil]

theorem Tells.matchRest (htells : Tells s tokens descend)
    (hsound : Sound s g tokens (bound + 1) descend) (hbefore : Reads s tokens 0 before pos)
    {symbols : List Symbol} {trees : List Tree}
    (h : (matchRest s tokens descend symbols pos).outcome = .ok (trees, stop)) :
    (matchRest s tokens descend symbols pos).events =
      Tree.inorderOf (commitment tokens) before trees := by
  induction symbols generalizing before pos trees with
  | nil =>
      cases h
      rfl
  | cons symbol rest ih =>
      obtain ⟨tree, next, others, hfirst, hrest, rfl⟩ := matchRest_cons_eq_ok_iff.mp h
      have hnext := hsound.reads_append hbefore hfirst
      rw [events_matchRest_cons hfirst hrest, htells.matchPart hbefore hfirst, ih hnext hrest,
        Tree.inorderOf]

theorem events_matchAlternative {name : String} {first : Symbol} {rest : List Symbol} {next : Nat}
    {child : Tree} {others : List Tree}
    (hfirst : (matchPart s tokens descend first pos).outcome = .ok (some (child, next)))
    (hrest : (matchRest s tokens descend rest next).outcome = .ok (others, stop)) :
    (matchAlternative s tokens descend name (first :: rest) pos).events =
      (matchPart s tokens descend first pos).events ++
        .committed name first next :: (matchRest s tokens descend rest next).events := by
  rw [matchAlternative, Traced.events_bind_of_ok hfirst,
    Traced.events_bind_of_ok (Traced.outcome_emit _), Traced.events_bind_of_ok hrest,
    Traced.events_emit, Traced.events_pure, List.append_nil, List.singleton_append]

theorem Tells.matchAlternative (htells : Tells s tokens descend)
    (hsound : Sound s g tokens (bound + 1) descend) (hbefore : Reads s tokens 0 before pos)
    {alternative : Alternative} (hparts : ∀ symbol ∈ alternative, symbol.isPart) {name : String}
    {tree : Tree}
    (h : (matchAlternative s tokens descend name alternative pos).outcome =
      .ok (some (tree, stop))) :
    (matchAlternative s tokens descend name alternative pos).events =
      tree.inorder (commitment tokens) before := by
  obtain ⟨first, rest, child, next, others, rfl, hfirst, hrest, rfl⟩ :=
    matchAlternative_eq_some_iff.mp h
  have hnext := hsound.reads_append hbefore hfirst
  have hsymbol : child.symbol = first :=
    symbol_eq_of_derives (hparts first List.mem_cons_self) (hsound.matchPart hfirst).derives
  rw [events_matchAlternative hfirst hrest, htells.matchPart hbefore hfirst,
    htells.matchRest hsound hnext hrest, Tree.inorder, commitment, hsymbol, hnext.tokensUsed_eq]

end

/-- What is passed over in front of the alternative that is found writes nothing. -/
theorem events_matchAlternatives (hsilent : Silent descend) {name : String}
    {before after : List Alternative} {alternative : Alternative} {pos : Nat} {found : Tree × Nat}
    (hpassed : ∀ passed ∈ before,
      (matchAlternative s tokens descend name passed pos).outcome = .ok none)
    (hfound : (matchAlternative s tokens descend name alternative pos).outcome =
      .ok (some found)) :
    (matchAlternatives s tokens descend name (before ++ alternative :: after) pos).events =
      (matchAlternative s tokens descend name alternative pos).events := by
  induction before with
  | nil =>
      rw [List.nil_append, matchAlternatives, Traced.events_bind_of_ok hfound, Traced.events_pure,
        List.append_nil]
  | cons passed before ih =>
      obtain ⟨hfirst, hpassed⟩ := List.forall_mem_cons.mp hpassed
      rw [List.cons_append, matchAlternatives, hsilent.matchAlternative hfirst, pure_bind]
      exact ih hpassed

/-! ## All levels -/

theorem tells_matchName (hg : g.OfParts) (levels : Nat) :
    Tells s tokens (matchName s g tokens levels) := by
  induction levels with
  | zero =>
      intro name before pos tree stop _ h
      cases h
  | succ levels ih =>
      intro name before pos tree stop hbefore h
      obtain ⟨_, rule, hlevels, hrule, hsome⟩ := matchName_eq_ok_iff.mp h
      cases hlevels
      obtain ⟨passed, alternative, behind, hsplit, hpassed, hfound⟩ :=
        matchAlternatives_eq_some_iff.mp hsome
      have hchosen : alternative ∈ rule.alternatives := by simp [hsplit]
      have hparts := hg rule (Grammar.rule?_eq_some_iff.mp hrule).1 alternative hchosen
      rw [matchName, hrule]
      change (matchAlternatives s tokens _ name rule.alternatives pos).events = _
      rw [hsplit, events_matchAlternatives (silent_matchName levels) hpassed hfound]
      exact ih.matchAlternative (sound_matchName levels) hbefore hparts hfound

/-- The events of a parse that returns a tree are the inorder of the tree and
one that tells of the whole parse. -/
theorem events_parse (hg : g.OfParts) {tree : Tree} (h : (parse s g tokens).outcome = .ok tree) :
    (parse s g tokens).events =
      tree.inorder (commitment tokens) [] ++
        [.matched g.start (tokensUsed tokens tree.leaves) tokens.length tree.depth] := by
  obtain ⟨stop, hname, hfull⟩ := parse_eq_ok_iff.mp h
  have hstop := (sound_matchName _ _ _ _ _ hname).words.tokensUsed_eq
  have hleft : (if s.fullInput then tokens[stop]? else none) = none := by
    split
    next hset => exact List.getElem?_eq_none_iff.mpr (hfull hset)
    next => rfl
  have hnothing : Reads s tokens 0 [] 0 := rfl
  rw [parse, Traced.events_bind_of_ok hname, tells_matchName hg _ _ _ _ _ _ hnothing hname]
  simp only [hleft]
  rw [Traced.events_bind_of_ok (Traced.outcome_emit _), Traced.events_emit, Traced.events_pure,
    List.append_nil, hstop]

/-! ## Lines -/

def commitLine (label : String) (first : Symbol) (position : Nat) : String :=
  label ++ ": committed to `" ++ first.written ++ "` at token " ++ toString position

def matchLine (start : String) (consumed total depth : Nat) : String :=
  start ++ " matched " ++ toString consumed ++ " of " ++ toString total ++ " token(s), " ++
    toString depth ++ " level(s) deep"

theorem text_events_parse (hg : g.OfParts) {tree : Tree}
    (h : (parse s g tokens).outcome = .ok tree) :
    (parse s g tokens).events.map Event.text =
      tree.inorder (fun label first words ↦
          commitLine label first.symbol (tokensUsed tokens words)) [] ++
        [matchLine g.start (tokensUsed tokens tree.leaves) tokens.length tree.depth] := by
  rw [events_parse hg h, List.map_append, Tree.map_inorder]
  rfl

/-- A grammar that was read may be given another start symbol, and the settings
may be any. If a parse returns a tree, its lines are one for each node with
children, in the inorder of the tree, and a last one for the whole tree. The line
of a node names its label, the first symbol of the alternative that its children
follow, and how many tokens are used up when its first child ends. The children
of every node follow an alternative, and their first one shows its first symbol. -/
theorem lines_eq_inorder {text : String} {file : Option String} {g : Grammar}
    (hread : (Grammar.read text file).outcome = .ok g) (start : String) (s : Settings)
    (tokens : List String) {tree : Tree}
    (htree : (parse s (g.startingAt start) tokens).outcome = .ok tree) :
    (parse s (g.startingAt start) tokens).events.map Event.text =
        tree.inorder (fun label first words ↦
            commitLine label first.symbol (tokensUsed tokens words)) [] ++
          [matchLine start (tokensUsed tokens tree.leaves) tokens.length tree.depth] ∧
      (parse s (g.startingAt start) tokens).events.length =
        Tree.branchings tree.preorder + 1 ∧
      (∃ empties, tree.leaves =
        tokens.take (tokensUsed tokens tree.leaves) ++ List.replicate empties "") ∧
      (g.startingAt start).Derives reads (.nonterminal start) tree ∧
      ∀ rule ∈ g.rules, ∀ alternative ∈ rule.alternatives, ∀ first others,
        (g.startingAt start).DerivesEach reads alternative (first :: others) →
          alternative.head? = some first.symbol := by
  have hparts : g.OfParts := (Grammar.wellFormed_of_read hread).ofParts
  have hlines := text_events_parse (g := g.startingAt start) hparts htree
  obtain ⟨stop, haccounts, -⟩ := accounts_of_parse htree
  refine ⟨hlines, ?_, ?_, haccounts.derives, ?_⟩
  · have hlength := congrArg List.length hlines
    rwa [List.length_map, List.length_append, Tree.length_inorder] at hlength
  · obtain ⟨-, empties, hleaves, -⟩ := haccounts.words.eq_take
    rw [haccounts.words.tokensUsed_eq]
    exact ⟨empties, hleaves⟩
  · intro rule hrule alternative hchosen first others heach
    cases heach with
    | cons hfirst _ =>
        have hpart := hparts rule hrule _ hchosen _ List.mem_cons_self
        rw [List.head?_cons, symbol_eq_of_derives hpart hfirst]

/-- Words with a mark behind them that may be left out. -/
def optionalMark : Grammar :=
  .ofRules [⟨"S", [[.nonterminal "Mark"], [.nonterminal "Word", .nonterminal "Mark"]], 0⟩,
    ⟨"Word", [[.terminal "a", .terminal "b"]], 1⟩, ⟨"Mark", [[.terminal "!"], [.terminal ""]], 2⟩]

theorem lines_eq_inorder_optionalMark :
    (parse { emptyAtEnd := true } optionalMark ["a", "b"]).events.map Event.text =
      ["Word: committed to `\"a\"` at token 1", "S: committed to `Word` at token 2",
        "Mark: committed to `\"\"` at token 2", "S matched 2 of 2 token(s), 3 level(s) deep"] := by
  have hread : (Grammar.read
      "S -> Mark | Word Mark\nWord -> \"a\" \"b\"\nMark -> \"!\" | \"\"\n" none).outcome =
        .ok optionalMark := rfl
  have htree : (parse { emptyAtEnd := true } (optionalMark.startingAt "S") ["a", "b"]).outcome =
      .ok (.node "S" [.node "Word" [.leaf "a", .leaf "b"], .node "Mark" [.leaf ""]]) := rfl
  exact (lines_eq_inorder hread "S" { emptyAtEnd := true } ["a", "b"] htree).1.trans (by decide)

end TopDown

end PhraseStructure
