import PhraseStructure.Proofs.TopDown.Locality
import PhraseStructure.Tree.Address

/-!
# A subtree is found again by itself

A node of a tree that is found stands for a match of its own: the name on it
was matched at the position behind the leaves to its left, one level further
down for each step of its address. Such a match depends on the words that it
reads, so the tokens in front of them can be dropped and the levels above it
given back.

Empty leaves behind the last token use up none. The position of a node is
therefore not the number of leaves to its left, but at most that.
-/

namespace PhraseStructure.TopDown

variable {s : Settings} {g : Grammar} {tokens : List String} {descend : String → Nat → Step Match}

/-- The start symbol counts only where a parse begins. -/
theorem matchName_startingAt (levels : Nat) (start : String) :
    matchName s (g.startingAt start) tokens levels = matchName s g tokens levels := by
  induction levels with
  | zero => rfl
  | succ levels ih =>
      funext name pos
      rw [matchName, matchName, ih]
      rfl

/-! ## What stands at an address -/

theorem exists_matchPart_of_matchRest {symbols : List Symbol} {front behind : List Tree}
    {tree : Tree} {pos stop : Nat}
    (h : (matchRest s tokens descend symbols pos).outcome = .ok (front ++ tree :: behind, stop)) :
    ∃ before symbol middle next,
      (matchRest s tokens descend before pos).outcome = .ok (front, middle) ∧
        (matchPart s tokens descend symbol middle).outcome = .ok (some (tree, next)) := by
  induction front generalizing symbols pos with
  | nil =>
      cases symbols with
      | nil => cases h
      | cons symbol rest =>
          obtain ⟨_, next, _, hfirst, -, hsplit⟩ := matchRest_cons_eq_ok_iff.mp h
          cases hsplit
          exact ⟨[], symbol, pos, next, rfl, hfirst⟩
  | cons other front ih =>
      cases symbols with
      | nil => cases h
      | cons first rest =>
          obtain ⟨_, after, _, hfirst, hrest, hsplit⟩ := matchRest_cons_eq_ok_iff.mp h
          cases hsplit
          obtain ⟨before, symbol, middle, next, hfront, hpart⟩ := ih hrest
          have hmatched : (matchRest s tokens descend (first :: before) pos).outcome =
              .ok (other :: front, middle) :=
            matchRest_cons_eq_ok_iff.mpr ⟨other, after, front, hfirst, hfront, rfl⟩
          exact ⟨first :: before, symbol, middle, next, hmatched, hpart⟩

theorem exists_matchRest_of_matchName {levels pos stop : Nat} {name : String} {tree : Tree}
    (h : (matchName s g tokens levels name pos).outcome = .ok (some (tree, stop))) :
    ∃ below alternative trees, levels = below + 1 ∧ tree = .node name trees ∧
      (matchRest s tokens (matchName s g tokens below) alternative pos).outcome =
        .ok (trees, stop) := by
  obtain ⟨below, rule, hlevels, -, hsome⟩ := matchName_eq_ok_iff.mp h
  obtain ⟨-, alternative, -, -, -, hfound⟩ := matchAlternatives_eq_some_iff.mp hsome
  obtain ⟨first, rest, child, next, others, -, hfirst, hrest, rfl⟩ :=
    matchAlternative_eq_some_iff.mp hfound
  have hmatched := matchRest_cons_eq_ok_iff.mpr ⟨child, next, others, hfirst, hrest, rfl⟩
  exact ⟨below, first :: rest, child :: others, hlevels, rfl, hmatched⟩

/-- The name on a node was matched behind the leaves to the left of the node. -/
theorem exists_matchName_of_subtreeAt? {levels pos stop : Nat} {name label : String} {tree : Tree}
    {address : List Nat} {children : List Tree}
    (h : (matchName s g tokens levels name pos).outcome = .ok (some (tree, stop)))
    (hat : tree.subtreeAt? address = some (.node label children)) :
    ∃ below next last, below ≤ levels ∧ Reads s tokens pos (tree.leavesBefore address) next ∧
      (matchName s g tokens below label next).outcome =
        .ok (some (.node label children, last)) := by
  induction address generalizing levels name pos stop tree with
  | nil =>
      obtain ⟨_, _, trees, -, rfl, -⟩ := exists_matchRest_of_matchName h
      cases hat
      exact ⟨levels, pos, stop, Nat.le_refl _, rfl, h⟩
  | cons place address ih =>
      obtain ⟨below, alternative, trees, rfl, rfl, hrest⟩ := exists_matchRest_of_matchName h
      obtain ⟨front, child, behind, hsplit, rfl, hchild⟩ :=
        Tree.subtreeAt?_cons_eq_some_iff.mp hat
      have htrees : trees = front ++ child :: behind := hsplit
      rw [htrees] at hrest
      obtain ⟨before, symbol, middle, next, hfront, hpart⟩ := exists_matchPart_of_matchRest hrest
      have hwords := ((sound_matchName below).matchRest hfront).words
      rw [Tree.leavesBefore_cons hsplit]
      cases hkind : symbol.isNonterminal with
      | true =>
          rw [matchPart_of_nonterminal hkind] at hpart
          obtain ⟨deeper, next, last, hle, hbefore, hname⟩ := ih hpart hchild
          exact ⟨deeper, next, last, Nat.le_succ_of_le hle,
            reads_append_iff.mpr ⟨middle, hwords, hbefore⟩, hname⟩
      | false =>
          have hderives := ((sound_matchName below).matchPart hpart).derives
          rw [(hderives.eq_leaf hkind).2] at hchild
          exact (Tree.subtreeAt?_leaf hchild).elim

/-! ## Matching from there on -/

/-- A tree that is found at a position is found at the beginning of the tokens
from there on, with the same levels or with more. -/
theorem matchName_drop {levels levels' pos stop : Nat} {name : String} {tree : Tree}
    (hle : levels ≤ levels') (hpos : pos ≤ tokens.length)
    (h : (matchName s g tokens levels name pos).outcome = .ok (some (tree, stop))) :
    (matchName s g (tokens.drop pos) levels' name 0).outcome = .ok (some (tree, stop - pos)) := by
  have hwords := (sound_matchName _ _ _ _ _ h).words
  have hstop := (hwords.eq_stretch hpos).1
  have hrepeats : Repeats s tokens (matchName s g tokens levels) s (tokens.drop pos)
      (matchName s g (tokens.drop pos) levels') := repeats_matchName hle
  apply hrepeats.found _ h
  rw [reads_drop_iff, Nat.add_zero, Nat.add_sub_cancel' hstop]
  exact hwords

/-- Whatever the grammar, the tokens and the settings, each node of a tree that
is returned is what a parse for its name returns on the tokens that are left
behind the leaves to the left of the node. -/
theorem parse_subtree (g : Grammar) (tokens : List String) (maxDepth : Nat) (emptyAtEnd : Bool)
    {tree : Tree} (htree : (parse { emptyAtEnd, maxDepth } g tokens).outcome = .ok tree)
    {address : List Nat} {label : String} {children : List Tree}
    (hat : tree.subtreeAt? address = some (.node label children)) :
    (∃ empties, tree.leavesBefore address =
      tokens.take (tokensUsed tokens (tree.leavesBefore address)) ++
        List.replicate empties "") ∧
      (parse { emptyAtEnd, maxDepth } (g.startingAt label)
          (tokens.drop (tokensUsed tokens (tree.leavesBefore address)))).outcome =
        .ok (.node label children) := by
  obtain ⟨stop, hname, -⟩ := parse_eq_ok_iff.mp htree
  obtain ⟨below, next, last, hle, hbefore, hnode⟩ := exists_matchName_of_subtreeAt? hname hat
  obtain ⟨hnext, empties, hstretch, -⟩ := hbefore.eq_take
  rw [hbefore.tokensUsed_eq]
  refine ⟨⟨empties, hstretch⟩, parse_eq_ok_iff.mpr ⟨last - next, ?_, nofun⟩⟩
  rw [matchName_startingAt]
  exact matchName_drop hle hnext hnode

/-- A word with two marks that may be left out. -/
def optionalMarks : Grammar :=
  .ofRules [⟨"S", [[.terminal "a", .nonterminal "Mark", .nonterminal "Mark"]], 0⟩,
    ⟨"Mark", [[.terminal "!"], [.terminal ""]], 1⟩]

theorem parse_subtree_left_out :
    (parse { emptyAtEnd := true, maxDepth := 4 } optionalMarks ["a"]).outcome =
        .ok (.node "S" [.leaf "a", .node "Mark" [.leaf ""], .node "Mark" [.leaf ""]]) ∧
      (∃ empties, ["a", ""] = ["a"].take 1 ++ List.replicate empties "") ∧
      (parse { emptyAtEnd := true, maxDepth := 4 } (optionalMarks.startingAt "Mark")
          []).outcome = .ok (.node "Mark" [.leaf ""]) := by
  have hparse : (parse { emptyAtEnd := true, maxDepth := 4 } optionalMarks ["a"]).outcome =
      .ok (.node "S" [.leaf "a", .node "Mark" [.leaf ""], .node "Mark" [.leaf ""]]) := rfl
  have hlast : Tree.subtreeAt?
      (.node "S" [.leaf "a", .node "Mark" [.leaf ""], .node "Mark" [.leaf ""]]) [2] =
        some (.node "Mark" [.leaf ""]) := rfl
  exact ⟨hparse, parse_subtree optionalMarks ["a"] 4 true hparse hlast⟩

end PhraseStructure.TopDown
