import PhraseStructure.Proofs.ShiftReduce.Invariant
import PhraseStructure.Proofs.TopDown.Completeness

/-!
# The parsers agree on deterministic grammars

A tree that the reducing parser returns is a derivation tree of its label over
the surfaces of the tokens. Reduction reads terminals only and takes the
quotation marks off its tokens, while parsing from the top reads every symbol
that is no nonterminal and compares the tokens as they are. So the tree is also
a derivation tree for parsing from the top, and the words at its leaves are the
tokens if these have no marks to be taken off.

In a deterministic grammar that is enough for parsing from the top to return
the same tree, if the tree begins with the start symbol.
-/

namespace PhraseStructure

namespace ShiftReduce

variable {s : Settings} {g : Grammar} {tokens : List String} {tree : Tree}

theorem derives_of_parse (h : (parse s g tokens).outcome = .ok tree) :
    g.Derives Symbol.isTerminal (.nonterminal tree.label) tree ∧ tree.leaves = surfaces tokens := by
  have hsettled := settled_of_run (parse_eq_ok_iff.mp h)
  have hleaves := hsettled.leaves
  refine ⟨hsettled.derives_of_mem List.mem_cons_self, ?_⟩
  simpa [trees, Tree.leavesOf, Item.tree] using hleaves

theorem surfaces_eq_self (h : ∀ token ∈ tokens, (Symbol.ofChunk token).surface = token) :
    surfaces tokens = tokens :=
  (List.map_congr_left h).trans (List.map_id tokens)

end ShiftReduce

namespace TopDown

variable {g : Grammar} {tokens : List String} {tree : Tree}

theorem reads_of_isTerminal {symbol : Symbol} (h : symbol.isTerminal = true) :
    reads symbol = true := by
  rw [Symbol.isTerminal, decide_eq_true_eq] at h
  rw [reads, Symbol.isNonterminal, h]
  rfl

/-- In a deterministic grammar, a tree of the start symbol that the reducing
parser returns is the one that both ways of parsing from the top return, if the
tokens are not quoted and rules may nest as often as there are rules for each
token and once more. -/
theorem parse_of_shiftReduce_parse (hdet : g.Deterministic)
    (hplain : ∀ token ∈ tokens, (Symbol.ofChunk token).surface = token) {maxDepth : Nat}
    (hdeep : (tokens.length + 1) * g.rules.length ≤ maxDepth) {limits : ShiftReduce.Settings}
    (hreduced : (ShiftReduce.parse limits g tokens).outcome = .ok tree)
    (hstart : tree.label = g.start) (emptyAtEnd : Bool) :
    (parse { emptyAtEnd, maxDepth, fullInput := true } g tokens).outcome = .ok tree := by
  obtain ⟨hterminal, hleaves⟩ := ShiftReduce.derives_of_parse hreduced
  rw [hstart] at hterminal
  rw [ShiftReduce.surfaces_eq_self hplain] at hleaves
  have hderives := hterminal.mono fun _ ↦ reads_of_isTerminal
  have hneed := need_add_le hdet.wellFounded hderives
  have hrank := g.symbolRank_le (.nonterminal g.start)
  rw [Nat.add_mul] at hdeep
  rw [hleaves] at hneed
  refine parse_of_need hdet hderives (hleaves ▸ reads_all) ?_
  change need g tree ≤ maxDepth + 1
  omega

theorem parse_of_shiftReduce_parse_doubleEnding :
    doubleEnding.Deterministic ∧
      (∀ token ∈ ["b", "a", "c", "c"], (Symbol.ofChunk token).surface = token) ∧
      (["b", "a", "c", "c"].length + 1) * doubleEnding.rules.length ≤ 15 ∧
      (ShiftReduce.parse { maxReductions := 3 } doubleEnding ["b", "a", "c", "c"]).outcome =
        .ok (.node "S" [.node "Word" [.leaf "b", .leaf "a"],
          .node "S" [.node "End" [.leaf "c", .leaf "c"]]]) ∧
      doubleEnding.start = "S" ∧
      ∀ emptyAtEnd, (parse { emptyAtEnd, maxDepth := 15, fullInput := true } doubleEnding
        ["b", "a", "c", "c"]).outcome =
          .ok (.node "S" [.node "Word" [.leaf "b", .leaf "a"],
            .node "S" [.node "End" [.leaf "c", .leaf "c"]]]) := by
  have hplain : ∀ token ∈ ["b", "a", "c", "c"], (Symbol.ofChunk token).surface = token := by
    decide
  have hdeep : (["b", "a", "c", "c"].length + 1) * doubleEnding.rules.length ≤ 15 := by decide
  have hreduced : (ShiftReduce.parse { maxReductions := 3 } doubleEnding
      ["b", "a", "c", "c"]).outcome =
        .ok (.node "S" [.node "Word" [.leaf "b", .leaf "a"],
          .node "S" [.node "End" [.leaf "c", .leaf "c"]]]) := rfl
  exact ⟨deterministic_doubleEnding, hplain, hdeep, hreduced, rfl,
    parse_of_shiftReduce_parse deterministic_doubleEnding hplain hdeep hreduced rfl⟩

end TopDown

end PhraseStructure
