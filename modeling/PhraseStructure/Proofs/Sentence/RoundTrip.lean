import PhraseStructure.Parse.Strategy
import PhraseStructure.Proofs.Sentence.Language
import PhraseStructure.Proofs.TopDown.Completeness

/-!
# Parsing what was generated

The nodes of a generated tree nest up to a limit. Passing over a name takes as
many levels as there are rules at most, so a tree is found from the top with
that many levels below its own nesting.

The sentence of a tree lacks its empty leaves. If they all stand behind the
last word, then they are read at the end of the sentence, and the tree that is
found is the one that was generated.
-/

namespace PhraseStructure

namespace Tree

/-- Behind a leaf that stands for no word there are only leaves of that kind. -/
def DropsLast (t : Tree) : Prop :=
  t.leaves.Pairwise fun earlier later ↦ earlier = "" → later = ""

theorem DropsLast.leaves_eq {t : Tree} (h : t.DropsLast) :
    t.leaves = t.words ++ List.replicate (t.leaves.count "") "" := by
  unfold DropsLast at h
  unfold words
  generalize t.leaves = leaves at h ⊢
  induction leaves with
  | nil => rfl
  | cons word rest ih =>
      rw [List.pairwise_cons] at h
      by_cases hempty : word = ""
      · have hrest : rest = List.replicate rest.length "" :=
          List.eq_replicate_of_mem fun other hmem ↦ h.1 other hmem hempty
        rw [hempty, hrest]
        simp [List.replicate_succ]
      · simpa [hempty] using ih h.2

theorem dropsLast_of_forall {t : Tree} (h : "" ∉ t.leaves) : t.DropsLast := by
  apply List.pairwise_of_forall_mem_list
  intro earlier hmem _ _ hempty
  exact (h (hempty ▸ hmem)).elim

end Tree

namespace TopDown

variable {s : Settings} {g : Grammar} {tokens : List String}

mutual

theorem need_le (g : Grammar) : (tree : Tree) → need g tree ≤ tree.nesting + g.rules.length
  | .leaf _ => Nat.zero_le _
  | .node label children => by
      have hroot := g.cornerRank_le label
      have hbelow := needEach_le g children
      rw [need, Tree.nesting]
      omega

theorem needEach_le (g : Grammar) :
    (trees : List Tree) → needEach g trees ≤ Tree.nestingOf trees + g.rules.length
  | [] => Nat.zero_le _
  | tree :: trees => by
      have hfirst := need_le g tree
      have hrest := needEach_le g trees
      rw [needEach, Tree.nestingOf]
      omega

end

theorem reads_replicate (hempty : s.emptyAtEnd = true) (count : Nat) :
    Reads s tokens tokens.length (List.replicate count "") tokens.length := by
  induction count with
  | zero => rfl
  | succ count ih =>
      rw [List.replicate_succ, Reads, lookahead_of_ge (Nat.le_refl _), hempty,
        after_of_ge (Nat.le_refl _)]
      exact ⟨rfl, ih⟩

/-- In a deterministic grammar a derivation tree is found in all of its words
if the levels suffice for its nesting and for passing over. -/
theorem parse_of_reads (hdet : g.Deterministic) {tree : Tree}
    (hderives : g.Derives reads (.nonterminal g.start) tree)
    (hwords : Reads s tokens 0 tree.leaves tokens.length)
    (hlevels : tree.nesting + g.rules.length ≤ s.maxDepth + 1) :
    (parse s g tokens).outcome = .ok tree :=
  parse_of_need hdet hderives hwords (Nat.le_trans (need_le g tree) hlevels)

end TopDown

namespace Sentence

/-- A sentence that was generated from a deterministic grammar of at most 448
rules has the generated tree as its parse, if the empty leaves of the tree
stand last. Without empty leaves the strict parser finds it too. -/
theorem parse_of_generate {g : Grammar} (hdet : g.Deterministic)
    (hoffered : ∀ rule ∈ g.rules, rule.alternatives ≠ []) (hsize : g.rules.length ≤ 448)
    {s stop : WordSource} {sentence : List String}
    (h : (generate g).run s = (.ok sentence, stop)) :
    ∃ tree, (derive g g.start).run s = (.ok tree, stop) ∧
      g.Derives TopDown.reads (.nonterminal g.start) tree ∧ tree.words = sentence ∧
      (tree.DropsLast →
        (Strategy.topDownEpsilon.parse g sentence).outcome = .ok tree ∧ tree.label = g.start ∧
          tree.leaves = sentence ++ List.replicate (tree.leaves.count "") "") ∧
      ("" ∉ tree.leaves → (Strategy.topDown.parse g sentence).outcome = .ok tree) := by
  obtain ⟨tree, htree, rfl⟩ := generateFrom_eq_ok_iff.mp h
  obtain ⟨hderives, hnesting⟩ := sound_expand hdet.filled hoffered _ _ _ _ _ _ htree
  have hlevels : tree.nesting + g.rules.length ≤ 65 + 448 := Nat.add_le_add hnesting hsize
  refine ⟨tree, htree, hderives, rfl, fun hlast ↦ ⟨?_, ?_, hlast.leaves_eq⟩, fun hwords ↦ ?_⟩
  · apply TopDown.parse_of_reads hdet hderives _ hlevels
    rw [hlast.leaves_eq, TopDown.reads_append_iff]
    exact ⟨_, TopDown.reads_all, TopDown.reads_replicate rfl _⟩
  · obtain ⟨-, -, -, -, -, -, children, rfl, -⟩ := hderives.eq_node rfl
    rfl
  · apply TopDown.parse_of_reads hdet hderives _ hlevels
    have hsame : tree.leaves = tree.words := by
      rw [(Tree.dropsLast_of_forall hwords).leaves_eq, List.count_eq_zero_of_not_mem hwords]
      simp
    rw [hsame]
    exact TopDown.reads_all

theorem deterministic_optionalEnding : TopDown.optionalEnding.Deterministic :=
  Grammar.deterministic_of_table (fun name ↦ if name = "S" then ["a"] else ["!", ""])
    (fun _ ↦ 0) (by unfold Grammar.Filled; decide) (by unfold Grammar.Closed; decide)
    (by decide) (by decide) (by decide)

/-- The second word leads to the ending that is left out. -/
theorem parse_of_generate_without_ending :
    TopDown.optionalEnding.Deterministic ∧
      (∀ rule ∈ TopDown.optionalEnding.rules, rule.alternatives ≠ []) ∧
      TopDown.optionalEnding.rules.length ≤ 448 ∧
      ((generate TopDown.optionalEnding).run (.ofWords [0, 0x80000000])).1 = .ok ["a"] ∧
      (Strategy.topDownEpsilon.parse TopDown.optionalEnding ["a"]).outcome =
        .ok (.node "S" [.leaf "a", .node "End" [.leaf ""]]) := by
  have hoffered : ∀ rule ∈ TopDown.optionalEnding.rules, rule.alternatives ≠ [] := by decide
  have hsize : TopDown.optionalEnding.rules.length ≤ 448 := by decide
  have hrun : ((generate TopDown.optionalEnding).run (.ofWords [0, 0x80000000])).1 =
    .ok ["a"] := rfl
  obtain ⟨tree, htree, -, -, hlast, -⟩ :=
    parse_of_generate deterministic_optionalEnding hoffered hsize (Prod.ext hrun rfl)
  have hsame : tree = .node "S" [.leaf "a", .node "End" [.leaf ""]] := by
    have hderive : ((derive TopDown.optionalEnding "S").run (.ofWords [0, 0x80000000])).1 =
      .ok (.node "S" [.leaf "a", .node "End" [.leaf ""]]) := rfl
    exact Except.ok.inj ((congrArg Prod.fst htree).symm.trans hderive)
  subst hsame
  exact ⟨deterministic_optionalEnding, hoffered, hsize, hrun,
    (hlast (by unfold Tree.DropsLast; decide)).1⟩

end Sentence

end PhraseStructure
