import PhraseStructure.Proofs.ShiftReduce.Limit
import PhraseStructure.Proofs.ShiftReduce.Overlap

/-!
# Grammars without overlaps lose nothing by reduction

The stack and the tokens that are still to be shifted form one row, and each
reduction contracts it. If the tokens contract to one tree that is not reduced
further, so does the row at any time of the run. Contractions that come to an
end stay within the limit, so no shift fails. A row without tokens to be
shifted and without a reduction left is that tree.
-/

namespace PhraseStructure.ShiftReduce

variable {s : Settings} {g : Grammar}

/-- The tokens that are still to be shifted. -/
def pending (tokens : List String) : List Item :=
  tokens.map fun token ↦ .raw (Symbol.ofChunk token)

/-- A stack has no more reductions than its row has contractions. -/
theorem OverlapFree.contractTimes_eq_none (h : OverlapFree g) {count : Nat}
    {stack rest last : List Item} (hsteps : Steps (Contracts g) count (stack ++ rest) last)
    (hlast : Irreducible g (symbols last)) :
    contractTimes g (count + 1) (symbols stack) = none := by
  induction count generalizing stack with
  | zero =>
      cases hfound : findHandle g (symbols stack) with
      | none =>
          rw [contractTimes, contract_of_none hfound]
          rfl
      | some found =>
          obtain ⟨left, hleft, -⟩ :=
            h.steps_of_contracts hsteps hlast (contracts_reduce hfound rest)
          cases hleft
  | succ count ih =>
      cases hfound : findHandle g (symbols stack) with
      | none =>
          rw [contractTimes, contract_of_none hfound]
          rfl
      | some found =>
          obtain ⟨left, hleft, hrest⟩ :=
            h.steps_of_contracts hsteps hlast (contracts_reduce hfound rest)
          cases hleft
          rw [contractTimes, contract_of_some hfound, Option.bind_some]
          exact ih hrest

/-- What a row contracts to is kept while the stack is reduced, and the limit
is not met. -/
theorem OverlapFree.exists_reduceAll (h : OverlapFree g) {stack rest last : List Item}
    (hsteps : ∃ count, Steps (Contracts g) count (stack ++ rest) last)
    (hlast : Irreducible g (symbols last)) {left : Nat}
    (hleft : stack.length * g.rules.length ≤ left) :
    ∃ reduced, (reduceAll s g left stack).outcome = .ok reduced ∧
      ∃ count, Steps (Contracts g) count (reduced ++ rest) last := by
  obtain ⟨count, hcount⟩ := hsteps
  have hend := h.contractTimes_eq_none hcount hlast
  rw [← length_symbols] at hleft
  obtain ⟨reduced, hreduced⟩ :=
    exists_reduceAll_iff (s := s).mpr (contractTimes_eq_none_of_long hend hleft)
  refine ⟨reduced, hreduced, ?_⟩
  have hkept : ∀ stack below name,
      (∃ count, Steps (Contracts g) count (stack ++ rest) last) →
        findHandle g (symbols stack) = some (below, name) →
          ∃ count, Steps (Contracts g) count (reduce stack below name ++ rest) last := by
    rintro stack below name ⟨count, hcount⟩ hfound
    obtain ⟨fewer, -, hfewer⟩ := h.steps_of_contracts hcount hlast (contracts_reduce hfound rest)
    exact ⟨fewer, hfewer⟩
  exact (reduceAll_preserves
    (motive := fun stack ↦ ∃ count, Steps (Contracts g) count (stack ++ rest) last)
    hkept ⟨count, hcount⟩ hreduced).1

theorem OverlapFree.exists_run (h : OverlapFree g) {last : List Item}
    (hlast : Irreducible g (symbols last)) (shifted rest : List String)
    (hlimit : (shifted ++ rest).length * g.rules.length ≤ s.maxReductions)
    (hsteps : ∃ count, Steps (Contracts g) count (pending (shifted ++ rest)) last) :
    ∃ stack, (run s g shifted).outcome = .ok stack ∧
      ∃ count, Steps (Contracts g) count (stack ++ pending rest) last := by
  induction shifted using List.reverseRecOn generalizing rest with
  | nil => exact ⟨[], rfl, hsteps⟩
  | append_singleton shifted token ih =>
      rw [List.append_assoc] at hlimit hsteps
      obtain ⟨before, hbefore, hrow⟩ := ih (token :: rest) hlimit hsteps
      have hlength : (before ++ [Item.raw (Symbol.ofChunk token)]).length * g.rules.length ≤
          s.maxReductions := by
        have hitems := length_le_of_run hbefore
        apply Nat.le_trans _ hlimit
        apply Nat.mul_le_mul_right
        simp only [List.length_append, List.length_cons, List.length_nil]
        omega
      have hrow : ∃ count, Steps (Contracts g) count
          ((before ++ [Item.raw (Symbol.ofChunk token)]) ++ pending rest) last := by
        simpa [pending] using hrow
      obtain ⟨reduced, hreduced, hend⟩ := h.exists_reduceAll (s := s) hrow hlast hlength
      refine ⟨reduced, ?_, hend⟩
      rw [run_concat, Traced.outcome_bind_of_ok hbefore, outcome_advance]
      exact hreduced

/-- In a grammar without overlaps, parsing by reduction returns a tree over a
name that stands alone in no alternative exactly if it is a derivation tree of
the name over the tokens, if the limit allows as many reductions after a shift
as there are rules for each token. -/
theorem parse_ok_label_iff_derives {g : Grammar} (hfree : OverlapFree g) {s : Settings}
    {tokens : List String} (hlimit : tokens.length * g.rules.length ≤ s.maxReductions)
    {name : String} (htop : ∀ rule ∈ g.rules, [.nonterminal name] ∉ rule.alternatives)
    (tree : Tree) :
    ((parse s g tokens).outcome = .ok tree ∧ tree.label = name) ↔
      g.Derives Symbol.isTerminal (.nonterminal name) tree ∧ tree.leaves = surfaces tokens := by
  constructor
  · rintro ⟨hparse, rfl⟩
    have hcovers := (settled_of_run (parse_eq_ok_iff.mp hparse)).toCovers
    refine ⟨hcovers.derives_of_mem List.mem_cons_self, ?_⟩
    simpa [trees, Tree.leavesOf, Item.tree] using hcovers.leaves
  · rintro ⟨hderives, hleaves⟩
    have hraws : (tokens.map Symbol.ofChunk).map Symbol.surface = tree.leaves := by
      rw [hleaves, surfaces, List.map_map]
      rfl
    obtain ⟨count, item, hsymbol, htree, hsteps⟩ := grows_of_derives hderives _ hraws
    obtain ⟨built, rfl, hlabel⟩ := Item.exists_built hsymbol
    obtain rfl : built = tree := htree
    rw [List.map_map] at hsteps
    have hlast : Irreducible g (symbols [.built built]) :=
      irreducible_singleton (hsymbol ▸ htop)
    have hall : tokens ++ [] = tokens := List.append_nil tokens
    obtain ⟨stack, hrun, count, hcount⟩ := hfree.exists_run (s := s) hlast tokens []
      (by rwa [hall]) ⟨count, by rwa [hall]⟩
    rw [pending, List.map_nil, List.append_nil] at hcount
    refine ⟨?_, hlabel⟩
    apply parse_eq_ok_iff.mpr
    -- the stack that is left has no contraction, so it is the tree already
    cases hcount with
    | done => exact hrun
    | step hstep _ =>
        exact (not_contracts_of_irreducible (settled_of_run hrun).irreducible _ hstep).elim

/-- One word in any number of round brackets and one pair of angle brackets. -/
def brackets : Grammar :=
  .ofRules [⟨"Round", [[.terminal "(", .nonterminal "Round", .terminal ")"], [.terminal "x"]], 0⟩,
    ⟨"Angle", [[.terminal "<", .nonterminal "Round", .terminal ">"]], 1⟩]

theorem overlapFree_brackets : OverlapFree brackets :=
  overlapFree_of_forall (by decide) (by decide) (by decide)

theorem parse_ok_label_iff_derives_brackets :
    OverlapFree brackets ∧
      ["<", "(", "\"x\"", ")", ">"].length * brackets.rules.length ≤ 10 ∧
      (∀ rule ∈ brackets.rules, [.nonterminal "Angle"] ∉ rule.alternatives) ∧
      ((parse { maxReductions := 10 } brackets ["<", "(", "\"x\"", ")", ">"]).outcome =
          .ok (.node "Angle" [.leaf "<", .node "Round" [.leaf "(", .node "Round" [.leaf "x"],
            .leaf ")"], .leaf ">"]) ∧ "Angle" = "Angle" ↔
        brackets.Derives Symbol.isTerminal (.nonterminal "Angle")
          (.node "Angle" [.leaf "<", .node "Round" [.leaf "(", .node "Round" [.leaf "x"],
            .leaf ")"], .leaf ">"]) ∧
        ["<", "(", "x", ")", ">"] = surfaces ["<", "(", "\"x\"", ")", ">"]) :=
  ⟨overlapFree_brackets, by decide, by decide,
    parse_ok_label_iff_derives overlapFree_brackets (by decide) (by decide) _⟩

end PhraseStructure.ShiftReduce
