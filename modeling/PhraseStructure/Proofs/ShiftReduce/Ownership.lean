import PhraseStructure.Grammar.RuleShape
import PhraseStructure.Proofs.Lookup
import PhraseStructure.Proofs.ShiftReduce.Handle

/-!
# What reducing asks of a grammar

An item of the stack is matched by one symbol only: a token by the terminal
with its surface, a tree by the nonterminal that is its label. So a suffix of
the stack is matched by one row of terminals and nonterminals, and all that
reducing asks is which rule comes first of those that have the row among their
alternatives.

Grammars that answer this alike are reduced alike, up to the limit. The start
symbol, the lines, the order of the alternatives of a rule and the order of
rules that share no alternative do not change the answer.
-/

namespace PhraseStructure.ShiftReduce

variable {s : Settings} {g g' : Grammar}

theorem Item.isPart_symbol (item : Item) : item.symbol.isPart := by
  cases item with
  | raw token => exact .inl rfl
  | built tree => exact .inr rfl

/-! ## Reducing -/

/-- The same rule comes first for every row that items can match. -/
def SameOwners (g g' : Grammar) : Prop :=
  ∀ row, row ≠ [] → (∀ symbol ∈ row, symbol.isPart) → owner g row = owner g' row

theorem SameOwners.findHandle_eq (h : SameOwners g g') {row : List Symbol}
    (hparts : ∀ symbol ∈ row, symbol.isPart) : findHandle g row = findHandle g' row := by
  induction row with
  | nil => rfl
  | cons symbol above ih =>
      have hrest := ih fun other hmem ↦ hparts other (List.mem_cons_of_mem _ hmem)
      rw [findHandle, findHandle, h _ (List.cons_ne_nil _ _) hparts, hrest]

theorem SameOwners.findHandle_symbols (h : SameOwners g g') (stack : List Item) :
    findHandle g (symbols stack) = findHandle g' (symbols stack) := by
  apply h.findHandle_eq
  intro symbol hmem
  obtain ⟨item, -, rfl⟩ := List.mem_map.mp hmem
  exact item.isPart_symbol

theorem SameOwners.reduceAll_eq (h : SameOwners g g') (left : Nat) (stack : List Item) :
    reduceAll s g left stack = reduceAll s g' left stack := by
  induction left, stack using reduceAll_induction (g := g) with
  | done left stack hnone =>
      have hnone' := (h.findHandle_symbols stack).symm.trans hnone
      rw [reduceAll_of_none hnone, reduceAll_of_none hnone']
  | limit stack found hfound =>
      have hfound' := (h.findHandle_symbols stack).symm.trans hfound
      rw [symbols] at hfound hfound'
      rw [reduceAll, reduceAll, hfound, hfound']
  | step left stack below name hfound ih =>
      have hfound' := (h.findHandle_symbols stack).symm.trans hfound
      rw [reduceAll_succ hfound, reduceAll_succ hfound', ih]

theorem SameOwners.parse_eq (h : SameOwners g g') (s : Settings) (tokens : List String) :
    parse s g tokens = parse s g' tokens := by
  have hadvance : advance s g = advance s g' := by
    funext stack token
    rw [advance, advance, h.reduceAll_eq]
  rw [parse, parse, run, run, hadvance]

/-! ## Grammars with the same owners -/

/-- The rules have the same names in the same order, and the same alternatives in
any order and number. -/
def SameMembers (g g' : Grammar) : Prop :=
  List.Forall₂ (fun rule rule' ↦ rule'.name = rule.name ∧
    ∀ alternative, alternative ∈ rule'.alternatives ↔ alternative ∈ rule.alternatives)
    g.rules g'.rules

/-- The rules are the same, and those that share an alternative keep their order. -/
structure SameRivals (g g' : Grammar) : Prop where
  perm : g.rules.Perm g'.rules
  order : ∀ rule rule', [rule, rule'].Sublist g.rules →
    (∃ alternative ∈ rule.alternatives, alternative ∈ rule'.alternatives) →
      [rule, rule'].Sublist g'.rules

theorem SameMembers.sameOwners (h : SameMembers g g') : SameOwners g g' := by
  intro row _ _
  have hfound := rel_find?_of_forall₂ h (p := fun rule ↦ decide (row ∈ rule.alternatives))
    (q := fun rule ↦ decide (row ∈ rule.alternatives)) fun rule rule' hsame ↦ by simp [hsame.2]
  rw [owner, owner]
  generalize g.rules.find? _ = found at hfound
  generalize g'.rules.find? _ = found' at hfound
  cases hfound with
  | none => rfl
  | some hsame => exact congrArg some hsame.1.symm

theorem SameRivals.sameOwners (h : SameRivals g g') : SameOwners g g' := by
  intro row _ _
  rw [owner, owner, find?_eq_of_perm h.perm g.nodup_rules]
  intro rule rule' hrow hrow' hsublist
  exact h.order rule rule' hsublist ⟨row, by simpa using hrow, by simpa using hrow'⟩

/-- Reducing depends on a grammar only through the first rule that has a row of
terminals and nonterminals among its alternatives. Where two grammars have the
same first rule for every such row, parses come to the same trees and faults
and write the same events. So it is where the rules have the same names in the
same order and the same alternatives, in whatever order and number, and where
rules change places that share no alternative. -/
theorem parse_eq_of_owners (g g' : Grammar) :
    (SameOwners g g' → ∀ s tokens, parse s g tokens = parse s g' tokens) ∧
    (SameMembers g g' → ∀ s tokens, parse s g tokens = parse s g' tokens) ∧
    (SameRivals g g' → ∀ s tokens, parse s g tokens = parse s g' tokens) := by
  refine ⟨SameOwners.parse_eq, ?_, ?_⟩
  · intro hmembers
    exact hmembers.sameOwners.parse_eq
  · intro hrivals
    exact hrivals.sameOwners.parse_eq

/-- Two rules have an alternative in common. -/
def rivals : Grammar :=
  .ofRules [⟨"S", [[.nonterminal "X"], [.nonterminal "Y"]], 0⟩, ⟨"X", [[.terminal "x"]], 1⟩,
    ⟨"Y", [[.terminal "x"], [.terminal "y"]], 2⟩]

/-- The second of the rivals keeps what it owns, and what no item matches. -/
def settledRivals : Grammar :=
  .ofRules [⟨"S", [[.nonterminal "X"], [.nonterminal "Y"]], 0⟩, ⟨"X", [[.terminal "x"]], 1⟩,
    ⟨"Y", [[], [.terminal "y"], [⟨.arrow, "->"⟩]], 2⟩]

/-- Other lines and another start, and alternatives in another order and number. -/
def rewrittenRivals : Grammar :=
  (Grammar.ofRules [⟨"S", [[.nonterminal "Y"], [.nonterminal "X"], [.nonterminal "Y"]], 4⟩,
    ⟨"X", [[.terminal "x"]], 6⟩, ⟨"Y", [[.terminal "y"], [.terminal "x"]], 7⟩]).startingAt "X"

/-- The rivals stand in the same order. -/
def movedRivals : Grammar :=
  .ofRules [⟨"X", [[.terminal "x"]], 1⟩, ⟨"Y", [[.terminal "x"], [.terminal "y"]], 2⟩,
    ⟨"S", [[.nonterminal "X"], [.nonterminal "Y"]], 0⟩]

theorem sameOwners_settledRivals : SameOwners rivals settledRivals := by
  intro row hfilled hparts
  by_cases hrow : row ∈ [[.nonterminal "X"], [.nonterminal "Y"], [.terminal "x"], [.terminal "y"]]
  · simp only [List.mem_cons, List.not_mem_nil, or_false] at hrow
    rcases hrow with rfl | rfl | rfl | rfl <;> rfl
  · have harrow : row ≠ [⟨.arrow, "->"⟩] := by
      rintro rfl
      rcases hparts _ List.mem_cons_self with h | h <;> cases h
    simp only [List.mem_cons, List.not_mem_nil, or_false, not_or] at hrow
    have hnone : owner rivals row = none := by
      apply owner_eq_none_iff.mpr
      change ∀ rule ∈ [_, _, _], _
      simp [hrow]
    have hnone' : owner settledRivals row = none := by
      apply owner_eq_none_iff.mpr
      change ∀ rule ∈ [_, _, _], _
      simp [hrow, hfilled, harrow]
    rw [hnone, hnone']

theorem sameMembers_rewrittenRivals : SameMembers rivals rewrittenRivals := by
  refine .cons ⟨rfl, fun alternative ↦ ?_⟩
    (.cons ⟨rfl, fun _ ↦ Iff.rfl⟩ (.cons ⟨rfl, fun alternative ↦ ?_⟩ .nil))
  · simp only [List.mem_cons, List.not_mem_nil, or_false]
    tauto
  · simp only [List.mem_cons, List.not_mem_nil, or_false]
    tauto

theorem sameRivals_movedRivals : SameRivals rivals movedRivals where
  perm := by decide
  order := by
    have hpairs : ∀ rule ∈ rivals.rules, ∀ rule' ∈ rivals.rules,
        [rule, rule'].Sublist rivals.rules →
          (∃ alternative ∈ rule.alternatives, alternative ∈ rule'.alternatives) →
            [rule, rule'].Sublist movedRivals.rules := by decide
    intro rule rule' hsublist
    exact hpairs rule (hsublist.subset (by simp)) rule' (hsublist.subset (by simp)) hsublist

theorem parse_eq_of_owners_rivals :
    (SameOwners rivals settledRivals ∧ parse {} rivals ["x"] = parse {} settledRivals ["x"]) ∧
      (SameMembers rivals rewrittenRivals ∧
        parse {} rivals ["x"] = parse {} rewrittenRivals ["x"]) ∧
      (SameRivals rivals movedRivals ∧ parse {} rivals ["x"] = parse {} movedRivals ["x"]) ∧
      (parse {} rivals ["x"]).outcome = .ok (.node "S" [.node "X" [.leaf "x"]]) := by
  have howners := (parse_eq_of_owners _ _).1 sameOwners_settledRivals
  have hmembers := (parse_eq_of_owners _ _).2.1 sameMembers_rewrittenRivals
  have hrivals := (parse_eq_of_owners _ _).2.2 sameRivals_movedRivals
  exact ⟨⟨sameOwners_settledRivals, howners _ _⟩, ⟨sameMembers_rewrittenRivals, hmembers _ _⟩,
    ⟨sameRivals_movedRivals, hrivals _ _⟩, rfl⟩

end PhraseStructure.ShiftReduce
