import PhraseStructure.Proofs.TopDown.Completeness
import PhraseStructure.Proofs.TopDown.Mismatch
import PhraseStructure.Proofs.TopDown.Prefix

/-!
# Nothing matches if the next word is no left corner

A name of which the next word is a left corner is never passed over, however
few levels there are. A name of which it is no corner is passed over, if what
is reached through first symbols has rules and does not come back to itself,
and there are levels for all of it.

So a start symbol without a match is decided by one word. Which alternatives
share a corner, and what stands behind first symbols, does not count.
-/

namespace PhraseStructure.TopDown

variable {s : Settings} {g : Grammar} {tokens : List String}

/-- However few levels there are, a name whose corner comes next is not passed over. -/
theorem not_corner_of_matchName {levels pos : Nat} {name word : String}
    (h : (matchName s g tokens levels name pos).outcome = .ok none)
    (hword : lookahead s tokens pos = some word) : ¬ g.Corner (.nonterminal name) word := by
  have hpart : (matchPart s tokens (matchName s g tokens levels) (.nonterminal name) pos).outcome =
      .ok none := by
    rw [matchPart_of_nonterminal rfl]
    exact h
  exact not_corner_of_matchPart hpart hword

theorem matchName_eq_none_iff {levels pos : Nat} {name : String} (hgrounded : Grounded g name)
    (hlevels : g.cornerRank name ≤ levels) :
    (matchName s g tokens levels name pos).outcome = .ok none ↔
      ∀ word ∈ lookahead s tokens pos, ¬ g.Corner (.nonterminal name) word :=
  ⟨fun h _ hword ↦ not_corner_of_matchName h hword, matchName_eq_none hgrounded hlevels⟩

/-- A parse finds no match for the start symbol only if the next word is none
of its left corners. The next word is the first token, or an empty word if
there is none and the settings read one at the end. Conversely there is then no
match, if what is reached from the start symbol through first symbols has rules
and does not come back to itself, and rules may nest as often as there are
rules. -/
theorem noMatch_decided_by_corners (s : Settings) (g : Grammar) (tokens : List String) :
    (∀ start, (parse s g tokens).outcome = .error (.noMatch start) →
      start = g.start ∧
        ∀ word ∈ lookahead s tokens 0, ¬ g.Corner (.nonterminal g.start) word) ∧
    (Grounded g g.start → g.rules.length ≤ s.maxDepth →
      (∀ word ∈ lookahead s tokens 0, ¬ g.Corner (.nonterminal g.start) word) →
        (parse s g tokens).outcome = .error (.noMatch g.start)) := by
  refine ⟨?_, ?_⟩
  · intro start hparse
    obtain ⟨hname, rfl⟩ := parse_eq_noMatch_iff.mp hparse
    exact ⟨rfl, fun word hword ↦ not_corner_of_matchName hname hword⟩
  · intro hgrounded hmany hcorner
    have hlevels : g.cornerRank g.start ≤ s.maxDepth + 1 :=
      Nat.le_succ_of_le (Nat.le_trans (g.cornerRank_le g.start) hmany)
    have hname := (matchName_eq_none_iff hgrounded hlevels).mpr hcorner
    exact parse_eq_noMatch_iff.mpr ⟨hname, rfl⟩

/-- Two alternatives begin with the same name, which may be left out. -/
def sharedBeginning : Grammar :=
  .ofRules [⟨"S", [[.nonterminal "Word", .terminal "x"], [.nonterminal "Word", .terminal "y"],
    [.terminal "b"]], 0⟩, ⟨"Word", [[.terminal "a"], [.terminal ""]], 1⟩]

theorem noMatch_decided_by_corners_sharedBeginning :
    (parse { maxDepth := 2 } sharedBeginning ["c"]).outcome = .error (.noMatch "S") ∧
      (∀ word ∈ some "c", ¬ sharedBeginning.Corner (.nonterminal "S") word) ∧
      Grounded sharedBeginning "S" ∧ sharedBeginning.rules.length ≤ 2 ∧
      (parse { emptyAtEnd := true, maxDepth := 2, fullInput := true } sharedBeginning
        ["c", "x"]).outcome = .error (.noMatch "S") ∧
      (∀ word ∈ (none : Option String), ¬ sharedBeginning.Corner (.nonterminal "S") word) ∧
      (parse { maxDepth := 2 } sharedBeginning []).outcome = .error (.noMatch "S") := by
  have hparse : (parse { maxDepth := 2 } sharedBeginning ["c"]).outcome = .error (.noMatch "S") :=
    rfl
  have hgrounded : Grounded sharedBeginning "S" := by
    apply grounded_of_closed (by unfold Grammar.Closed; decide) _ (by decide)
    exact @Grammar.not_transGen_beginsWith sharedBeginning
      (fun name ↦ if name = "S" then 1 else 0) (by decide)
  have hmany : sharedBeginning.rules.length ≤ 2 := by decide
  have hcorner := ((noMatch_decided_by_corners _ _ _).1 _ hparse).2
  have habsent : ∀ word ∈ (none : Option String),
      ¬ sharedBeginning.Corner (.nonterminal "S") word := nofun
  refine ⟨hparse, hcorner, hgrounded, hmany, ?_, habsent, ?_⟩
  · exact (noMatch_decided_by_corners _ _ ["c", "x"]).2 hgrounded hmany hcorner
  · exact (noMatch_decided_by_corners _ _ []).2 hgrounded hmany habsent

end PhraseStructure.TopDown
