import PhraseStructure.Grammar.LeftCorner
import PhraseStructure.Proofs.Leftmost
import PhraseStructure.Proofs.TopDown.Locality

/-!
# What a missing symbol says about the grammar

A symbol is reported as missing at the end of a leftmost derivation: the start
symbol is rewritten until the words that were read come first and the symbol
comes next. At each level the part of the derivation is that of the symbols in
front of the one which failed.

A symbol of which the next word is a left corner is never passed over: an
alternative of it commits, or its match fails. The missing symbol was passed
over, so the next word is none of its corners.
-/

namespace PhraseStructure.TopDown

variable {s : Settings} {g : Grammar} {tokens : List String}

/-- A symbol that is passed over cannot begin with the next word. -/
theorem not_corner_of_matchPart {levels pos : Nat} {symbol : Symbol} {word : String}
    (h : (matchPart s tokens (matchName s g tokens levels) symbol pos).outcome = .ok none)
    (hword : lookahead s tokens pos = some word) : ¬ g.Corner symbol word := by
  intro hcorner
  induction hcorner generalizing levels with
  | @surface symbol hkind =>
      rw [matchPart_of_surface hkind, matchSurface_eq, if_pos hword] at h
      cases h
  | @first rule symbol rest surface hrule hchosen _ ih =>
      rw [matchPart_of_nonterminal rfl] at h
      obtain ⟨below, found, -, hfound, hnone⟩ := matchName_eq_ok_iff.mp h
      cases (Grammar.rule?_eq_some_iff.mpr ⟨hrule, rfl⟩).symm.trans hfound
      have hpassed := matchAlternatives_eq_none_iff.mp hnone _ hchosen
      exact ih (matchAlternative_eq_none_iff.mp hpassed symbol rfl) hword

/-- Behind the words that were read from a position on, a symbol is missing
that could come next. -/
structure Misses (s : Settings) (g : Grammar) (tokens : List String) (name : String) (pos : Nat)
    (symbol : Symbol) (words : List String) (stop : Nat) : Prop where
  late : words ≠ []
  read : Reads s tokens pos words stop
  reached : g.LeftmostReaches name words symbol
  apart : ∀ word ∈ lookahead s tokens stop, ¬ g.Corner symbol word

section

variable {levels pos next : Nat} {name : String} {rule : Rule} {front : List Symbol}
  {trees : List Tree}

theorem ComesTo.leftmostReaches {symbol : Symbol} (hrule : g.rule? name = some rule)
    (h : ComesTo s tokens (matchName s g tokens levels) name rule.alternatives pos front symbol
      trees next) :
    g.LeftmostReaches name (Tree.leavesOf trees) symbol := by
  obtain ⟨hmem, rfl⟩ := Grammar.rule?_eq_some_iff.mp hrule
  obtain ⟨before, rest, behind, hsplit, -⟩ := h.passed
  have hchosen : front ++ symbol :: rest ∈ rule.alternatives := by simp [hsplit]
  have hyields := h.accounts.derives.leftmostYields fun _ hread ↦ reads_eq_true_iff.mp hread
  exact .of_rule hmem hchosen hyields

theorem ComesTo.misses_here {symbol : Symbol} (hrule : g.rule? name = some rule)
    (hcomes : ComesTo s tokens (matchName s g tokens levels) name rule.alternatives pos front
      symbol trees next)
    (hlate : front ≠ [])
    (hnothing : (matchPart s tokens (matchName s g tokens levels) symbol next).outcome =
      .ok none) :
    Misses s g tokens name pos symbol (Tree.leavesOf trees) next where
  late := hcomes.accounts.derives.leavesOf_ne_nil hlate
  read := hcomes.accounts.words
  reached := hcomes.leftmostReaches hrule
  apart := fun _ hword ↦ not_corner_of_matchPart hnothing hword

theorem ComesTo.misses_below {other : String} {symbol : Symbol} {words : List String} {stop : Nat}
    (hrule : g.rule? name = some rule)
    (hcomes : ComesTo s tokens (matchName s g tokens levels) name rule.alternatives pos front
      (.nonterminal other) trees next)
    (hmisses : Misses s g tokens other next symbol words stop) :
    Misses s g tokens name pos symbol (Tree.leavesOf trees ++ words) stop where
  late := List.append_ne_nil_of_right_ne_nil _ hmisses.late
  read := reads_append_iff.mpr ⟨next, hcomes.accounts.words, hmisses.read⟩
  reached := (hcomes.leftmostReaches hrule).trans hmisses.reached
  apart := hmisses.apart

end

theorem exists_misses_of_matchName {levels pos position : Nat} {name surface : String}
    {found : Option String}
    (h : (matchName s g tokens levels name pos).outcome =
      .error (.mismatch surface found position)) :
    found = tokens[position]? ∧ ∃ symbol words, symbol.surface = surface ∧
      Misses s g tokens name pos symbol words position := by
  generalize hfault : ParseFault.mismatch surface found position = fault at h
  revert hfault
  refine matchName_fault_induction (motive := fun _ name pos fault ↦
    .mismatch surface found position = fault →
      found = tokens[position]? ∧ ∃ symbol words, symbol.surface = surface ∧
        Misses s g tokens name pos symbol words position)
    ?limit ?undefined ?here ?below h
  case limit =>
    intro name pos hfault
    cases hfault
  case undefined =>
    intro levels name pos _ hfault
    cases hfault
  case here =>
    intro levels name pos rule front symbol trees next hrule hcomes hlate hnothing hfault
    cases hfault
    exact ⟨rfl, symbol, _, rfl, hcomes.misses_here hrule hlate hnothing⟩
  case below =>
    intro levels name pos rule front other trees next fault hrule hcomes _ ih hfault
    obtain ⟨hfound, symbol, words, hsurface, hmisses⟩ := ih hfault
    exact ⟨hfound, symbol, _, hsurface, hcomes.misses_below hrule hmisses⟩

/-- Whatever the grammar and the settings, a missing symbol is reported where
it could come next. The start symbol derives from the left the tokens in front
of the position, then maybe empty words if there are no more tokens, then the
symbol. The symbol cannot begin with the token at the position, nor with an
empty word where the end of the tokens may be read as one. -/
theorem parse_mismatch {s : Settings} {g : Grammar} {tokens : List String} {surface : String}
    {found : Option String} {position : Nat}
    (h : (parse s g tokens).outcome = .error (.mismatch surface found position)) :
    position ≤ tokens.length ∧ found = tokens[position]? ∧
      ∃ symbol words rest empties, symbol.surface = surface ∧
        (∀ word ∈ words, word.isNonterminal = false) ∧
        words.map Symbol.surface = tokens.take position ++ List.replicate empties "" ∧
        g.LeftmostDerives [.nonterminal g.start] (words ++ symbol :: rest) ∧
        (s.emptyAtEnd = false → empties = 0 ∧ 1 ≤ position) ∧
        (0 < empties → position = tokens.length) ∧
        (∀ token ∈ found, ¬ g.Corner symbol token) ∧
        (s.emptyAtEnd = true → found = none → ¬ g.Corner symbol "") := by
  obtain ⟨rfl, symbol, words, rfl, hmisses⟩ :=
    exists_misses_of_matchName (parse_eq_mismatch_iff.mp h)
  obtain ⟨row, rest, hrow, hderives⟩ := hmisses.reached
  obtain ⟨hposition, empties, hwords, hend, hnone⟩ := hmisses.read.eq_take
  refine ⟨hposition, rfl, symbol, row, rest, empties, rfl, hrow.finished,
    hrow.surfaces.trans hwords, hderives, ?_, hend, ?_, ?_⟩
  · intro hstrict
    exact ⟨hnone hstrict, hmisses.read.lt_of_strict hstrict hmisses.late⟩
  · intro token htoken
    apply hmisses.apart
    simp [lookahead, Option.mem_def.mp htoken]
  · intro hempty hmissing
    apply hmisses.apart
    simp [lookahead, hmissing, hempty]

/-- Brackets that need not hold anything. -/
def openBrackets : Grammar :=
  .ofRules [⟨"S", [[.terminal "(", .nonterminal "Item", .terminal ")"]], 0⟩,
    ⟨"Item", [[.terminal "x"], [.terminal ""]], 1⟩]

theorem parse_mismatch_unclosed :
    (parse { emptyAtEnd := true } openBrackets ["("]).outcome =
        .error (.mismatch ")" none 1) ∧
      1 ≤ 1 ∧ none = ["("][1]? ∧
      ∃ symbol words rest empties, symbol.surface = ")" ∧
        (∀ word ∈ words, word.isNonterminal = false) ∧
        words.map Symbol.surface = ["("].take 1 ++ List.replicate empties "" ∧
        openBrackets.LeftmostDerives [.nonterminal "S"] (words ++ symbol :: rest) ∧
        (true = false → empties = 0 ∧ 1 ≤ 1) ∧ (0 < empties → 1 = 1) ∧
        (∀ token ∈ (none : Option String), ¬ openBrackets.Corner symbol token) ∧
        (true = true → (none : Option String) = none → ¬ openBrackets.Corner symbol "") := by
  have hparse : (parse { emptyAtEnd := true } openBrackets ["("]).outcome =
      .error (.mismatch ")" none 1) := rfl
  exact ⟨hparse, parse_mismatch hparse⟩

end PhraseStructure.TopDown
