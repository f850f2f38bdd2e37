import PhraseStructure.Proofs.Lookup
import PhraseStructure.Proofs.TopDown.Outcome

/-!
# Alternatives that are never used

An alternative that begins like one in front of it is never used: when it is
come to, the same symbol has just been passed over at the same position. Nor is
an empty one. So such alternatives can be left out of a grammar. Nothing is
parsed differently, and no event is missing, since passing over writes none.
-/

namespace PhraseStructure

/-- The alternative is empty, or one in front of it begins with the same symbol. -/
def Shadowed (before : List Alternative) (alternative : Alternative) : Prop :=
  ∀ first ∈ alternative.head?, ∃ earlier ∈ before, earlier.head? = some first

/-- Some shadowed alternatives are dropped from a row that stands behind others. -/
inductive DropsShadowed : List Alternative → List Alternative → List Alternative → Prop where
  | nil {before : List Alternative} : DropsShadowed before [] []
  | keep {before others kept : List Alternative} {alternative : Alternative}
      (rest : DropsShadowed (before ++ [alternative]) others kept) :
      DropsShadowed before (alternative :: others) (alternative :: kept)
  | drop {before others kept : List Alternative} {alternative : Alternative}
      (shadowed : Shadowed before alternative)
      (rest : DropsShadowed (before ++ [alternative]) others kept) :
      DropsShadowed before (alternative :: others) kept

namespace Grammar

/-- The same names in the same order, some without some shadowed alternatives. -/
def Trims (g trimmed : Grammar) : Prop :=
  List.Forall₂ (fun rule rule' ↦ rule'.name = rule.name ∧
    DropsShadowed [] rule.alternatives rule'.alternatives) g.rules trimmed.rules

theorem Trims.rel_rule? {g trimmed : Grammar} (h : g.Trims trimmed) (name : String) :
    Option.Rel (fun rule rule' ↦ rule'.name = rule.name ∧
      DropsShadowed [] rule.alternatives rule'.alternatives)
      (g.rule? name) (trimmed.rule? name) := by
  apply rel_find?_of_forall₂ h
  intro rule rule' hrule
  rw [hrule.1]

end Grammar

namespace TopDown

variable {s : Settings} {g : Grammar} {tokens : List String} {descend : String → Nat → Step Match}

/-! ## Passing over in silence -/

/-- Names that are passed over leave no trace of that. -/
def Silent (descend : String → Nat → Step Match) : Prop :=
  ∀ name pos, (descend name pos).outcome = .ok none → descend name pos = pure none

theorem Silent.matchPart (hsilent : Silent descend) {symbol : Symbol} {pos : Nat}
    (h : (matchPart s tokens descend symbol pos).outcome = .ok none) :
    matchPart s tokens descend symbol pos = pure none := by
  cases hkind : symbol.isNonterminal with
  | true =>
      rw [matchPart_of_nonterminal hkind] at h ⊢
      exact hsilent _ _ h
  | false =>
      rw [matchPart_of_surface hkind] at h ⊢
      rw [Except.ok.inj h]

theorem Silent.matchAlternative (hsilent : Silent descend) {name : String}
    {alternative : Alternative} {pos : Nat}
    (h : (matchAlternative s tokens descend name alternative pos).outcome = .ok none) :
    matchAlternative s tokens descend name alternative pos = pure none := by
  cases alternative with
  | nil => rfl
  | cons first rest =>
      have hfirst := matchAlternative_eq_none_iff.mp h first rfl
      rw [TopDown.matchAlternative, hsilent.matchPart hfirst, pure_bind]

theorem Silent.matchAlternatives (hsilent : Silent descend) {name : String}
    {alternatives : List Alternative} {pos : Nat}
    (h : (matchAlternatives s tokens descend name alternatives pos).outcome = .ok none) :
    matchAlternatives s tokens descend name alternatives pos = pure none := by
  rw [matchAlternatives_eq_none_iff] at h
  induction alternatives with
  | nil => rfl
  | cons alternative others ih =>
      obtain ⟨hfirst, hothers⟩ := List.forall_mem_cons.mp h
      rw [TopDown.matchAlternatives, hsilent.matchAlternative hfirst, pure_bind]
      exact ih hothers

theorem silent_matchName (levels : Nat) : Silent (matchName s g tokens levels) := by
  induction levels with
  | zero =>
      intro name pos h
      cases h
  | succ levels ih =>
      intro name pos h
      obtain ⟨_, rule, hlevels, hrule, hnone⟩ := matchName_eq_ok_iff.mp h
      cases hlevels
      rw [matchName, hrule]
      exact ih.matchAlternatives hnone

/-! ## Leaving out -/

/-- A shadowed alternative is passed over, if those in front of it were. -/
theorem matchAlternative_of_shadowed {before : List Alternative} {alternative : Alternative}
    (h : Shadowed before alternative) {name : String} {pos : Nat}
    (hpassed : ∀ earlier ∈ before,
      (matchAlternative s tokens descend name earlier pos).outcome = .ok none) :
    (matchAlternative s tokens descend name alternative pos).outcome = .ok none := by
  apply matchAlternative_eq_none_iff.mpr
  intro first hfirst
  obtain ⟨earlier, hmem, hsame⟩ := h first hfirst
  exact matchAlternative_eq_none_iff.mp (hpassed earlier hmem) first hsame

theorem matchAlternatives_of_dropsShadowed (hsilent : Silent descend)
    {before alternatives kept : List Alternative} (h : DropsShadowed before alternatives kept)
    {name : String} {pos : Nat}
    (hpassed : ∀ earlier ∈ before,
      (matchAlternative s tokens descend name earlier pos).outcome = .ok none) :
    matchAlternatives s tokens descend name kept pos =
      matchAlternatives s tokens descend name alternatives pos := by
  induction h with
  | nil => rfl
  | @keep before others kept alternative _ ih =>
      rw [matchAlternatives, matchAlternatives]
      apply Traced.bind_congr_of_outcome
      rintro (_ | found) hfirst
      · have hfront := List.forall_mem_append.mpr ⟨hpassed, List.forall_mem_singleton.mpr hfirst⟩
        exact ih hfront
      · rfl
  | @drop before others kept alternative hshadowed _ ih =>
      have hfirst := matchAlternative_of_shadowed hshadowed hpassed
      have hfront := List.forall_mem_append.mpr ⟨hpassed, List.forall_mem_singleton.mpr hfirst⟩
      rw [matchAlternatives, hsilent.matchAlternative hfirst, pure_bind]
      exact ih hfront

theorem matchName_of_trims {trimmed : Grammar} (h : g.Trims trimmed) (levels : Nat) :
    matchName s trimmed tokens levels = matchName s g tokens levels := by
  apply matchName_eq_of_alternatives
  intro levels name
  apply rel_mono (h.rel_rule? name)
  intro rule rule' hrule pos
  exact matchAlternatives_of_dropsShadowed (silent_matchName levels) hrule.2 nofun

/-- Whatever the start symbol, the settings and the tokens, a parse from the top
comes to the same tree or fault, and writes the same events, if alternatives
are left out that are empty or begin with the same symbol as one in front of
them in the same rule. -/
theorem parse_eq_of_trims {g trimmed : Grammar} (h : g.Trims trimmed) (start : String)
    (s : Settings) (tokens : List String) :
    parse s (trimmed.startingAt start) tokens = parse s (g.startingAt start) tokens := by
  have hstarting : (g.startingAt start).Trims (trimmed.startingAt start) := h
  rw [parse, parse, matchName_of_trims hstarting]
  rfl

/-- Alternatives that begin alike, and an empty one. -/
def repeatedBeginning : Grammar :=
  .ofRules [⟨"S", [[.nonterminal "A", .terminal "b"], [], [.nonterminal "A", .terminal "c"],
    [.terminal "x"]], 0⟩, ⟨"A", [[.terminal "a"], [.terminal "a", .nonterminal "S"]], 1⟩]

def singleBeginning : Grammar :=
  .ofRules [⟨"S", [[.nonterminal "A", .terminal "b"], [.terminal "x"]], 0⟩,
    ⟨"A", [[.terminal "a"]], 1⟩]

theorem parse_eq_of_trims_repeatedBeginning :
    repeatedBeginning.Trims singleBeginning ∧
      (parse { maxDepth := 1 } (singleBeginning.startingAt "S") ["a", "c"] =
          parse { maxDepth := 1 } (repeatedBeginning.startingAt "S") ["a", "c"] ∧
        (parse { maxDepth := 1 } (repeatedBeginning.startingAt "S") ["a", "c"]).outcome =
          .error (.mismatch "b" (some "c") 1)) ∧
      parse { emptyAtEnd := true, fullInput := true } (singleBeginning.startingAt "A")
          ["a", "x"] =
        parse { emptyAtEnd := true, fullInput := true } (repeatedBeginning.startingAt "A")
          ["a", "x"] := by
  have htrims : repeatedBeginning.Trims singleBeginning := by
    refine .cons ⟨rfl, ?_⟩ (.cons ⟨rfl, ?_⟩ .nil)
    · refine .keep (.drop nofun (.drop ?_ (.keep .nil)))
      exact fun first hfirst ↦ ⟨_, List.mem_cons_self, hfirst⟩
    · refine .keep (.drop ?_ .nil)
      exact fun first hfirst ↦ ⟨_, List.mem_cons_self, hfirst⟩
  exact ⟨htrims, ⟨parse_eq_of_trims htrims "S" _ _, rfl⟩, parse_eq_of_trims htrims "A" _ _⟩

end TopDown

end PhraseStructure
