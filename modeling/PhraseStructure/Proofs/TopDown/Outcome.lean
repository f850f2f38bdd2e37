import PhraseStructure.Parse.TopDown

/-!
# What a top-down match can come to

For each function of the parser, the ways in which it can find something and
the ways in which it can find nothing, without its events. Below them a
function is not opened again: a statement about matching is proved for the
parts, then for what is left of an alternative, for one alternative, for the
alternatives of a rule and for a name.
-/

namespace PhraseStructure.TopDown

variable {s : Settings} {g : Grammar} {tokens : List String} {descend : String → Nat → Step Match}

theorem matchPart_of_nonterminal {symbol : Symbol} (h : symbol.isNonterminal = true) (pos : Nat) :
    matchPart s tokens descend symbol pos = descend symbol.surface pos :=
  if_pos h

theorem matchPart_of_surface {symbol : Symbol} (h : symbol.isNonterminal = false) (pos : Nat) :
    matchPart s tokens descend symbol pos = pure (matchSurface s tokens symbol.surface pos) := by
  rw [matchPart, h]
  rfl

theorem matchRest_cons_eq_ok_iff {symbol : Symbol} {rest : List Symbol} {pos stop : Nat}
    {trees : List Tree} :
    (matchRest s tokens descend (symbol :: rest) pos).outcome = .ok (trees, stop) ↔
      ∃ tree next others,
        (matchPart s tokens descend symbol pos).outcome = .ok (some (tree, next)) ∧
        (matchRest s tokens descend rest next).outcome = .ok (others, stop) ∧
          trees = tree :: others := by
  rw [matchRest, Traced.outcome_bind_eq_ok_iff]
  constructor
  · rintro ⟨_ | ⟨tree, next⟩, hfirst, hrest⟩
    · cases hrest
    · obtain ⟨⟨others, last⟩, hothers, hend⟩ := Traced.outcome_bind_eq_ok_iff.mp hrest
      cases hend
      exact ⟨tree, next, others, hfirst, hothers, rfl⟩
  · rintro ⟨tree, next, others, hfirst, hrest, rfl⟩
    refine ⟨some (tree, next), hfirst, ?_⟩
    apply Traced.outcome_bind_eq_ok_iff.mpr
    exact ⟨(others, stop), hrest, rfl⟩

theorem matchAlternative_eq_some_iff {name : String} {alternative : Alternative} {pos stop : Nat}
    {tree : Tree} :
    (matchAlternative s tokens descend name alternative pos).outcome = .ok (some (tree, stop)) ↔
      ∃ first rest child next others, alternative = first :: rest ∧
        (matchPart s tokens descend first pos).outcome = .ok (some (child, next)) ∧
          (matchRest s tokens descend rest next).outcome = .ok (others, stop) ∧
            tree = .node name (child :: others) := by
  constructor
  · intro h
    cases alternative with
    | nil => cases h
    | cons first rest =>
        rw [matchAlternative, Traced.outcome_bind_eq_ok_iff] at h
        obtain ⟨_ | ⟨child, next⟩, hfirst, hrest⟩ := h
        · cases hrest
        · obtain ⟨⟨⟩, _, hrest⟩ := Traced.outcome_bind_eq_ok_iff.mp hrest
          obtain ⟨⟨others, last⟩, hothers, hend⟩ := Traced.outcome_bind_eq_ok_iff.mp hrest
          cases hend
          exact ⟨first, rest, child, next, others, rfl, hfirst, hothers, rfl⟩
  · rintro ⟨first, rest, child, next, others, rfl, hfirst, hrest, rfl⟩
    rw [matchAlternative, Traced.outcome_bind_of_ok hfirst, Traced.outcome_bind_of_ok rfl,
      Traced.outcome_bind_of_ok hrest]
    rfl

/-- An alternative is passed over if its first symbol does not match. Once
that has matched, there is a tree or a fault. -/
theorem matchAlternative_eq_none_iff {name : String} {alternative : Alternative} {pos : Nat} :
    (matchAlternative s tokens descend name alternative pos).outcome = .ok none ↔
      ∀ first ∈ alternative.head?, (matchPart s tokens descend first pos).outcome = .ok none := by
  cases alternative with
  | nil => exact ⟨fun _ ↦ nofun, fun _ ↦ rfl⟩
  | cons first rest =>
      constructor
      · intro h _ hfirst
        cases hfirst
        rw [matchAlternative, Traced.outcome_bind_eq_ok_iff] at h
        obtain ⟨_ | ⟨child, next⟩, hpart, hrest⟩ := h
        · exact hpart
        · obtain ⟨⟨⟩, _, hrest⟩ := Traced.outcome_bind_eq_ok_iff.mp hrest
          obtain ⟨_, _, hend⟩ := Traced.outcome_bind_eq_ok_iff.mp hrest
          cases hend
      · intro h
        rw [matchAlternative, Traced.outcome_bind_of_ok (h first rfl)]
        rfl

theorem matchAlternatives_eq_none_iff {name : String} {alternatives : List Alternative}
    {pos : Nat} :
    (matchAlternatives s tokens descend name alternatives pos).outcome = .ok none ↔
      ∀ alternative ∈ alternatives,
        (matchAlternative s tokens descend name alternative pos).outcome = .ok none := by
  induction alternatives with
  | nil => exact ⟨fun _ ↦ nofun, fun _ ↦ rfl⟩
  | cons alternative others ih =>
      rw [matchAlternatives, Traced.outcome_bind_eq_ok_iff, List.forall_mem_cons, ← ih]
      constructor
      · rintro ⟨_ | found, hfirst, hothers⟩
        · exact ⟨hfirst, hothers⟩
        · cases hothers
      · rintro ⟨hfirst, hothers⟩
        exact ⟨none, hfirst, hothers⟩

/-- The alternative that decides stands behind alternatives that are passed
over. -/
theorem matchAlternatives_eq_iff {name : String} {alternatives : List Alternative} {pos : Nat}
    {outcome : Except ParseFault Match} (hdecides : outcome ≠ .ok none) :
    (matchAlternatives s tokens descend name alternatives pos).outcome = outcome ↔
      ∃ before alternative after, alternatives = before ++ alternative :: after ∧
        (∀ passed ∈ before,
          (matchAlternative s tokens descend name passed pos).outcome = .ok none) ∧
          (matchAlternative s tokens descend name alternative pos).outcome = outcome := by
  induction alternatives with
  | nil =>
      constructor
      · intro h
        exact (hdecides h.symm).elim
      · rintro ⟨before, alternative, after, hsplit, _⟩
        exact (List.append_ne_nil_of_right_ne_nil before (List.cons_ne_nil _ _) hsplit.symm).elim
  | cons first others ih =>
      have hstep : (matchAlternatives s tokens descend name (first :: others) pos).outcome =
          match (matchAlternative s tokens descend name first pos).outcome with
          | .ok none => (matchAlternatives s tokens descend name others pos).outcome
          | decided => decided := by
        rw [matchAlternatives, Traced.outcome_bind]
        rcases (matchAlternative s tokens descend name first pos).outcome with fault | _ | found <;>
          rfl
      rw [hstep]
      constructor
      · intro h
        split at h
        next hfirst =>
            obtain ⟨before, alternative, after, rfl, hpassed, hfound⟩ := ih.mp h
            exact ⟨first :: before, alternative, after, rfl,
              List.forall_mem_cons.mpr ⟨hfirst, hpassed⟩, hfound⟩
        next => exact ⟨[], first, others, rfl, nofun, h⟩
      · rintro ⟨before, alternative, after, hsplit, hpassed, hfound⟩
        cases before with
        | nil =>
            cases hsplit
            rw [hfound]
            split
            next => exact (hdecides rfl).elim
            next => rfl
        | cons passed before =>
            cases hsplit
            have hpassed := List.forall_mem_cons.mp hpassed
            rw [hpassed.1]
            exact ih.mpr ⟨before, alternative, after, rfl, hpassed.2, hfound⟩

/-- The alternative that is found stands behind alternatives that are passed
over. -/
theorem matchAlternatives_eq_some_iff {name : String} {alternatives : List Alternative}
    {pos : Nat} {found : Tree × Nat} :
    (matchAlternatives s tokens descend name alternatives pos).outcome = .ok (some found) ↔
      ∃ before alternative after, alternatives = before ++ alternative :: after ∧
        (∀ passed ∈ before,
          (matchAlternative s tokens descend name passed pos).outcome = .ok none) ∧
          (matchAlternative s tokens descend name alternative pos).outcome = .ok (some found) :=
  matchAlternatives_eq_iff nofun

theorem matchName_eq_ok_iff {levels : Nat} {name : String} {pos : Nat} {found : Match} :
    (matchName s g tokens levels name pos).outcome = .ok found ↔
      ∃ below rule, levels = below + 1 ∧ g.rule? name = some rule ∧
        (matchAlternatives s tokens (matchName s g tokens below) name rule.alternatives
          pos).outcome = .ok found := by
  cases levels with
  | zero =>
      constructor
      · intro h
        cases h
      · rintro ⟨below, rule, hlevels, _⟩
        cases hlevels
  | succ below =>
      rw [matchName]
      cases hrule : g.rule? name with
      | none =>
          constructor
          · intro h
            cases h
          · rintro ⟨_, rule, _, hsome, _⟩
            cases hsome
      | some rule =>
          constructor
          · intro h
            exact ⟨below, rule, rfl, rfl, h⟩
          · rintro ⟨_, _, hlevels, hsome, h⟩
            cases hlevels
            cases hsome
            exact h

/-- Of the rules a match looks only at what their alternatives come to. -/
theorem matchName_eq_of_alternatives {g' : Grammar}
    (h : ∀ levels name, Option.Rel (fun rule rule' ↦ ∀ pos,
      matchAlternatives s tokens (matchName s g tokens levels) name rule'.alternatives pos =
        matchAlternatives s tokens (matchName s g tokens levels) name rule.alternatives pos)
      (g.rule? name) (g'.rule? name)) (levels : Nat) :
    matchName s g' tokens levels = matchName s g tokens levels := by
  induction levels with
  | zero => rfl
  | succ levels ih =>
      funext name pos
      rw [matchName, matchName, ih]
      have hlookup := h levels name
      generalize g.rule? name = found at hlookup
      generalize g'.rule? name = found' at hlookup
      cases hlookup with
      | some hsame => exact hsame pos
      | none => rfl

/-- Of the settings a parse itself looks only at whether all tokens are to be used. -/
theorem outcome_parse_congr {s' : Settings} (hfull : s'.fullInput = s.fullInput)
    (hname : (matchName s' g tokens (s'.maxDepth + 1) g.start 0).outcome =
      (matchName s g tokens (s.maxDepth + 1) g.start 0).outcome) :
    (parse s' g tokens).outcome = (parse s g tokens).outcome := by
  simp only [parse, Traced.outcome_bind, hname, hfull]

theorem parse_eq_ok_iff {tree : Tree} :
    (parse s g tokens).outcome = .ok tree ↔
      ∃ stop, (matchName s g tokens (s.maxDepth + 1) g.start 0).outcome = .ok (some (tree, stop)) ∧
        (s.fullInput = true → tokens.length ≤ stop) := by
  rw [parse, Traced.outcome_bind_eq_ok_iff]
  constructor
  · rintro ⟨_ | ⟨found, stop⟩, hname, hend⟩
    · cases hend
    · cases hfull : s.fullInput with
      | false =>
          rw [hfull] at hend
          cases hend
          exact ⟨stop, hname, nofun⟩
      | true =>
          rw [hfull] at hend
          cases hleft : tokens[stop]? with
          | none =>
              simp only [if_true, hleft] at hend
              cases hend
              exact ⟨stop, hname, fun _ ↦ List.getElem?_eq_none_iff.mp hleft⟩
          | some token =>
              simp only [if_true, hleft] at hend
              cases hend
  · rintro ⟨stop, hname, hfull⟩
    refine ⟨_, hname, ?_⟩
    have hleft : (if s.fullInput then tokens[stop]? else none) = none := by
      split
      next h => exact List.getElem?_eq_none_iff.mpr (hfull h)
      next => rfl
    simp only [hleft]
    rfl

end PhraseStructure.TopDown
