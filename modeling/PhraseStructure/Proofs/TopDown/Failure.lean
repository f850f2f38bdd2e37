import PhraseStructure.Proofs.TopDown.Outcome

/-!
# Where a top-down match fails

A match that fails has come to some symbol of some alternative: the
alternatives before it were passed over, and the symbols in front of it were
matched. At that symbol the match of a name failed one level down, or nothing
matched although the parser was committed.

Hence every fault can be followed down to the name at which it arises. Either
no level was left, or the name has no rule, or a symbol did not match.
-/

namespace PhraseStructure.TopDown

variable {s : Settings} {g : Grammar} {tokens : List String} {descend : String → Nat → Step Match}

/-- Matching alternatives comes to a symbol, with trees for the symbols in
front of it. -/
structure ComesTo (s : Settings) (tokens : List String) (descend : String → Nat → Step Match)
    (name : String) (alternatives : List Alternative) (pos : Nat) (front : List Symbol)
    (symbol : Symbol) (trees : List Tree) (next : Nat) : Prop where
  passed : ∃ before rest behind, alternatives = before ++ (front ++ symbol :: rest) :: behind ∧
    ∀ other ∈ before, (matchAlternative s tokens descend name other pos).outcome = .ok none
  matched : (matchRest s tokens descend front pos).outcome = .ok (trees, next)

/-- Matching a symbol fails in itself, or it finds nothing and that is a fault. -/
inductive Refuses (s : Settings) (tokens : List String) (descend : String → Nat → Step Match)
    (committed : Prop) (symbol : Symbol) (next : Nat) : ParseFault → Prop where
  | below {fault : ParseFault}
      (failed : (matchPart s tokens descend symbol next).outcome = .error fault) :
      Refuses s tokens descend committed symbol next fault
  | here (late : committed)
      (nothing : (matchPart s tokens descend symbol next).outcome = .ok none) :
      Refuses s tokens descend committed symbol next
        (.mismatch symbol.surface tokens[next]? next)

theorem Refuses.imp {committed late : Prop} {symbol : Symbol} {next : Nat} {fault : ParseFault}
    (h : Refuses s tokens descend committed symbol next fault) (himp : committed → late) :
    Refuses s tokens descend late symbol next fault := by
  cases h with
  | below hfailed => exact .below hfailed
  | here hcommitted hnothing => exact .here (himp hcommitted) hnothing

/-! ## One level -/

theorem matchPart_eq_error_iff {symbol : Symbol} {pos : Nat} {fault : ParseFault} :
    (matchPart s tokens descend symbol pos).outcome = .error fault ↔
      symbol.isNonterminal = true ∧ (descend symbol.surface pos).outcome = .error fault := by
  cases hkind : symbol.isNonterminal with
  | true => simp [matchPart_of_nonterminal hkind]
  | false => simp [matchPart_of_surface hkind]

/-- A row of symbols fails at one of them, when those in front of it have
matched. A parser that was not committed before is so behind the first one. -/
def FailsWithin (s : Settings) (tokens : List String) (descend : String → Nat → Step Match)
    (committed : Prop) (symbols : List Symbol) (pos : Nat) (fault : ParseFault) : Prop :=
  ∃ front symbol rest trees next, symbols = front ++ symbol :: rest ∧
    (matchRest s tokens descend front pos).outcome = .ok (trees, next) ∧
      Refuses s tokens descend (committed ∨ front ≠ []) symbol next fault

theorem not_failsWithin_nil {committed : Prop} {pos : Nat} {fault : ParseFault} :
    ¬ FailsWithin s tokens descend committed [] pos fault := by
  rintro ⟨front, symbol, rest, trees, next, hsplit, -⟩
  exact List.append_ne_nil_of_right_ne_nil front (List.cons_ne_nil _ _) hsplit.symm

theorem failsWithin_cons_iff {committed : Prop} {first : Symbol} {symbols : List Symbol}
    {pos : Nat} {fault : ParseFault} :
    FailsWithin s tokens descend committed (first :: symbols) pos fault ↔
      Refuses s tokens descend committed first pos fault ∨
        ∃ tree next, (matchPart s tokens descend first pos).outcome = .ok (some (tree, next)) ∧
          FailsWithin s tokens descend True symbols next fault := by
  constructor
  · rintro ⟨front, symbol, rest, trees, last, hsplit, hfront, hrefuses⟩
    cases front with
    | nil =>
        cases hsplit
        cases hfront
        exact .inl (hrefuses.imp fun hlate ↦ hlate.resolve_right fun hnil ↦ hnil rfl)
    | cons other front =>
        cases hsplit
        obtain ⟨tree, next, others, hfirst, hothers, rfl⟩ := matchRest_cons_eq_ok_iff.mp hfront
        exact .inr ⟨tree, next, hfirst, front, symbol, rest, others, last, rfl, hothers,
          hrefuses.imp fun _ ↦ .inl trivial⟩
  · rintro (hrefuses | ⟨tree, next, hfirst, front, symbol, rest, trees, last, rfl, hfront,
      hrefuses⟩)
    · exact ⟨[], first, symbols, [], pos, rfl, rfl, hrefuses.imp .inl⟩
    · have hmatched : (matchRest s tokens descend (first :: front) pos).outcome =
          .ok (tree :: trees, last) :=
        matchRest_cons_eq_ok_iff.mpr ⟨tree, next, trees, hfirst, hfront, rfl⟩
      exact ⟨first :: front, symbol, rest, tree :: trees, last, rfl, hmatched,
        hrefuses.imp fun _ ↦ .inr (List.cons_ne_nil _ _)⟩

theorem matchRest_eq_error_iff {symbols : List Symbol} {pos : Nat} {fault : ParseFault} :
    (matchRest s tokens descend symbols pos).outcome = .error fault ↔
      FailsWithin s tokens descend True symbols pos fault := by
  induction symbols generalizing pos with
  | nil => exact ⟨nofun, fun h ↦ (not_failsWithin_nil h).elim⟩
  | cons first symbols ih =>
      rw [matchRest, Traced.outcome_bind_eq_error_iff, failsWithin_cons_iff]
      constructor
      · rintro (hfirst | ⟨_ | ⟨tree, next⟩, hfirst, hrest⟩)
        · exact .inl (.below hfirst)
        · cases hrest
          exact .inl (.here trivial hfirst)
        · rcases Traced.outcome_bind_eq_error_iff.mp hrest with hrest | ⟨_, -, hend⟩
          · exact .inr ⟨tree, next, hfirst, ih.mp hrest⟩
          · cases hend
      · rintro (hrefuses | ⟨tree, next, hfirst, hrest⟩)
        · cases hrefuses with
          | below hfailed => exact .inl hfailed
          | here _ hnothing => exact .inr ⟨none, hnothing, rfl⟩
        · exact .inr ⟨_, hfirst, Traced.outcome_bind_eq_error_iff.mpr (.inl (ih.mpr hrest))⟩

theorem matchAlternative_eq_error_iff {name : String} {alternative : Alternative} {pos : Nat}
    {fault : ParseFault} :
    (matchAlternative s tokens descend name alternative pos).outcome = .error fault ↔
      FailsWithin s tokens descend False alternative pos fault := by
  cases alternative with
  | nil => exact ⟨nofun, fun h ↦ (not_failsWithin_nil h).elim⟩
  | cons first symbols =>
      rw [matchAlternative, Traced.outcome_bind_eq_error_iff, failsWithin_cons_iff]
      constructor
      · rintro (hfirst | ⟨_ | ⟨tree, next⟩, hfirst, hrest⟩)
        · exact .inl (.below hfirst)
        · cases hrest
        · rcases Traced.outcome_bind_eq_error_iff.mp hrest with hemit | ⟨_, -, hrest⟩
          · cases hemit
          rcases Traced.outcome_bind_eq_error_iff.mp hrest with hrest | ⟨_, -, hend⟩
          · exact .inr ⟨tree, next, hfirst, matchRest_eq_error_iff.mp hrest⟩
          · cases hend
      · rintro (hrefuses | ⟨tree, next, hfirst, hrest⟩)
        · cases hrefuses with
          | below hfailed => exact .inl hfailed
          | here hlate _ => exact hlate.elim
        · refine .inr ⟨_, hfirst, Traced.outcome_bind_eq_error_iff.mpr (.inr ⟨(), rfl, ?_⟩)⟩
          exact Traced.outcome_bind_eq_error_iff.mpr (.inl (matchRest_eq_error_iff.mpr hrest))

theorem matchAlternatives_eq_error_iff {name : String} {alternatives : List Alternative}
    {pos : Nat} {fault : ParseFault} :
    (matchAlternatives s tokens descend name alternatives pos).outcome = .error fault ↔
      ∃ front symbol trees next,
        ComesTo s tokens descend name alternatives pos front symbol trees next ∧
          Refuses s tokens descend (front ≠ []) symbol next fault := by
  have hdecides : (.error fault : Except ParseFault Match) ≠ .ok none := nofun
  rw [matchAlternatives_eq_iff hdecides]
  constructor
  · rintro ⟨before, alternative, behind, rfl, hpassed, hfailed⟩
    obtain ⟨front, symbol, rest, trees, next, rfl, hfront, hrefuses⟩ :=
      matchAlternative_eq_error_iff.mp hfailed
    exact ⟨front, symbol, trees, next, ⟨⟨before, rest, behind, rfl, hpassed⟩, hfront⟩,
      hrefuses.imp fun hlate ↦ hlate.resolve_left id⟩
  · rintro ⟨front, symbol, trees, next, ⟨⟨before, rest, behind, rfl, hpassed⟩, hfront⟩, hrefuses⟩
    refine ⟨before, _, behind, rfl, hpassed, ?_⟩
    exact matchAlternative_eq_error_iff.mpr
      ⟨front, symbol, rest, trees, next, rfl, hfront, hrefuses.imp .inr⟩

theorem ComesTo.mem_flatten {name : String} {alternatives : List Alternative} {pos next : Nat}
    {front : List Symbol} {symbol : Symbol} {trees : List Tree}
    (h : ComesTo s tokens descend name alternatives pos front symbol trees next) :
    symbol ∈ alternatives.flatten := by
  obtain ⟨before, rest, behind, rfl, -⟩ := h.passed
  simp

/-! ## All levels -/

theorem matchName_eq_error_iff {levels : Nat} {name : String} {pos : Nat} {fault : ParseFault} :
    (matchName s g tokens levels name pos).outcome = .error fault ↔
      (levels = 0 ∧ fault = .tooDeep s.maxDepth) ∨
        ∃ below, levels = below + 1 ∧
          ((g.rule? name = none ∧ fault = .undefined name) ∨
            ∃ rule, g.rule? name = some rule ∧
              (matchAlternatives s tokens (matchName s g tokens below) name rule.alternatives
                pos).outcome = .error fault) := by
  cases levels with
  | zero => simp [matchName, eq_comm]
  | succ below =>
      rw [matchName]
      cases hrule : g.rule? name with
      | none => simp [eq_comm]
      | some rule => simp

/-- Follows a fault down to where it arises. -/
theorem matchName_fault_induction {motive : Nat → String → Nat → ParseFault → Prop}
    (limit : ∀ name pos, motive 0 name pos (.tooDeep s.maxDepth))
    (undefined : ∀ levels name pos, g.rule? name = none →
      motive (levels + 1) name pos (.undefined name))
    (here : ∀ levels name pos rule front symbol trees next, g.rule? name = some rule →
      ComesTo s tokens (matchName s g tokens levels) name rule.alternatives pos front symbol
        trees next →
      front ≠ [] →
      (matchPart s tokens (matchName s g tokens levels) symbol next).outcome = .ok none →
        motive (levels + 1) name pos (.mismatch symbol.surface tokens[next]? next))
    (below : ∀ levels name pos rule front other trees next fault, g.rule? name = some rule →
      ComesTo s tokens (matchName s g tokens levels) name rule.alternatives pos front
        (.nonterminal other) trees next →
      (matchName s g tokens levels other next).outcome = .error fault →
      motive levels other next fault → motive (levels + 1) name pos fault)
    {levels : Nat} {name : String} {pos : Nat} {fault : ParseFault}
    (h : (matchName s g tokens levels name pos).outcome = .error fault) :
    motive levels name pos fault := by
  induction levels generalizing name pos with
  | zero =>
      cases h
      exact limit name pos
  | succ levels ih =>
      rcases matchName_eq_error_iff.mp h with ⟨hlevels, -⟩ | ⟨_, hlevels, hrest⟩
      · cases hlevels
      cases hlevels
      rcases hrest with ⟨hnone, rfl⟩ | ⟨rule, hrule, hfailed⟩
      · exact undefined levels name pos hnone
      obtain ⟨front, symbol, trees, next, hcomes, hrefuses⟩ :=
        matchAlternatives_eq_error_iff.mp hfailed
      cases hrefuses with
      | here hlate hnothing =>
          exact here levels name pos rule front symbol trees next hrule hcomes hlate hnothing
      | below hpart =>
          obtain ⟨hkind, hname⟩ := matchPart_eq_error_iff.mp hpart
          rw [Symbol.eq_nonterminal hkind] at hcomes
          exact below levels name pos rule front symbol.surface trees next fault hrule hcomes hname
            (ih hname)

theorem eq_maxDepth_of_tooDeep {levels limit : Nat} {name : String} {pos : Nat}
    (h : (matchName s g tokens levels name pos).outcome = .error (.tooDeep limit)) :
    limit = s.maxDepth :=
  matchName_fault_induction
    (motive := fun _ _ _ fault ↦ ∀ limit, fault = .tooDeep limit → limit = s.maxDepth)
    (fun _ _ limit hlimit ↦ by
      cases hlimit
      rfl)
    (fun _ _ _ _ _ ↦ nofun)
    (fun _ _ _ _ _ _ _ _ _ _ _ _ _ ↦ nofun)
    (fun _ _ _ _ _ _ _ _ _ _ _ _ ih ↦ ih) h limit rfl

theorem parse_eq_error_iff {fault : ParseFault} :
    (parse s g tokens).outcome = .error fault ↔
      (matchName s g tokens (s.maxDepth + 1) g.start 0).outcome = .error fault ∨
        ((matchName s g tokens (s.maxDepth + 1) g.start 0).outcome = .ok none ∧
          fault = .noMatch g.start) ∨
        ∃ tree stop token,
          (matchName s g tokens (s.maxDepth + 1) g.start 0).outcome = .ok (some (tree, stop)) ∧
            s.fullInput = true ∧ tokens[stop]? = some token ∧ fault = .leftover token stop := by
  rw [parse, Traced.outcome_bind_eq_error_iff]
  apply or_congr_right
  constructor
  · rintro ⟨_ | ⟨tree, stop⟩, hname, hend⟩
    · cases hend
      exact .inl ⟨hname, rfl⟩
    · cases hfull : s.fullInput with
      | false =>
          rw [hfull] at hend
          cases hend
      | true =>
          rw [hfull] at hend
          cases hleft : tokens[stop]? with
          | none =>
              simp only [if_true, hleft] at hend
              cases hend
          | some token =>
              simp only [if_true, hleft] at hend
              cases hend
              exact .inr ⟨tree, stop, token, hname, rfl, hleft, rfl⟩
  · rintro (⟨hname, rfl⟩ | ⟨tree, stop, token, hname, hfull, hleft, rfl⟩)
    · exact ⟨none, hname, rfl⟩
    · refine ⟨_, hname, ?_⟩
      simp only [hfull, if_true, hleft]
      rfl

/-- A symbol is only ever missing below the start symbol. -/
theorem parse_eq_mismatch_iff {surface : String} {found : Option String} {position : Nat} :
    (parse s g tokens).outcome = .error (.mismatch surface found position) ↔
      (matchName s g tokens (s.maxDepth + 1) g.start 0).outcome =
        .error (.mismatch surface found position) := by
  simp [parse_eq_error_iff]

end PhraseStructure.TopDown
