import PhraseStructure.Proofs.Sentence.Expansion

/-!
# Where an expansion fails

An expansion that fails has come to some nonterminal of the chosen
alternative: the symbols in front of it were expanded, and the words that this
took are drawn. The fault arises at that nonterminal, one level down.

Hence every fault can be followed down to the name at which it arises. Either
no level was left, or the name has no rule. It is located at the rule that the
last step down was made from.
-/

namespace PhraseStructure.Sentence

variable {g : Grammar} {s stop : WordSource} {error : SentenceError}

/-! ## One level -/

theorem run_bind_eq_error_iff {α β : Type} {x : Draw α} {next : α → Draw β} :
    (x >>= next).run s = (.error error, stop) ↔
      x.run s = (.error error, stop) ∨
        ∃ a middle, x.run s = (.ok a, middle) ∧ (next a).run middle = (.error error, stop) := by
  rw [run_bind]
  rcases x.run s with ⟨e | a, middle⟩
  · constructor
    · intro h
      cases h
      exact .inl rfl
    · rintro (h | ⟨_, _, hsame, -⟩)
      · cases h
        rfl
      · cases hsame
  · constructor
    · intro h
      exact .inr ⟨a, middle, rfl, h⟩
    · rintro (h | ⟨_, _, hsame, h⟩)
      · cases h
      · cases hsame
        exact h

variable {expandName : String → Draw Tree}

theorem expandSymbol_eq_error_iff {symbol : Symbol} :
    (expandSymbol expandName symbol).run s = (.error error, stop) ↔
      symbol.isNonterminal = true ∧
        (expandName symbol.surface).run s = (.error error, stop) := by
  cases hkind : symbol.isNonterminal with
  | true => simp [expandSymbol_of_nonterminal hkind]
  | false =>
      rw [expandSymbol_of_surface hkind]
      constructor
      · intro h
        cases h
      · rintro ⟨hsame, -⟩
        cases hsame

theorem expandSymbols_eq_error_iff {symbols : List Symbol} :
    (expandSymbols expandName symbols).run s = (.error error, stop) ↔
      ∃ front symbol rest trees middle, symbols = front ++ symbol :: rest ∧
        (expandSymbols expandName front).run s = (.ok trees, middle) ∧
          (expandSymbol expandName symbol).run middle = (.error error, stop) := by
  induction symbols generalizing s with
  | nil =>
      constructor
      · intro h
        cases h
      · rintro ⟨front, symbol, rest, trees, middle, hsplit, -⟩
        exact (List.append_ne_nil_of_right_ne_nil front (List.cons_ne_nil _ _) hsplit.symm).elim
  | cons first symbols ih =>
      rw [expandSymbols, run_bind_eq_error_iff]
      constructor
      · rintro (hfirst | ⟨tree, next, hfirst, hrest⟩)
        · exact ⟨[], first, symbols, [], s, rfl, rfl, hfirst⟩
        · rcases run_bind_eq_error_iff.mp hrest with hrest | ⟨_, _, -, hend⟩
          · obtain ⟨front, symbol, rest, trees, middle, rfl, hfront, hfailed⟩ := ih.mp hrest
            have hmatched : (expandSymbols expandName (first :: front)).run s =
                (.ok (tree :: trees), middle) :=
              expandSymbols_cons_eq_ok_iff.mpr ⟨tree, next, trees, hfirst, hfront, rfl⟩
            exact ⟨first :: front, symbol, rest, tree :: trees, middle, rfl, hmatched, hfailed⟩
          · cases hend
      · rintro ⟨front, symbol, rest, trees, middle, hsplit, hfront, hfailed⟩
        cases front with
        | nil =>
            cases hsplit
            cases hfront
            exact .inl hfailed
        | cons other front =>
            cases hsplit
            obtain ⟨tree, next, others, hfirst, hothers, rfl⟩ :=
              expandSymbols_cons_eq_ok_iff.mp hfront
            have hrest := ih.mpr ⟨front, symbol, rest, others, middle, rfl, hothers, hfailed⟩
            exact .inr ⟨tree, next, hfirst, run_bind_eq_error_iff.mpr (.inl hrest)⟩

theorem expand_eq_error_iff {levels : Nat} {place : Location} {name : String} :
    (expand g levels place name).run s = (.error error, stop) ↔
      (levels = 0 ∧ error = ⟨place, .tooDeep maxDepth⟩ ∧ stop = s) ∨
        ∃ below, levels = below + 1 ∧
          ((g.rule? name = none ∧ error = ⟨place, .undefined name⟩ ∧ stop = s) ∨
            ∃ rule chosen middle, g.rule? name = some rule ∧
              Choice.choose rule.alternatives s = (chosen, middle) ∧
                (expandSymbols (expand g below ⟨none, rule.line⟩) (chosen.getD [])).run middle =
                  (.error error, stop)) := by
  cases levels with
  | zero =>
      constructor
      · intro h
        cases h
        exact .inl ⟨rfl, rfl, rfl⟩
      · rintro (⟨-, rfl, rfl⟩ | ⟨below, hlevels, -⟩)
        · rfl
        · cases hlevels
  | succ below =>
      rw [expand]
      cases hrule : g.rule? name with
      | none =>
          constructor
          · intro h
            cases h
            exact .inr ⟨below, rfl, .inl ⟨rfl, rfl, rfl⟩⟩
          · rintro (⟨hlevels, -⟩ | ⟨_, -, ⟨-, rfl, rfl⟩ | ⟨_, _, _, hsome, -⟩⟩)
            · cases hlevels
            · rfl
            · cases hsome
      | some rule =>
          constructor
          · intro h
            rcases run_bind_eq_error_iff.mp h with hchoose | ⟨chosen, middle, hchosen, hnext⟩
            · cases hchoose
            cases hchosen
            rcases run_bind_eq_error_iff.mp hnext with htrees | ⟨_, _, -, hend⟩
            · exact .inr ⟨below, rfl, .inr ⟨rule, _, _, rfl, rfl, htrees⟩⟩
            · cases hend
          · rintro (⟨hlevels, -⟩ | ⟨_, hlevels, ⟨hnone, -⟩ | ⟨_, chosen, middle, hsome, hchoose,
              htrees⟩⟩)
            · cases hlevels
            · cases hnone
            cases hlevels
            cases hsome
            refine run_bind_eq_error_iff.mpr (.inr ⟨chosen, middle, run_choose hchoose, ?_⟩)
            exact run_bind_eq_error_iff.mpr (.inl htrees)

theorem generateFrom_eq_error_iff {start : String} :
    (generateFrom g start).run s = (.error error, stop) ↔
      (derive g start).run s = (.error error, stop) := by
  rw [generateFrom, map_eq_pure_bind, run_bind_eq_error_iff]
  constructor
  · rintro (h | ⟨_, _, -, hend⟩)
    · exact h
    · cases hend
  · exact .inl

/-! ## All levels -/

/-- Follows a fault down to where it arises. -/
theorem expand_fault_induction {motive : Nat → Location → String → SentenceError → Prop}
    (limit : ∀ place name, motive 0 place name ⟨place, .tooDeep maxDepth⟩)
    (undefined : ∀ levels place name, g.rule? name = none →
      motive (levels + 1) place name ⟨place, .undefined name⟩)
    (below : ∀ levels place name rule other error, g.rule? name = some rule →
      .nonterminal other ∈ rule.alternatives.flatten →
      motive levels ⟨none, rule.line⟩ other error → motive (levels + 1) place name error)
    {levels : Nat} {place : Location} {name : String}
    (h : (expand g levels place name).run s = (.error error, stop)) :
    motive levels place name error := by
  induction levels generalizing place name s with
  | zero =>
      cases h
      exact limit place name
  | succ levels ih =>
      rcases expand_eq_error_iff.mp h with ⟨hlevels, -⟩ | ⟨_, hlevels, hrest⟩
      · cases hlevels
      cases hlevels
      rcases hrest with ⟨hnone, rfl, -⟩ | ⟨rule, chosen, middle, hrule, hchoose, htrees⟩
      · exact undefined levels place name hnone
      obtain ⟨front, symbol, rest, trees, next, hsplit, -, hsymbol⟩ :=
        expandSymbols_eq_error_iff.mp htrees
      obtain ⟨hkind, hfailed⟩ := expandSymbol_eq_error_iff.mp hsymbol
      have hmem : symbol ∈ chosen.getD [] := by simp [hsplit]
      cases chosen with
      | none => cases hmem
      | some alternative =>
          have hdeclared : alternative ∈ rule.alternatives :=
            Choice.mem_of_choose (congrArg Prod.fst hchoose)
          have hused := List.mem_flatten_of_mem hdeclared hmem
          rw [Symbol.eq_nonterminal hkind] at hused
          exact below levels place name rule symbol.surface error hrule hused (ih hfailed)

end PhraseStructure.Sentence
