import PhraseStructure.Grammar.LeftCorner
import PhraseStructure.Proofs.Derivation
import PhraseStructure.Proofs.Sentence.Choice
import PhraseStructure.Proofs.TopDown.Reading
import PhraseStructure.Sentence

/-!
# What a random expansion can come to

For each function of the generator, the ways in which it can succeed: where it
draws, and from where the next part draws on. Below them a function is not
opened again.

If every rule has an alternative and none is empty, a name expands to
derivation trees only, and their nodes nest no deeper than the levels allow.
-/

namespace PhraseStructure

namespace Tree

mutual

/-- The number of nodes on the longest way down. The lowest of them has all
the others above it. -/
def nesting : Tree → Nat
  | leaf _ => 0
  | node _ children => nestingOf children + 1

def nestingOf : List Tree → Nat
  | [] => 0
  | t :: ts => max (nesting t) (nestingOf ts)

end

end Tree

namespace Sentence

open TopDown (reads)

variable {g : Grammar} {s stop : WordSource}

/-! ## Runs -/

theorem run_bind {α β : Type} (x : Draw α) (next : α → Draw β) :
    (x >>= next).run s =
      match x.run s with
      | (.ok a, middle) => (next a).run middle
      | (.error e, middle) => (.error e, middle) := by
  change (match x.run s with
    | (outcome, middle) => ExceptT.bindCont next outcome middle) = _
  rcases x.run s with ⟨e | a, middle⟩ <;> rfl

theorem run_bind_eq_ok_iff {α β : Type} {x : Draw α} {next : α → Draw β} {b : β} :
    (x >>= next).run s = (.ok b, stop) ↔
      ∃ a middle, x.run s = (.ok a, middle) ∧ (next a).run middle = (.ok b, stop) := by
  rw [run_bind]
  rcases x.run s with ⟨e | a, middle⟩
  · constructor
    · intro h
      cases h
    · rintro ⟨_, _, hsame, -⟩
      cases hsame
  · constructor
    · intro h
      exact ⟨a, middle, rfl, h⟩
    · rintro ⟨_, _, hsame, h⟩
      cases hsame
      exact h

theorem run_pure_eq_ok_iff {α : Type} {a b : α} :
    (pure a : Draw α).run s = (.ok b, stop) ↔ b = a ∧ stop = s := by
  constructor
  · intro h
    cases h
    exact ⟨rfl, rfl⟩
  · rintro ⟨rfl, rfl⟩
    rfl

theorem run_choose {alternatives : List Alternative} {chosen : Option Alternative}
    (h : Choice.choose alternatives s = (chosen, stop)) :
    (choose alternatives).run s = (.ok chosen, stop) := by
  change (Except.ok (Choice.choose alternatives s).1, (Choice.choose alternatives s).2) = _
  rw [h]

variable {expandName : String → Draw Tree}

theorem expandSymbol_of_nonterminal {symbol : Symbol} (h : symbol.isNonterminal = true) :
    expandSymbol expandName symbol = expandName symbol.surface :=
  if_pos h

theorem expandSymbol_of_surface {symbol : Symbol} (h : symbol.isNonterminal = false) :
    expandSymbol expandName symbol = pure (.leaf symbol.surface) := by
  rw [expandSymbol, h]
  rfl

theorem expandSymbols_cons_eq_ok_iff {symbol : Symbol} {rest : List Symbol} {trees : List Tree} :
    (expandSymbols expandName (symbol :: rest)).run s = (.ok trees, stop) ↔
      ∃ tree middle others, (expandSymbol expandName symbol).run s = (.ok tree, middle) ∧
        (expandSymbols expandName rest).run middle = (.ok others, stop) ∧
          trees = tree :: others := by
  rw [expandSymbols, run_bind_eq_ok_iff]
  constructor
  · rintro ⟨tree, middle, hfirst, hrest⟩
    obtain ⟨others, last, hothers, hend⟩ := run_bind_eq_ok_iff.mp hrest
    cases hend
    exact ⟨tree, middle, others, hfirst, hothers, rfl⟩
  · rintro ⟨tree, middle, others, hfirst, hrest, rfl⟩
    refine ⟨tree, middle, hfirst, ?_⟩
    apply run_bind_eq_ok_iff.mpr
    exact ⟨others, stop, hrest, rfl⟩

theorem expand_eq_ok_iff {levels : Nat} {place : Location} {name : String} {tree : Tree} :
    (expand g levels place name).run s = (.ok tree, stop) ↔
      ∃ below rule chosen middle trees, levels = below + 1 ∧ g.rule? name = some rule ∧
        Choice.choose rule.alternatives s = (chosen, middle) ∧
          (expandSymbols (expand g below ⟨none, rule.line⟩) (chosen.getD [])).run middle =
            (.ok trees, stop) ∧ tree = .node name trees := by
  cases levels with
  | zero =>
      constructor
      · intro h
        cases h
      · rintro ⟨below, rule, chosen, middle, trees, hlevels, -⟩
        cases hlevels
  | succ below =>
      rw [expand]
      cases hrule : g.rule? name with
      | none =>
          constructor
          · intro h
            cases h
          · rintro ⟨_, rule, _, _, _, -, hsome, -⟩
            cases hsome
      | some rule =>
          constructor
          · intro h
            obtain ⟨chosen, middle, hchosen, hnext⟩ := run_bind_eq_ok_iff.mp h
            obtain ⟨trees, last, htrees, hend⟩ := run_bind_eq_ok_iff.mp hnext
            cases hchosen
            cases hend
            exact ⟨below, rule, _, _, trees, rfl, rfl, rfl, htrees, rfl⟩
          · rintro ⟨_, _, chosen, middle, trees, hlevels, hsome, hchosen, htrees, rfl⟩
            cases hlevels
            cases hsome
            refine run_bind_eq_ok_iff.mpr ⟨chosen, middle, run_choose hchosen, ?_⟩
            exact run_bind_eq_ok_iff.mpr ⟨trees, stop, htrees, rfl⟩

/-! ## Soundness -/

/-- A tree for the symbol whose nodes nest up to the given number. -/
structure Unfolds (g : Grammar) (levels : Nat) (symbol : Symbol) (tree : Tree) : Prop where
  derives : g.Derives reads symbol tree
  nesting_le : tree.nesting ≤ levels

structure UnfoldsEach (g : Grammar) (levels : Nat) (symbols : List Symbol) (trees : List Tree) :
    Prop where
  derives : g.DerivesEach reads symbols trees
  nesting_le : Tree.nestingOf trees ≤ levels

/-- All expansions of names one level down are trees for their names. -/
def Sound (g : Grammar) (levels : Nat) (expandName : String → Draw Tree) : Prop :=
  ∀ name tree s stop, (expandName name).run s = (.ok tree, stop) →
    Unfolds g levels (.nonterminal name) tree

variable {levels : Nat}

theorem Sound.expandSymbol (hsound : Sound g levels expandName) {symbol : Symbol} {tree : Tree}
    (h : (expandSymbol expandName symbol).run s = (.ok tree, stop)) :
    Unfolds g levels symbol tree := by
  cases hkind : symbol.isNonterminal with
  | true =>
      rw [expandSymbol_of_nonterminal hkind] at h
      rw [Symbol.eq_nonterminal hkind]
      exact hsound _ _ _ _ h
  | false =>
      rw [expandSymbol_of_surface hkind] at h
      obtain ⟨rfl, -⟩ := run_pure_eq_ok_iff.mp h
      exact ⟨.leaf (TopDown.reads_eq_true_iff.mpr hkind), Nat.zero_le _⟩

theorem Sound.expandSymbols (hsound : Sound g levels expandName) {symbols : List Symbol}
    {trees : List Tree} (h : (expandSymbols expandName symbols).run s = (.ok trees, stop)) :
    UnfoldsEach g levels symbols trees := by
  induction symbols generalizing s trees with
  | nil =>
      obtain ⟨rfl, -⟩ := run_pure_eq_ok_iff.mp h
      exact ⟨.nil, Nat.zero_le _⟩
  | cons symbol rest ih =>
      obtain ⟨tree, middle, others, hfirst, hrest, rfl⟩ := expandSymbols_cons_eq_ok_iff.mp h
      have htree := hsound.expandSymbol hfirst
      have hothers := ih hrest
      exact ⟨.cons htree.derives hothers.derives,
        Nat.max_le.mpr ⟨htree.nesting_le, hothers.nesting_le⟩⟩

theorem sound_expand (hfilled : g.Filled) (hoffered : ∀ rule ∈ g.rules, rule.alternatives ≠ [])
    (levels : Nat) (place : Location) : Sound g levels (expand g levels place) := by
  induction levels generalizing place with
  | zero =>
      intro name tree s stop h
      cases h
  | succ levels ih =>
      intro name tree s stop h
      obtain ⟨below, rule, chosen, middle, trees, hlevels, hrule, hchoose, htrees, rfl⟩ :=
        expand_eq_ok_iff.mp h
      cases hlevels
      obtain ⟨hmem, rfl⟩ := Grammar.rule?_eq_some_iff.mp hrule
      have hsome := Choice.choose_isSome (hoffered rule hmem) s
      obtain ⟨alternative, hchosen⟩ := Option.isSome_iff_exists.mp hsome
      have hdeclared := Choice.mem_of_choose hchosen
      have hsame : chosen = some alternative := by rw [← hchosen, hchoose]
      rw [hsame] at htrees
      have heach := (ih _).expandSymbols htrees
      exact ⟨.node hmem hdeclared (hfilled rule hmem alternative hdeclared) heach.derives,
        Nat.succ_le_succ heach.nesting_le⟩

end Sentence

end PhraseStructure
