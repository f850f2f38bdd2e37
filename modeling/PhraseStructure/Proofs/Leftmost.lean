import Mathlib.Logic.Relation
import PhraseStructure.Proofs.Derivation

/-!
# Leftmost derivations

A row of symbols is rewritten at its first nonterminal, which gives way to an
alternative of its rule. This can be done behind symbols that are not
nonterminals and in front of any others. A derivation tree tells how its symbol
is rewritten until no nonterminal is left: what remains is read as its leaves.
-/

namespace PhraseStructure.Grammar

/-- No symbol of the row is a nonterminal, and the words are their surfaces. -/
structure ReadAs (row : List Symbol) (words : List String) : Prop where
  finished : ∀ symbol ∈ row, symbol.isNonterminal = false
  surfaces : row.map Symbol.surface = words

inductive LeftmostStep (g : Grammar) : List Symbol → List Symbol → Prop where
  | replace {front rest : List Symbol} {rule : Rule} {alternative : Alternative}
      (finished : ∀ symbol ∈ front, symbol.isNonterminal = false) (declared : rule ∈ g.rules)
      (chosen : alternative ∈ rule.alternatives) :
      LeftmostStep g (front ++ .nonterminal rule.name :: rest) (front ++ alternative ++ rest)

def LeftmostDerives (g : Grammar) : List Symbol → List Symbol → Prop :=
  Relation.ReflTransGen g.LeftmostStep

/-- The row can be rewritten until it is read as the words. -/
def LeftmostYields (g : Grammar) (row : List Symbol) (words : List String) : Prop :=
  ∃ last, ReadAs last words ∧ g.LeftmostDerives row last

/-- The name can be rewritten until the symbol comes first among what is not
yet read as the words. -/
def LeftmostReaches (g : Grammar) (name : String) (words : List String) (symbol : Symbol) : Prop :=
  ∃ row rest, ReadAs row words ∧ g.LeftmostDerives [.nonterminal name] (row ++ symbol :: rest)

variable {g : Grammar}

theorem ReadAs.append {row others : List Symbol} {words more : List String}
    (hrow : ReadAs row words) (hothers : ReadAs others more) :
    ReadAs (row ++ others) (words ++ more) where
  finished := List.forall_mem_append.mpr ⟨hrow.finished, hothers.finished⟩
  surfaces := by rw [List.map_append, hrow.surfaces, hothers.surfaces]

theorem LeftmostStep.append_left {front row next : List Symbol}
    (hfront : ∀ symbol ∈ front, symbol.isNonterminal = false) (h : g.LeftmostStep row next) :
    g.LeftmostStep (front ++ row) (front ++ next) := by
  cases h with
  | @replace before behind rule alternative hbefore hrule hchosen =>
      have hfinished := List.forall_mem_append.mpr ⟨hfront, hbefore⟩
      have hstep : g.LeftmostStep (front ++ before ++ .nonterminal rule.name :: behind)
          (front ++ before ++ alternative ++ behind) := .replace hfinished hrule hchosen
      simpa only [List.append_assoc] using hstep

theorem LeftmostStep.append_right {row next : List Symbol} (h : g.LeftmostStep row next)
    (rest : List Symbol) : g.LeftmostStep (row ++ rest) (next ++ rest) := by
  cases h with
  | @replace before behind rule alternative hbefore hrule hchosen =>
      have hstep : g.LeftmostStep (before ++ .nonterminal rule.name :: (behind ++ rest))
          (before ++ alternative ++ (behind ++ rest)) := .replace hbefore hrule hchosen
      simpa only [List.append_assoc, List.cons_append] using hstep

theorem LeftmostDerives.append_left {front row last : List Symbol}
    (hfront : ∀ symbol ∈ front, symbol.isNonterminal = false) (h : g.LeftmostDerives row last) :
    g.LeftmostDerives (front ++ row) (front ++ last) :=
  Relation.ReflTransGen.lift (fun middle ↦ front ++ middle)
    (fun _ _ hstep ↦ hstep.append_left hfront) _ _ h

theorem LeftmostDerives.append_right {row last : List Symbol} (h : g.LeftmostDerives row last)
    (rest : List Symbol) : g.LeftmostDerives (row ++ rest) (last ++ rest) :=
  Relation.ReflTransGen.lift (fun middle ↦ middle ++ rest)
    (fun _ _ hstep ↦ hstep.append_right rest) _ _ h

theorem LeftmostDerives.of_rule {rule : Rule} {alternative : Alternative} (hrule : rule ∈ g.rules)
    (hchosen : alternative ∈ rule.alternatives) :
    g.LeftmostDerives [.nonterminal rule.name] alternative := by
  have hstep : g.LeftmostStep ([] ++ .nonterminal rule.name :: []) ([] ++ alternative ++ []) :=
    .replace nofun hrule hchosen
  rw [List.nil_append, List.nil_append, List.append_nil] at hstep
  exact .single hstep

theorem LeftmostYields.cons {symbol : Symbol} {symbols : List Symbol} {words more : List String}
    (hfirst : g.LeftmostYields [symbol] words) (hrest : g.LeftmostYields symbols more) :
    g.LeftmostYields (symbol :: symbols) (words ++ more) := by
  obtain ⟨row, hrow, hfirst⟩ := hfirst
  obtain ⟨others, hothers, hrest⟩ := hrest
  have hfront : g.LeftmostDerives (symbol :: symbols) (row ++ symbols) :=
    hfirst.append_right symbols
  have hback := hrest.append_left hrow.finished
  exact ⟨row ++ others, hrow.append hothers, hfront.trans hback⟩

theorem LeftmostYields.of_forall₂ {symbols : List Symbol} {trees : List Tree}
    (h : List.Forall₂ (fun symbol tree ↦ g.LeftmostYields [symbol] tree.leaves) symbols trees) :
    g.LeftmostYields symbols (Tree.leavesOf trees) := by
  induction h with
  | nil => exact ⟨[], ⟨nofun, rfl⟩, .refl⟩
  | cons hfirst _ ih => exact hfirst.cons ih

/-- A symbol is rewritten to the leaves of each of its derivation trees. -/
theorem Derives.leftmostYields {reads : Symbol → Bool}
    (hreads : ∀ symbol, reads symbol = true → symbol.isNonterminal = false) {symbol : Symbol}
    {tree : Tree} (h : g.Derives reads symbol tree) : g.LeftmostYields [symbol] tree.leaves := by
  apply h.forall_induction (motive := fun symbol tree ↦ g.LeftmostYields [symbol] tree.leaves)
  case leaf =>
    intro symbol hread
    exact ⟨[symbol], ⟨List.forall_mem_singleton.mpr (hreads symbol hread), rfl⟩, .refl⟩
  case node =>
    intro rule hrule alternative hchosen _ children _ ih
    obtain ⟨last, hlast, hderives⟩ := LeftmostYields.of_forall₂ ih
    exact ⟨last, hlast, (LeftmostDerives.of_rule hrule hchosen).trans hderives⟩

theorem DerivesEach.leftmostYields {reads : Symbol → Bool}
    (hreads : ∀ symbol, reads symbol = true → symbol.isNonterminal = false)
    {symbols : List Symbol} {trees : List Tree} (h : g.DerivesEach reads symbols trees) :
    g.LeftmostYields symbols (Tree.leavesOf trees) := by
  apply LeftmostYields.of_forall₂
  exact (derivesEach_iff_forall₂.mp h).imp fun _ _ htree ↦ htree.leftmostYields hreads

theorem LeftmostReaches.of_rule {rule : Rule} {front rest : List Symbol} {symbol : Symbol}
    {words : List String} (hrule : rule ∈ g.rules)
    (hchosen : front ++ symbol :: rest ∈ rule.alternatives)
    (hfront : g.LeftmostYields front words) : g.LeftmostReaches rule.name words symbol := by
  obtain ⟨row, hrow, hderives⟩ := hfront
  have hread := hderives.append_right (symbol :: rest)
  exact ⟨row, rest, hrow, (LeftmostDerives.of_rule hrule hchosen).trans hread⟩

theorem LeftmostReaches.trans {name other : String} {words more : List String} {symbol : Symbol}
    (h : g.LeftmostReaches name words (.nonterminal other))
    (hbelow : g.LeftmostReaches other more symbol) :
    g.LeftmostReaches name (words ++ more) symbol := by
  obtain ⟨row, rest, hrow, hderives⟩ := h
  obtain ⟨others, behind, hothers, hdeeper⟩ := hbelow
  have hinside : g.LeftmostDerives (row ++ .nonterminal other :: rest)
      (row ++ (others ++ symbol :: behind ++ rest)) :=
    (hdeeper.append_right rest).append_left hrow.finished
  refine ⟨row ++ others, behind ++ rest, hrow.append hothers, ?_⟩
  simp only [List.append_assoc, List.cons_append] at hinside ⊢
  exact hderives.trans hinside

end PhraseStructure.Grammar
