import PhraseStructure.Proofs.Descent
import PhraseStructure.Proofs.ShiftReduce.Invariant

/-!
# Contracting rows of items

A row of items is contracted where a stretch of it is an alternative: the
stretch becomes one node of a rule that owns it. A reduction of the stack is
such a contraction, and a derivation tree is contracted from the tokens at its
leaves, node by node.

In a grammar without overlaps two stretches that are alternatives are the same
or stand apart. Contractions can then be exchanged, and a row that contracts to
one item in the end does so whatever is contracted first.
-/

namespace PhraseStructure.ShiftReduce

variable {s : Settings} {g : Grammar}

/-- The node that a rule puts over a stretch. -/
def nodeOver (rule : Rule) (stretch : List Item) : Item := .built (.node rule.name (trees stretch))

/-- One stretch of a row is replaced by a node over it. -/
inductive Contracts (g : Grammar) : List Item → List Item → Prop where
  | intro (left right : List Item) {stretch : List Item} {rule : Rule} (declared : rule ∈ g.rules)
      (chosen : symbols stretch ∈ rule.alternatives) (filled : stretch ≠ []) :
      Contracts g (left ++ (stretch ++ right))
        (left ++ (nodeOver rule stretch :: right))

theorem Contracts.append {row next : List Item} (h : Contracts g row next)
    (left right : List Item) : Contracts g (left ++ (row ++ right)) (left ++ (next ++ right)) := by
  obtain ⟨inner, outer, hrule, hchosen, hfilled⟩ := h
  simpa using Contracts.intro (left ++ inner) (outer ++ right) hrule hchosen hfilled

theorem not_contracts_of_irreducible {row : List Item} (h : Irreducible g (symbols row))
    (next : List Item) : ¬ Contracts g row next := by
  rintro @⟨left, right, stretch, rule, hrule, hchosen, hfilled⟩
  have hnonempty : symbols stretch ≠ [] := by simpa [symbols] using hfilled
  have hinfix : symbols stretch <:+: symbols (left ++ (stretch ++ right)) :=
    ⟨symbols left, symbols right, by simp⟩
  exact h _ hnonempty hinfix rule hrule hchosen

theorem contracts_reduce {stack : List Item} {below : Nat} {name : String}
    (h : findHandle g (symbols stack) = some (below, name)) (pending : List Item) :
    Contracts g (stack ++ pending) (reduce stack below name ++ pending) := by
  obtain ⟨hlt, howner⟩ := findHandle_eq_some h
  obtain ⟨rule, hrule, rfl, hchosen⟩ := exists_rule_of_owner howner
  have hhandle : symbols (stack.drop below) ∈ rule.alternatives := by
    rwa [symbols, List.map_drop]
  have hfilled : stack.drop below ≠ [] := by
    rw [length_symbols] at hlt
    rw [Ne, List.drop_eq_nil_iff]
    omega
  have hcontracts := Contracts.intro (stack.take below) pending hrule hhandle hfilled
  rw [← List.append_assoc, List.take_append_drop] at hcontracts
  simpa [reduce, nodeOver, trees] using hcontracts

/-! ## Derivation trees -/

/-- As one item the tree is contracted from any tokens with its leaves as
surfaces. -/
def Grows (g : Grammar) (symbol : Symbol) (tree : Tree) : Prop :=
  ∀ raws : List Symbol, raws.map Symbol.surface = tree.leaves →
    ∃ count item, item.symbol = symbol ∧ item.tree = tree ∧
      Steps (Contracts g) count (raws.map Item.raw) [item]

theorem grows_each {row : List Symbol} {forest : List Tree}
    (h : List.Forall₂ (Grows g) row forest) :
    ∀ raws : List Symbol, raws.map Symbol.surface = Tree.leavesOf forest →
      ∃ count items, symbols items = row ∧ trees items = forest ∧
        Steps (Contracts g) count (raws.map Item.raw) items := by
  induction h with
  | nil =>
      intro raws hraws
      rw [List.map_eq_nil_iff.mp hraws]
      exact ⟨0, [], rfl, rfl, .done _⟩
  | @cons symbol tree row forest hfirst _ ih =>
      intro raws hraws
      obtain ⟨front, back, rfl, hfront, hback⟩ := List.map_eq_append_iff.mp hraws
      obtain ⟨count, item, rfl, rfl, hitem⟩ := hfirst front hfront
      obtain ⟨others, items, rfl, rfl, hitems⟩ := ih back hback
      refine ⟨count + others, item :: items, rfl, rfl, ?_⟩
      have hhead := hitem.map (f := fun row ↦ row ++ back.map Item.raw)
        fun hstep ↦ by simpa using hstep.append [] (back.map Item.raw)
      have htail := hitems.map (f := fun row ↦ item :: row)
        fun hstep ↦ by simpa using hstep.append [item] []
      rw [List.map_append]
      exact hhead.trans htail

theorem grows_of_derives {symbol : Symbol} {tree : Tree}
    (h : g.Derives Symbol.isTerminal symbol tree) : Grows g symbol tree := by
  apply h.forall_induction (motive := Grows g)
  case leaf =>
    intro symbol hread raws hraws
    obtain ⟨kind, surface⟩ := symbol
    cases (of_decide_eq_true hread : kind = .terminal)
    obtain ⟨raw, rfl, rfl⟩ := List.map_eq_singleton_iff.mp hraws
    exact ⟨0, .raw raw, rfl, rfl, .done _⟩
  case node =>
    intro rule hrule alternative hchosen hfilled children _ ih raws hraws
    obtain ⟨count, items, rfl, rfl, hsteps⟩ := grows_each ih raws hraws
    have hitems : items ≠ [] := by
      rintro rfl
      exact hfilled rfl
    have hlast := Contracts.intro [] [] hrule hchosen hitems
    rw [List.append_nil] at hlast
    exact ⟨count + 1, _, rfl, rfl, hsteps.trans (.step hlast (.done _))⟩

/-! ## Grammars without overlaps -/

def Owned (g : Grammar) (row : List Symbol) : Prop := ∃ rule ∈ g.rules, row ∈ rule.alternatives

/-- No alternative has two owners or lies inside another one, and none begins
as one ends. -/
structure OverlapFree (g : Grammar) : Prop where
  owned : ∀ rule ∈ g.rules, ∀ other ∈ g.rules, ∀ alternative ∈ rule.alternatives,
    alternative ∈ other.alternatives → rule = other
  apart : ∀ a b, Owned g a → Owned g b → a <:+: b → a = b
  free : ∀ a b part, Owned g a → Owned g b → part ≠ [] →
    part <+: a → part ≠ a → part <:+ b → part = b

/-- Only the alternatives that there are have to be compared. -/
theorem overlapFree_of_forall
    (howned : ∀ rule ∈ g.rules, ∀ other ∈ g.rules, ∀ alternative ∈ rule.alternatives,
      alternative ∈ other.alternatives → rule = other)
    (hapart : ∀ rule ∈ g.rules, ∀ a ∈ rule.alternatives, ∀ other ∈ g.rules,
      ∀ b ∈ other.alternatives, a <:+: b → a = b)
    (hfree : ∀ rule ∈ g.rules, ∀ a ∈ rule.alternatives, ∀ other ∈ g.rules,
      ∀ b ∈ other.alternatives, ∀ count < a.length, 0 < count → a.take count <:+ b →
        a.take count = b) : OverlapFree g where
  owned := howned
  apart := by
    rintro a b ⟨rule, hrule, ha⟩ ⟨other, hother, hb⟩ hinfix
    exact hapart rule hrule a ha other hother b hb hinfix
  free := by
    rintro a b part ⟨rule, hrule, ha⟩ ⟨other, hother, hb⟩ hfilled hfront hproper hsuffix
    have hlength : part.length ≠ a.length := fun hlength ↦ hproper (hfront.eq_of_length hlength)
    have hshort : part.length < a.length := Nat.lt_of_le_of_ne hfront.length_le hlength
    have hpos : 0 < part.length := List.length_pos_iff.mpr hfilled
    rw [List.prefix_iff_eq_take.mp hfront] at hsuffix ⊢
    exact hfree rule hrule a ha other hother b hb _ hshort hpos hsuffix

theorem OverlapFree.eq_nil_of_inside (h : OverlapFree g) {outer inner left right : List Item}
    (houter : Owned g (symbols outer)) (hinner : Owned g (symbols inner))
    (heq : outer = left ++ (inner ++ right)) : left = [] ∧ right = [] := by
  have hinfix : symbols inner <:+: symbols outer :=
    ⟨symbols left, symbols right, by rw [heq]; simp⟩
  have hlength := congrArg List.length (h.apart _ _ hinner houter hinfix)
  simp only [length_symbols, heq, List.length_append] at hlength
  exact ⟨List.length_eq_zero_iff.mp (by omega), List.length_eq_zero_iff.mp (by omega)⟩

/-- What is common to two owned stretches, at the end of the first and at the
beginning of the second, is all of both. -/
theorem OverlapFree.eq_nil_of_shared (h : OverlapFree g) {left shared right : List Item}
    (hfirst : Owned g (symbols (left ++ shared))) (hsecond : Owned g (symbols (shared ++ right)))
    (hshared : shared ≠ []) : left = [] ∧ right = [] := by
  by_cases hright : right = []
  · subst hright
    rw [List.append_nil] at hsecond
    have hinside : left ++ shared = left ++ (shared ++ []) := by rw [List.append_nil]
    exact ⟨(h.eq_nil_of_inside hfirst hsecond hinside).1, rfl⟩
  · exfalso
    -- a proper beginning of the second stretch must be the whole first one
    have hproper : symbols shared ≠ symbols (shared ++ right) := by
      intro hsame
      have hlength := congrArg List.length hsame
      simp only [length_symbols, List.length_append] at hlength
      exact hright (List.length_eq_zero_iff.mp (by omega))
    have hfilled : symbols shared ≠ [] := by simpa [symbols] using hshared
    have hfront : symbols shared <+: symbols (shared ++ right) := ⟨symbols right, by simp⟩
    have hend : symbols shared <:+ symbols (left ++ shared) := ⟨symbols left, by simp⟩
    have hall := h.free _ _ _ hsecond hfirst hfilled hfront hproper hend
    exact hright (h.eq_nil_of_inside hsecond (hall ▸ hfirst) (List.nil_append _).symm).2

theorem OverlapFree.same_or_apart (h : OverlapFree g) {first second gap right other : List Item}
    (hfirst : Owned g (symbols first)) (hsecond : Owned g (symbols second))
    (heq : first ++ right = gap ++ (second ++ other)) :
    (gap = [] ∧ first = second ∧ right = other) ∨
      ∃ middle, gap = first ++ middle ∧ right = middle ++ (second ++ other) := by
  rcases List.append_eq_append_iff.mp heq with ⟨middle, hgap, hright⟩ | ⟨shared, rfl, hrest⟩
  · exact .inr ⟨middle, hgap, hright⟩
  · by_cases hshared : shared = []
    · subst hshared
      exact .inr ⟨[], by simp, hrest.symm⟩
    · rcases List.append_eq_append_iff.mp hrest with ⟨more, rfl, rfl⟩ | ⟨more, rfl, rfl⟩
      · obtain ⟨rfl, rfl⟩ := h.eq_nil_of_inside hfirst hsecond rfl
        exact .inl ⟨rfl, by simp, rfl⟩
      · obtain ⟨rfl, rfl⟩ := h.eq_nil_of_shared hfirst hsecond hshared
        exact .inl ⟨rfl, by simp, rfl⟩

/-- Two contractions of one row, the first of which is not behind the second. -/
theorem OverlapFree.exchange (h : OverlapFree g) {left gap first second right other : List Item}
    {rule rule' : Rule} (hrule : rule ∈ g.rules) (hchosen : symbols first ∈ rule.alternatives)
    (hfilled : first ≠ []) (hrule' : rule' ∈ g.rules)
    (hchosen' : symbols second ∈ rule'.alternatives) (hfilled' : second ≠ [])
    (heq : first ++ right = gap ++ (second ++ other)) :
    left ++ (nodeOver rule first :: right) = left ++ (gap ++ (nodeOver rule' second :: other)) ∨
      ∃ last, Contracts g (left ++ (nodeOver rule first :: right)) last ∧
        Contracts g (left ++ (gap ++ (nodeOver rule' second :: other))) last := by
  rcases h.same_or_apart ⟨rule, hrule, hchosen⟩ ⟨rule', hrule', hchosen'⟩ heq with
    ⟨rfl, rfl, rfl⟩ | ⟨middle, rfl, rfl⟩
  · left
    rw [h.owned rule hrule rule' hrule' _ hchosen hchosen']
    rfl
  · right
    -- the second stretch is behind the first node, and the first one before the second node
    refine ⟨left ++ (nodeOver rule first :: (middle ++ (nodeOver rule' second :: other))), ?_, ?_⟩
    · simpa using
        Contracts.intro (left ++ (nodeOver rule first :: middle)) other hrule' hchosen' hfilled'
    · simpa using
        Contracts.intro left (middle ++ (nodeOver rule' second :: other)) hrule hchosen hfilled

theorem OverlapFree.peak (h : OverlapFree g) {row next other : List Item}
    (hnext : Contracts g row next) (hother : Contracts g row other) :
    next = other ∨ ∃ last, Contracts g next last ∧ Contracts g other last := by
  obtain ⟨left, right, hrule, hchosen, hfilled⟩ := hnext
  generalize hrow : left ++ (_ ++ right) = row at hother
  obtain ⟨left', right', hrule', hchosen', hfilled'⟩ := hother
  rcases List.append_eq_append_iff.mp hrow with ⟨gap, rfl, heq⟩ | ⟨gap, rfl, heq⟩
  · rw [List.append_assoc]
    exact h.exchange hrule hchosen hfilled hrule' hchosen' hfilled' heq
  · rw [List.append_assoc]
    rcases h.exchange hrule' hchosen' hfilled' hrule hchosen hfilled heq with hsame | hjoin
    · exact .inl hsame.symm
    · obtain ⟨last, hfirst, hsecond⟩ := hjoin
      exact .inr ⟨last, hsecond, hfirst⟩

/-- The contractions of a row that ends as an irreducible one can begin anywhere. -/
theorem OverlapFree.steps_of_contracts (h : OverlapFree g) {count : Nat} {row next last : List Item}
    (hsteps : Steps (Contracts g) count row last) (hlast : Irreducible g (symbols last))
    (hnext : Contracts g row next) :
    ∃ left, count = left + 1 ∧ Steps (Contracts g) left next last :=
  hsteps.exchange h.peak (not_contracts_of_irreducible hlast) hnext

end PhraseStructure.ShiftReduce
