import PhraseStructure.Grammar.Reader

/-!
# The shape of a rule

What a row of symbols must look like to be a rule, said without reading it: a
nonterminal, an arrow, and groups of terminals and nonterminals with one
separator between two groups. No group is empty, and there is at least one.

Reading accepts exactly the rows of this shape, and returns their groups.
-/

namespace PhraseStructure

def Symbol.isPart (s : Symbol) : Prop := s.kind = .terminal ∨ s.kind = .nonterminal

/-- The row that puts separators between the groups. -/
inductive Spells : List Symbol → List Alternative → Prop where
  | last {group : Alternative} (filled : group ≠ []) (parts : ∀ s ∈ group, s.isPart) :
      Spells group [group]
  | more {group : Alternative} {separator : Symbol} {rest : List Symbol} {groups : List Alternative}
      (filled : group ≠ []) (parts : ∀ s ∈ group, s.isPart) (kind : separator.kind = .separator)
      (others : Spells rest groups) : Spells (group ++ separator :: rest) (group :: groups)

def RuleShape (symbols : List Symbol) (name : String) (groups : List Alternative) : Prop :=
  ∃ arrow side, arrow.kind = .arrow ∧ symbols = .nonterminal name :: arrow :: side ∧
    Spells side groups

theorem map_eq_ok_iff {ε α β : Type} {f : α → β} {x : Except ε α} {b : β} :
    f <$> x = .ok b ↔ ∃ a, x = .ok a ∧ f a = b := by
  cases x <;> simp [Functor.map, Except.map]

theorem map_eq_error_iff {ε α β : Type} {f : α → β} {x : Except ε α} {e : ε} :
    f <$> x = .error e ↔ x = .error e := by
  cases x <;> simp [Functor.map, Except.map]

theorem readAlternatives_append (closing : Symbol) {group : Alternative}
    (parts : ∀ s ∈ group, s.isPart) (done : Alternative) (rest : List Symbol) :
    readAlternatives closing done (group ++ rest) =
      readAlternatives closing (group.reverse ++ done) rest := by
  induction group generalizing done with
  | nil => rfl
  | cons s group ih =>
      have others : ∀ t ∈ group, t.isPart := fun t mem ↦ parts t (List.mem_cons_of_mem _ mem)
      rw [List.cons_append, readAlternatives]
      rcases parts s List.mem_cons_self with kind | kind <;> simp [kind, ih others]

theorem readAlternatives_of_spells {symbols : List Symbol} {groups : List Alternative}
    (h : Spells symbols groups) (closing : Symbol) :
    readAlternatives closing [] symbols = .ok groups := by
  induction h generalizing closing with
  | @last group filled parts =>
      have read := readAlternatives_append closing parts [] []
      rw [List.append_nil, List.append_nil] at read
      rw [read, readAlternatives]
      simp [filled]
  | @more group separator rest groups filled parts kind others ih =>
      have full : group.isEmpty = false := by simpa using filled
      rw [readAlternatives_append closing parts, readAlternatives]
      simp [kind, full, ih, Functor.map, Except.map]

theorem spells_of_readAlternatives {symbols : List Symbol} {closing : Symbol}
    {group : Alternative} {groups : List Alternative} (parts : ∀ s ∈ group, s.isPart)
    (h : readAlternatives closing group symbols = .ok groups) :
    Spells (group.reverse ++ symbols) groups := by
  have reversed {group : Alternative} (parts : ∀ s ∈ group, s.isPart) :
      ∀ s ∈ group.reverse, s.isPart := fun s mem ↦ parts s (List.mem_reverse.mp mem)
  induction symbols generalizing closing group groups with
  | nil =>
      rw [readAlternatives] at h
      split at h
      next => cases h
      next filled =>
          cases h
          rw [List.append_nil]
          exact .last (by simpa using filled) (reversed parts)
  | cons symbol rest ih =>
      rw [readAlternatives] at h
      split at h
      next kind =>
          split at h
          next => cases h
          next filled =>
              obtain ⟨others, read, rfl⟩ := map_eq_ok_iff.mp h
              exact .more (by simpa using filled) (reversed parts) kind (ih (by simp) read)
      next kind =>
          have := ih (List.forall_mem_cons.mpr ⟨.inl kind, parts⟩) h
          simpa using this
      next kind =>
          have := ih (List.forall_mem_cons.mpr ⟨.inr kind, parts⟩) h
          simpa using this
      next => cases h
      next => cases h

theorem readAlternatives_eq_ok_iff {symbols : List Symbol} {closing : Symbol}
    {groups : List Alternative} :
    readAlternatives closing [] symbols = .ok groups ↔ Spells symbols groups :=
  ⟨fun h ↦ spells_of_readAlternatives (by simp) h, fun h ↦ readAlternatives_of_spells h closing⟩

theorem readRuleLine_eq_ok_iff {symbols : List Symbol} {name : String} {groups : List Alternative} :
    readRuleLine symbols = .ok (name, groups) ↔ RuleShape symbols name groups := by
  constructor
  · intro h
    unfold readRuleLine at h
    split at h
    next declared surface side =>
        obtain ⟨others, read, same⟩ := map_eq_ok_iff.mp h
        cases same
        exact ⟨⟨.arrow, surface⟩, side, rfl, rfl, readAlternatives_eq_ok_iff.mp read⟩
    next => cases h
    next => cases h
  · rintro ⟨⟨kind, surface⟩, side, rfl, rfl, spelled⟩
    rw [readRuleLine, readAlternatives_eq_ok_iff.mpr spelled]
    rfl

end PhraseStructure
