import PhraseStructure.Parse.ShiftReduce

/-!
# Handles and what reducing does with them

A handle is a suffix of the stack that some rule owns. The longest one is
found if there is one, and it is replaced by one nonterminal. A reduction of
the whole stack is a row of such steps that ends when no suffix is owned, or
fails when the limit is reached before that. So what every step keeps holds at
the end.
-/

namespace PhraseStructure.ShiftReduce

variable {s : Settings} {g : Grammar}

theorem owner_eq_none_iff {handle : Alternative} :
    owner g handle = none ↔ ∀ rule ∈ g.rules, handle ∉ rule.alternatives := by
  simp [owner]

theorem exists_rule_of_owner {handle : Alternative} {name : String}
    (h : owner g handle = some name) :
    ∃ rule ∈ g.rules, rule.name = name ∧ handle ∈ rule.alternatives := by
  obtain ⟨rule, hfound, rfl⟩ := Option.map_eq_some_iff.mp h
  have hchosen : handle ∈ rule.alternatives := by simpa using List.find?_some hfound
  exact ⟨rule, List.mem_of_find?_eq_some hfound, rfl, hchosen⟩

theorem findHandle_eq_some {symbols : List Symbol} {below : Nat} {name : String}
    (h : findHandle g symbols = some (below, name)) :
    below < symbols.length ∧ owner g (symbols.drop below) = some name := by
  induction symbols generalizing below with
  | nil => cases h
  | cons symbol above ih =>
      rw [findHandle] at h
      split at h
      next howner =>
          cases h
          exact ⟨Nat.zero_lt_succ _, howner⟩
      next =>
          obtain ⟨⟨deeper, other⟩, hfound, hsame⟩ := Option.map_eq_some_iff.mp h
          cases hsame
          obtain ⟨hlt, howner⟩ := ih hfound
          exact ⟨Nat.succ_lt_succ hlt, howner⟩

theorem owner_eq_none_of_suffix {symbols handle : List Symbol} (h : findHandle g symbols = none)
    (hfilled : handle ≠ []) (hsuffix : handle <:+ symbols) : owner g handle = none := by
  induction symbols with
  | nil => exact (hfilled (List.suffix_nil.mp hsuffix)).elim
  | cons symbol above ih =>
      rw [findHandle] at h
      split at h
      next => cases h
      next howner =>
          rcases List.suffix_cons_iff.mp hsuffix with rfl | hsuffix
          · exact howner
          · exact ih (Option.map_eq_none_iff.mp h) hsuffix

/-! ## Stacks -/

def symbols (stack : List Item) : List Symbol := stack.map Item.symbol

def trees (stack : List Item) : List Tree := stack.map Item.tree

@[simp] theorem length_symbols (stack : List Item) : (symbols stack).length = stack.length :=
  List.length_map _

@[simp] theorem symbols_append (stack above : List Item) :
    symbols (stack ++ above) = symbols stack ++ symbols above :=
  List.map_append

@[simp] theorem trees_append (stack above : List Item) :
    trees (stack ++ above) = trees stack ++ trees above :=
  List.map_append

theorem symbols_reduce (stack : List Item) (below : Nat) (name : String) :
    symbols (reduce stack below name) = (symbols stack).take below ++ [.nonterminal name] := by
  simp [symbols, reduce, Item.symbol, Tree.label]

theorem trees_reduce (stack : List Item) (below : Nat) (name : String) :
    trees (reduce stack below name) =
      (trees stack).take below ++ [.node name ((trees stack).drop below)] := by
  simp [trees, reduce, Item.tree]

/-- Only a tree matches a nonterminal, which is then its label. -/
theorem Item.exists_built {item : Item} {name : String} (h : item.symbol = .nonterminal name) :
    ∃ tree, item = .built tree ∧ tree.label = name := by
  cases item with
  | raw symbol => cases h
  | built tree =>
      cases h
      exact ⟨tree, rfl, rfl⟩

/-! ## Whole reductions -/

theorem reduceAll_of_none {stack : List Item} (h : findHandle g (symbols stack) = none)
    (left : Nat) : reduceAll s g left stack = pure stack := by
  cases left <;> · rw [symbols] at h; rw [reduceAll, h]

theorem outcome_reduceAll_zero {stack : List Item} {found : Nat × String}
    (h : findHandle g (symbols stack) = some found) :
    (reduceAll s g 0 stack).outcome = .error (.tooManyReductions s.maxReductions) := by
  rw [symbols] at h
  rw [reduceAll, h]
  rfl

theorem reduceAll_succ {stack : List Item} {below : Nat} {name : String}
    (h : findHandle g (symbols stack) = some (below, name)) (left : Nat) :
    reduceAll s g (left + 1) stack =
      Traced.emit (.reduced name ((stack.drop below).map Item.label)) >>= fun _ ↦
        reduceAll s g left (reduce stack below name) := by
  rw [symbols] at h
  rw [reduceAll, h]

theorem outcome_reduceAll_succ {stack : List Item} {below : Nat} {name : String}
    (h : findHandle g (symbols stack) = some (below, name)) (left : Nat) :
    (reduceAll s g (left + 1) stack).outcome =
      (reduceAll s g left (reduce stack below name)).outcome := by
  rw [reduceAll_succ h]
  exact Traced.outcome_bind_of_ok (Traced.outcome_emit _) _

/-- Induction over the steps of a reduction. It ends, it meets the limit or it
takes a step. -/
theorem reduceAll_induction {motive : Nat → List Item → Prop}
    (done : ∀ left stack, findHandle g (symbols stack) = none → motive left stack)
    (limit : ∀ stack found, findHandle g (symbols stack) = some found → motive 0 stack)
    (step : ∀ left stack below name, findHandle g (symbols stack) = some (below, name) →
      motive left (reduce stack below name) → motive (left + 1) stack) (left : Nat)
    (stack : List Item) : motive left stack := by
  induction left generalizing stack with
  | zero =>
      cases hfound : findHandle g (symbols stack) with
      | none => exact done 0 stack hfound
      | some found => exact limit stack found hfound
  | succ left ih =>
      cases hfound : findHandle g (symbols stack) with
      | none => exact done (left + 1) stack hfound
      | some found => exact step left stack found.1 found.2 hfound (ih _)

/-- What each step keeps holds of the reduced stack, of which no suffix is
owned. -/
theorem reduceAll_preserves {motive : List Item → Prop}
    (hstep : ∀ stack below name, motive stack →
      findHandle g (symbols stack) = some (below, name) → motive (reduce stack below name))
    {left : Nat} {stack last : List Item} (hstack : motive stack)
    (h : (reduceAll s g left stack).outcome = .ok last) :
    motive last ∧ findHandle g (symbols last) = none := by
  induction left, stack using reduceAll_induction (g := g) with
  | done left stack hnone =>
      rw [reduceAll_of_none hnone] at h
      cases h
      exact ⟨hstack, hnone⟩
  | limit stack found hfound =>
      rw [outcome_reduceAll_zero hfound] at h
      cases h
  | step left stack below name hfound ih =>
      rw [outcome_reduceAll_succ hfound] at h
      have hnext := hstep stack below name hstack hfound
      exact ih hnext h

theorem reduceAll_eq_error {left : Nat} {stack : List Item} {fault : ParseFault}
    (h : (reduceAll s g left stack).outcome = .error fault) :
    fault = .tooManyReductions s.maxReductions := by
  induction left, stack using reduceAll_induction (g := g) with
  | done left stack hnone =>
      rw [reduceAll_of_none hnone] at h
      cases h
  | limit stack found hfound =>
      rw [outcome_reduceAll_zero hfound] at h
      cases h
      rfl
  | step left stack below name hfound ih =>
      rw [outcome_reduceAll_succ hfound] at h
      exact ih h

end PhraseStructure.ShiftReduce
