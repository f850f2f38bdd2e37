import Mathlib.Data.List.Induction
import PhraseStructure.Proofs.Derivation
import PhraseStructure.Proofs.ShiftReduce.Handle

/-!
# What holds between two shifts

When a stack has been reduced after a shift, it holds derivation trees over the
tokens so far and no stretch of it is owned by a rule. Only suffixes are
looked at, but everything below the top was reduced before. So the invariant of
a single reduction leaves out the top of the stack: nothing below it is owned.

A tree that is returned is the only item of such a stack, and a parse that ends
in more or fewer items reports the labels of such a stack.
-/

namespace PhraseStructure.ShiftReduce

variable {s : Settings} {g : Grammar}

/-- The surfaces under which tokens are shifted. -/
def surfaces (tokens : List String) : List String :=
  tokens.map fun token ↦ (Symbol.ofChunk token).surface

/-- No stretch of the row is an alternative. -/
def Irreducible (g : Grammar) (row : List Symbol) : Prop :=
  ∀ stretch, stretch ≠ [] → stretch <:+: row → ∀ rule ∈ g.rules, stretch ∉ rule.alternatives

theorem Irreducible.of_infix {row part : List Symbol} (h : Irreducible g row)
    (hpart : part <:+: row) : Irreducible g part :=
  fun stretch hfilled hstretch ↦ h stretch hfilled (hstretch.trans hpart)

theorem irreducible_nil : Irreducible g [] :=
  fun _ hfilled hstretch ↦ (hfilled (List.infix_nil.mp hstretch)).elim

theorem irreducible_singleton {symbol : Symbol}
    (h : ∀ rule ∈ g.rules, [symbol] ∉ rule.alternatives) : Irreducible g [symbol] := by
  intro stretch hfilled hstretch
  rcases List.infix_cons_iff.mp hstretch with hprefix | hnil
  · rcases List.prefix_cons_iff.mp hprefix with rfl | ⟨rest, rfl, hrest⟩
    · exact (hfilled rfl).elim
    · rw [List.prefix_nil.mp hrest]
      exact h
  · exact (hfilled (List.infix_nil.mp hnil)).elim

theorem irreducible_of_findHandle {row : List Symbol} (hbelow : Irreducible g row.dropLast)
    (h : findHandle g row = none) : Irreducible g row := by
  intro stretch hfilled hstretch
  rcases List.eq_nil_or_concat row with rfl | ⟨bottom, top, rfl⟩
  · exact (hfilled (List.infix_nil.mp hstretch)).elim
  · rw [List.concat_eq_append] at hbelow h hstretch
    rcases List.infix_concat_iff.mp hstretch with hsuffix | hinfix
    · exact owner_eq_none_iff.mp (owner_eq_none_of_suffix h hfilled hsuffix)
    · -- a stretch that leaves out the top lies below it
      rw [List.dropLast_concat] at hbelow
      exact hbelow stretch hfilled hinfix

/-- Each item derives from the symbol that it matches, and the leaves are the
given words. -/
structure Covers (g : Grammar) (words : List String) (stack : List Item) : Prop where
  leaves : Tree.leavesOf (trees stack) = words
  derived : g.DerivesEach Symbol.isTerminal (symbols stack) (trees stack)

/-- The state of a stack after a reduction. -/
structure Settled (g : Grammar) (words : List String) (stack : List Item) : Prop
    extends Covers g words stack where
  irreducible : Irreducible g (symbols stack)

/-- The state of a stack during a reduction. -/
structure Settling (g : Grammar) (words : List String) (stack : List Item) : Prop
    extends Covers g words stack where
  below : Irreducible g (symbols stack).dropLast

theorem covers_nil : Covers g [] [] := ⟨rfl, .nil⟩

theorem Covers.shift {words : List String} {stack : List Item} (h : Covers g words stack)
    (symbol : Symbol) : Covers g (words ++ [symbol.surface]) (stack ++ [.raw symbol]) where
  leaves := by
    rw [trees_append, Tree.leavesOf_append, h.leaves]
    rfl
  derived := by
    rw [trees_append, symbols_append]
    exact h.derived.append (.cons (.leaf rfl) .nil)

theorem Covers.reduce {words : List String} {stack : List Item} {below : Nat} {name : String}
    (h : Covers g words stack) (hfound : findHandle g (symbols stack) = some (below, name)) :
    Covers g words (reduce stack below name) := by
  obtain ⟨hlt, howner⟩ := findHandle_eq_some hfound
  obtain ⟨rule, hrule, rfl, hchosen⟩ := exists_rule_of_owner howner
  obtain ⟨hkept, hhandle⟩ := h.derived.take_drop below
  have hfilled : (symbols stack).drop below ≠ [] := by
    rw [Ne, List.drop_eq_nil_iff]
    omega
  constructor
  · calc
      Tree.leavesOf (trees (ShiftReduce.reduce stack below rule.name)) =
          Tree.leavesOf ((trees stack).take below) ++ Tree.leavesOf ((trees stack).drop below) := by
        rw [trees_reduce, Tree.leavesOf_append]
        simp [Tree.leavesOf, Tree.leaves]
      _ = Tree.leavesOf (trees stack) := by
        rw [← Tree.leavesOf_append, List.take_append_drop]
      _ = words := h.leaves
  · rw [trees_reduce, symbols_reduce]
    exact hkept.append (.cons (.node hrule hchosen hfilled hhandle) .nil)

theorem Settling.reduce {words : List String} {stack : List Item} {below : Nat} {name : String}
    (h : Settling g words stack) (hfound : findHandle g (symbols stack) = some (below, name)) :
    Settling g words (reduce stack below name) where
  toCovers := h.toCovers.reduce hfound
  below := by
    -- what stays below the new top was below the old one
    have hlt := (findHandle_eq_some hfound).1
    have hle : below ≤ (symbols stack).length - 1 := by omega
    rw [symbols_reduce, List.dropLast_concat]
    apply h.below.of_infix
    apply List.IsPrefix.isInfix
    rw [List.dropLast_eq_take]
    exact List.take_prefix_take_left hle

theorem Settling.settled {words : List String} {stack : List Item} (h : Settling g words stack)
    (hnone : findHandle g (symbols stack) = none) : Settled g words stack :=
  ⟨h.toCovers, irreducible_of_findHandle h.below hnone⟩

theorem Settled.shift {words : List String} {stack : List Item} (h : Settled g words stack)
    (symbol : Symbol) : Settling g (words ++ [symbol.surface]) (stack ++ [.raw symbol]) where
  toCovers := h.toCovers.shift symbol
  below := by
    rw [symbols_append]
    exact h.irreducible.of_infix (List.dropLast_concat.symm ▸ List.infix_rfl)

theorem outcome_advance (stack : List Item) (token : String) :
    (advance s g stack token).outcome =
      (reduceAll s g s.maxReductions (stack ++ [.raw (Symbol.ofChunk token)])).outcome :=
  Traced.outcome_bind_of_ok (Traced.outcome_emit _) _

theorem settled_of_advance {words : List String} {stack last : List Item} {token : String}
    (hstack : Settled g words stack) (h : (advance s g stack token).outcome = .ok last) :
    Settled g (words ++ [(Symbol.ofChunk token).surface]) last := by
  rw [outcome_advance] at h
  obtain ⟨hsettling, hnone⟩ := reduceAll_preserves
    (motive := Settling g (words ++ [(Symbol.ofChunk token).surface]))
    (fun _ _ _ hsettling hfound ↦ hsettling.reduce hfound) (hstack.shift (Symbol.ofChunk token)) h
  exact hsettling.settled hnone

/-! ## Runs -/

theorem run_append (shifted rest : List String) :
    run s g (shifted ++ rest) =
      run s g shifted >>= fun stack ↦ rest.foldlM (advance s g) stack :=
  List.foldlM_append

theorem run_concat (tokens : List String) (token : String) :
    run s g (tokens ++ [token]) = run s g tokens >>= fun stack ↦ advance s g stack token := by
  simp [run_append]

theorem settled_of_run {tokens : List String} {stack : List Item}
    (h : (run s g tokens).outcome = .ok stack) : Settled g (surfaces tokens) stack := by
  induction tokens using List.reverseRecOn generalizing stack with
  | nil =>
      cases h
      exact ⟨covers_nil, irreducible_nil⟩
  | append_singleton tokens token ih =>
      rw [run_concat] at h
      obtain ⟨before, hbefore, h⟩ := Traced.outcome_bind_eq_ok_iff.mp h
      have hsettled := ih hbefore
      rw [surfaces, List.map_append]
      exact settled_of_advance hsettled h

theorem run_eq_error {tokens : List String} {fault : ParseFault}
    (h : (run s g tokens).outcome = .error fault) :
    fault = .tooManyReductions s.maxReductions := by
  induction tokens using List.reverseRecOn with
  | nil => cases h
  | append_singleton tokens token ih =>
      rw [run_concat] at h
      rcases Traced.outcome_bind_eq_error_iff.mp h with h | ⟨stack, -, h⟩
      · exact ih h
      · rw [outcome_advance] at h
        exact reduceAll_eq_error h

theorem Covers.derives_of_mem {words : List String} {stack : List Item}
    (h : Covers g words stack) {item : Item} (hmem : item ∈ stack) :
    g.Derives Symbol.isTerminal item.symbol item.tree := by
  have hderived := Grammar.derivesEach_iff_forall₂.mp h.derived
  rw [symbols, trees, List.forall₂_map_left_iff, List.forall₂_map_right_iff,
    List.forall₂_same] at hderived
  exact hderived item hmem

theorem Covers.length_le {words : List String} {stack : List Item} (h : Covers g words stack) :
    stack.length ≤ words.length := by
  have hleaves : ∀ tree ∈ trees stack, tree.leaves ≠ [] := by
    intro tree hmem
    obtain ⟨item, hitem, rfl⟩ := List.mem_map.mp hmem
    exact (h.derives_of_mem hitem).leaves_ne_nil
  calc
    stack.length = (trees stack).length := (List.length_map _).symm
    _ ≤ (Tree.leavesOf (trees stack)).length := Grammar.length_le_leavesOf hleaves
    _ = words.length := by rw [h.leaves]

theorem length_le_of_run {tokens : List String} {stack : List Item}
    (h : (run s g tokens).outcome = .ok stack) : stack.length ≤ tokens.length := by
  have hitems := (settled_of_run h).toCovers.length_le
  rwa [surfaces, List.length_map] at hitems

/-! ## Results -/

theorem finish_eq_ok_iff {stack : List Item} {tree : Tree} :
    (finish stack).outcome = .ok tree ↔ stack = [.built tree] := by
  constructor
  · intro h
    unfold finish at h
    split at h
    next found =>
        cases h
        rfl
    next => cases h
  · rintro rfl
    rfl

theorem finish_eq_unreduced {stack : List Item} {labels : List String}
    (h : (finish stack).outcome = .error (.unreduced labels)) :
    labels = stack.map Item.label ∧ ∀ tree, stack ≠ [.built tree] := by
  unfold finish at h
  split at h
  next => cases h
  next hother =>
      cases h
      exact ⟨rfl, hother⟩

theorem events_finish_of_ne {stack : List Item} (h : ∀ tree, stack ≠ [.built tree]) :
    (finish stack).events = [] := by
  unfold finish
  split
  next tree => exact (h tree rfl).elim
  next => rfl

theorem parse_eq_ok_iff {tokens : List String} {tree : Tree} :
    (parse s g tokens).outcome = .ok tree ↔ (run s g tokens).outcome = .ok [.built tree] := by
  rw [parse, Traced.outcome_bind_eq_ok_iff]
  constructor
  · rintro ⟨stack, hrun, hfinish⟩
    rw [hrun, finish_eq_ok_iff.mp hfinish]
  · intro hrun
    exact ⟨_, hrun, rfl⟩

/-- Whatever the grammar and the limit, a stack that has been reduced after any
number of shifts holds derivation trees over the tokens shifted so far, and no
stretch of it is an alternative. Hence a tree that is returned derives all
tokens and cannot be reduced, and the labels of a failure are those of a stack
that covers all tokens and is no single tree. -/
theorem run_invariant (s : Settings) (g : Grammar) (tokens : List String) :
    (∀ shifted, shifted <+: tokens → ∀ stack, (run s g shifted).outcome = .ok stack →
      Tree.leavesOf (stack.map Item.tree) = surfaces shifted ∧
      (∀ tree, .built tree ∈ stack →
        g.Derives Symbol.isTerminal (.nonterminal tree.label) tree) ∧
      Irreducible g (stack.map Item.symbol)) ∧
    (∀ tree, (parse s g tokens).outcome = .ok tree →
      g.Derives Symbol.isTerminal (.nonterminal tree.label) tree ∧
      tree.leaves = surfaces tokens ∧ g.defines tree.label = true ∧
      ∀ rule ∈ g.rules, [.nonterminal tree.label] ∉ rule.alternatives) ∧
    (∀ labels, (parse s g tokens).outcome = .error (.unreduced labels) →
      ∃ stack, (run s g tokens).outcome = .ok stack ∧ labels = stack.map Item.label ∧
        (∀ tree, stack ≠ [.built tree]) ∧
        Tree.leavesOf (stack.map Item.tree) = surfaces tokens ∧
        (∀ tree, .built tree ∈ stack →
          g.Derives Symbol.isTerminal (.nonterminal tree.label) tree) ∧
        Irreducible g (stack.map Item.symbol)) := by
  have hstate : ∀ {shifted stack}, (run s g shifted).outcome = .ok stack →
      Tree.leavesOf (stack.map Item.tree) = surfaces shifted ∧
      (∀ tree, .built tree ∈ stack →
        g.Derives Symbol.isTerminal (.nonterminal tree.label) tree) ∧
      Irreducible g (stack.map Item.symbol) := by
    intro shifted stack hrun
    have hsettled := settled_of_run hrun
    exact ⟨hsettled.leaves, fun tree hmem ↦ hsettled.derives_of_mem hmem, hsettled.irreducible⟩
  refine ⟨fun shifted _ stack ↦ hstate, ?_, ?_⟩
  · intro tree hparse
    obtain ⟨hleaves, hderives, hirreducible⟩ := hstate (parse_eq_ok_iff.mp hparse)
    have htree := hderives tree List.mem_cons_self
    obtain ⟨rule, hrule, hname, -⟩ := htree.eq_node rfl
    refine ⟨htree, ?_, Grammar.defines_iff.mpr ⟨rule, hrule, hname⟩, ?_⟩
    · simpa [Tree.leavesOf, Item.tree] using hleaves
    · exact hirreducible _ (List.cons_ne_nil _ _) List.infix_rfl
  · intro labels hparse
    rcases Traced.outcome_bind_eq_error_iff.mp hparse with hrun | ⟨stack, hrun, hfinish⟩
    · cases run_eq_error hrun
    · obtain ⟨hlabels, hother⟩ := finish_eq_unreduced hfinish
      exact ⟨stack, hrun, hlabels, hother, hstate hrun⟩

/-- A rule owns `a b`, and an earlier one owns its last word. -/
def overlapping : Grammar :=
  .ofRules [⟨"Y", [[.terminal "b"], []], 0⟩, ⟨"X", [[.terminal "a", .terminal "b"]], 1⟩,
    ⟨"S", [[.nonterminal "X"], [.terminal "a", .nonterminal "Y"]], 2⟩]

theorem run_invariant_overlapping :
    (Tree.leavesOf ([Item.raw (.nonterminal "a")].map Item.tree) = surfaces ["a"] ∧
      (∀ tree, .built tree ∈ [Item.raw (.nonterminal "a")] →
        overlapping.Derives Symbol.isTerminal (.nonterminal tree.label) tree) ∧
      Irreducible overlapping [.terminal "a"]) ∧
    (overlapping.Derives Symbol.isTerminal (.nonterminal "S")
        (.node "S" [.node "X" [.leaf "a", .leaf "b"]]) ∧
      ["a", "b"] = surfaces ["a", "b"] ∧ overlapping.defines "S" = true ∧
      ∀ rule ∈ overlapping.rules, [.nonterminal "S"] ∉ rule.alternatives) ∧
    ∃ stack, (run {} overlapping ["b", "c"]).outcome = .ok stack ∧
      ["Y", "c"] = stack.map Item.label ∧ (∀ tree, stack ≠ [.built tree]) ∧
      Tree.leavesOf (stack.map Item.tree) = surfaces ["b", "c"] ∧
      (∀ tree, .built tree ∈ stack →
        overlapping.Derives Symbol.isTerminal (.nonterminal tree.label) tree) ∧
      Irreducible overlapping (stack.map Item.symbol) :=
  ⟨(run_invariant {} overlapping ["a", "b"]).1 ["a"] ⟨["b"], rfl⟩ _ rfl,
    (run_invariant {} overlapping ["a", "b"]).2.1 _ rfl,
    (run_invariant {} overlapping ["b", "c"]).2.2 _ rfl⟩

end PhraseStructure.ShiftReduce
