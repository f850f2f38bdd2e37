import PhraseStructure.Proofs.ShiftReduce.Invariant
import PhraseStructure.Tree.Postorder

/-!
# What the events of a parse by reduction say

A shift adds a leaf to the trees on the stack and its event to their postorder.
A reduction puts a node above the last trees and adds the event of that node. So
the events of a run are the postorder of the trees on its stack, from the bottom,
with the token of each leaf as it was shifted. Nothing is told twice or left out,
and the result can be drawn again from what was reported.
-/

namespace PhraseStructure.ShiftReduce

variable {s : Settings} {g : Grammar}

theorem Item.label_tree (item : Item) : item.tree.label = item.label := by
  cases item <;> rfl

/-- The events of the shifts of some tokens. -/
def shifts (tokens : List String) : List Event :=
  tokens.map fun token ↦ .shifted (Symbol.ofChunk token)

/-! ## Events of a stack -/

theorem postorderOf_reduce (forLeaves : List Event) (stack : List Item) (below : Nat)
    (name : String) :
    Tree.postorderOf .reduced forLeaves (trees (reduce stack below name)) =
      Tree.postorderOf .reduced forLeaves (trees stack) ++
        [.reduced name ((stack.drop below).map Item.label)] := by
  have hlabels : ((trees stack).drop below).map Tree.label = (stack.drop below).map Item.label := by
    rw [trees, ← List.map_drop, List.map_map]
    exact List.map_congr_left fun item _ ↦ item.label_tree
  rw [trees_reduce, Tree.postorderOf_node, hlabels]

theorem events_reduceAll {left : Nat} {stack last : List Item}
    (h : (reduceAll s g left stack).outcome = .ok last) (forLeaves : List Event) :
    Tree.postorderOf .reduced forLeaves (trees last) =
      Tree.postorderOf .reduced forLeaves (trees stack) ++ (reduceAll s g left stack).events := by
  induction left, stack using reduceAll_induction (g := g) with
  | done left stack hnone =>
      rw [reduceAll_of_none hnone] at h ⊢
      cases h
      rw [Traced.events_pure, List.append_nil]
  | limit stack found hfound =>
      rw [outcome_reduceAll_zero hfound] at h
      cases h
  | step left stack below name hfound ih =>
      rw [outcome_reduceAll_succ hfound] at h
      rw [ih h, postorderOf_reduce, reduceAll_succ hfound,
        Traced.events_bind_of_ok (Traced.outcome_emit _), Traced.events_emit, List.append_assoc]

theorem events_advance {stack last : List Item} {token : String}
    (h : (advance s g stack token).outcome = .ok last) {forLeaves : List Event}
    (hleaves : (Tree.leavesOf (trees stack)).length = forLeaves.length) :
    Tree.postorderOf .reduced (forLeaves ++ [.shifted (Symbol.ofChunk token)]) (trees last) =
      Tree.postorderOf .reduced forLeaves (trees stack) ++ (advance s g stack token).events := by
  rw [outcome_advance] at h
  have hshift : Tree.postorderOf Event.reduced (forLeaves ++ [.shifted (Symbol.ofChunk token)])
      (trees (stack ++ [.raw (Symbol.ofChunk token)])) =
        Tree.postorderOf .reduced forLeaves (trees stack) ++ [.shifted (Symbol.ofChunk token)] := by
    rw [trees_append, Tree.postorderOf_append,
      Tree.postorderOf_append_left _ _ _ (Nat.le_of_eq hleaves), hleaves, List.drop_left]
    rfl
  rw [events_reduceAll h, hshift, advance, Traced.events_bind_of_ok (Traced.outcome_emit _),
    Traced.events_emit, List.append_assoc]

theorem length_leavesOf_of_run {tokens : List String} {stack : List Item}
    (h : (run s g tokens).outcome = .ok stack) :
    (Tree.leavesOf (trees stack)).length = tokens.length := by
  rw [(settled_of_run h).leaves, surfaces, List.length_map]

/-- The events of a run are the postorder of the trees on its stack. -/
theorem events_run {tokens : List String} {stack : List Item}
    (h : (run s g tokens).outcome = .ok stack) :
    (run s g tokens).events = Tree.postorderOf .reduced (shifts tokens) (trees stack) := by
  induction tokens using List.reverseRecOn generalizing stack with
  | nil =>
      cases h
      rfl
  | append_singleton tokens token ih =>
      rw [run_concat] at h ⊢
      obtain ⟨before, hbefore, hadvance⟩ := Traced.outcome_bind_eq_ok_iff.mp h
      have hleaves : (Tree.leavesOf (trees before)).length = (shifts tokens).length := by
        rw [length_leavesOf_of_run hbefore, shifts, List.length_map]
      rw [Traced.events_bind_of_ok hbefore, ih hbefore, ← events_advance hadvance hleaves, shifts,
        shifts, List.map_append]
      rfl

/-! ## Tokens on the stack -/

/-- A token that no rule has consumed is the one of its leaf. -/
def HoldsTokens (shifted : List Symbol) (stack : List Item) : Prop :=
  ∀ below symbol above, stack = below ++ .raw symbol :: above →
    shifted[(Tree.leavesOf (trees below)).length]? = some symbol

theorem HoldsTokens.reduce {shifted : List Symbol} {stack : List Item}
    (h : HoldsTokens shifted stack) (count : Nat) (name : String) :
    HoldsTokens shifted (reduce stack count name) := by
  intro below symbol above hsplit
  -- the item on top is a tree, so the token lies among those that were kept
  rcases List.eq_nil_or_concat above with rfl | ⟨above, top, rfl⟩
  · have htop := congrArg List.getLast? hsplit
    simp [ShiftReduce.reduce] at htop
  · rw [ShiftReduce.reduce, List.concat_eq_append, ← List.cons_append,
      ← List.append_assoc] at hsplit
    have hkept := (List.append_inj' hsplit rfl).1
    apply h below symbol (above ++ stack.drop count)
    rw [← List.cons_append, ← List.append_assoc, ← hkept, List.take_append_drop]

theorem HoldsTokens.shift {shifted : List Symbol} {stack : List Item}
    (h : HoldsTokens shifted stack)
    (hleaves : (Tree.leavesOf (trees stack)).length = shifted.length) (symbol : Symbol) :
    HoldsTokens (shifted ++ [symbol]) (stack ++ [.raw symbol]) := by
  intro below other above hsplit
  rcases List.eq_nil_or_concat above with rfl | ⟨above, top, rfl⟩
  · obtain ⟨rfl, hsame⟩ := List.append_inj' hsplit rfl
    cases hsame
    rw [hleaves]
    exact List.getElem?_concat_length
  · rw [List.concat_eq_append, ← List.cons_append, ← List.append_assoc] at hsplit
    have hold := h below other above (List.append_inj' hsplit rfl).1
    exact (List.getElem?_append_left (List.getElem?_eq_some_iff.mp hold).1).trans hold

theorem holdsTokens_of_run {tokens : List String} {stack : List Item}
    (h : (run s g tokens).outcome = .ok stack) :
    HoldsTokens (tokens.map Symbol.ofChunk) stack := by
  induction tokens using List.reverseRecOn generalizing stack with
  | nil =>
      cases h
      intro below symbol above hsplit
      simp at hsplit
  | append_singleton tokens token ih =>
      rw [run_concat] at h
      obtain ⟨before, hbefore, hadvance⟩ := Traced.outcome_bind_eq_ok_iff.mp h
      have hleaves : (Tree.leavesOf (trees before)).length =
          (tokens.map Symbol.ofChunk).length := by
        rw [length_leavesOf_of_run hbefore, List.length_map]
      rw [outcome_advance] at hadvance
      rw [List.map_append]
      exact (reduceAll_preserves (motive := HoldsTokens _)
        (fun _ below name hstack _ ↦ hstack.reduce below name)
        ((ih hbefore).shift hleaves (Symbol.ofChunk token)) hadvance).1

/-! ## Lines -/

/-- The line of a shift, with the token written as in a grammar. -/
def shiftLine (token : String) : String := "shift " ++ (Symbol.ofChunk token).written

def reduceLine (label : String) (children : List String) : String :=
  "reduce " ++ label ++ " -> " ++ String.intercalate " " children

theorem text_events_run {tokens : List String} {stack : List Item}
    (h : (run s g tokens).outcome = .ok stack) :
    (run s g tokens).events.map Event.text =
      Tree.postorderOf reduceLine (tokens.map shiftLine) (trees stack) := by
  rw [events_run h, Tree.map_postorderOf, shifts, List.map_map]
  rfl

/-- Whatever the grammar and the limit, the lines of a parse that returns a tree
are the postorder of that tree and a last line, which accepts it. The lines of a
parse that ends unreduced are the postorders of the items on its last stack, from
the bottom, and a token among these items has only the line of its own shift. -/
theorem lines_eq_postorder (s : Settings) (g : Grammar) (tokens : List String) :
    (∀ tree, (parse s g tokens).outcome = .ok tree →
      tree.leaves = surfaces tokens ∧
      (parse s g tokens).events.map Event.text =
        tree.postorder reduceLine (tokens.map shiftLine) ++
          ["accepted " ++ tree.label ++ ", " ++ toString tree.depth ++ " level(s) deep"]) ∧
    (∀ labels, (parse s g tokens).outcome = .error (.unreduced labels) →
      ∃ stack, (run s g tokens).outcome = .ok stack ∧ labels = stack.map Item.label ∧
        Tree.leavesOf (stack.map Item.tree) = surfaces tokens ∧
        HoldsTokens (tokens.map Symbol.ofChunk) stack ∧
        (parse s g tokens).events.map Event.text =
          Tree.postorderOf reduceLine (tokens.map shiftLine) (stack.map Item.tree)) := by
  constructor
  · intro tree hparse
    have hrun := parse_eq_ok_iff.mp hparse
    have hleaves := (settled_of_run hrun).leaves
    have hlines := text_events_run hrun
    refine ⟨by simpa [trees, Tree.leavesOf, Item.tree] using hleaves, ?_⟩
    rw [parse, Traced.events_bind_of_ok hrun, List.map_append, hlines, trees, List.map_singleton,
      Tree.postorderOf_singleton]
    rfl
  · intro labels hparse
    rcases Traced.outcome_bind_eq_error_iff.mp hparse with hrun | ⟨stack, hrun, hfinish⟩
    · cases run_eq_error hrun
    · obtain ⟨hlabels, hother⟩ := finish_eq_unreduced hfinish
      refine ⟨stack, hrun, hlabels, (settled_of_run hrun).leaves, holdsTokens_of_run hrun, ?_⟩
      rw [parse, Traced.events_bind_of_ok hrun, List.map_append, text_events_run hrun,
        events_finish_of_ne hother, List.map_nil, List.append_nil, trees]

theorem lines_eq_postorder_overlapping :
    (parse {} overlapping ["a", "b"]).events.map Event.text =
        ["shift a", "shift b", "reduce X -> a b", "reduce S -> X", "accepted S, 3 level(s) deep"] ∧
      (parse {} overlapping ["b", "\"c\""]).outcome = .error (.unreduced ["Y", "c"]) ∧
      (parse {} overlapping ["b", "\"c\""]).events.map Event.text =
        ["shift b", "reduce Y -> b", "shift \"c\""] := by
  have htree : (parse {} overlapping ["a", "b"]).outcome =
      .ok (.node "S" [.node "X" [.leaf "a", .leaf "b"]]) := rfl
  have hstack : (run {} overlapping ["b", "\"c\""]).outcome =
      .ok [.built (.node "Y" [.leaf "b"]), .raw (.terminal "c")] := rfl
  have hunreduced : (parse {} overlapping ["b", "\"c\""]).outcome =
      .error (.unreduced ["Y", "c"]) := rfl
  obtain ⟨stack, hrun, -, -, -, hlines⟩ :=
    (lines_eq_postorder {} overlapping ["b", "\"c\""]).2 _ hunreduced
  cases hstack.symm.trans hrun
  exact ⟨((lines_eq_postorder {} overlapping ["a", "b"]).1 _ htree).2.trans (by decide), hunreduced,
    hlines.trans (by decide)⟩

end PhraseStructure.ShiftReduce
