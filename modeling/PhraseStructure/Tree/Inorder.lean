import PhraseStructure.Tree.Preorder

/-!
# Inorder

The inorder of a tree has an entry for each node with children: the node stands
behind everything in its first child and in front of its other children. The
entry is made of the label, the first child and all leaves up to the end of that
child.
-/

namespace PhraseStructure.Tree

variable {α β : Type}

mutual

/-- The leaves in front of the tree are given. -/
def inorder (entry : String → Tree → List String → α) (before : List String) : Tree → List α
  | leaf _ => []
  | node _ [] => []
  | node label (first :: others) =>
      inorder entry before first ++
        entry label first (before ++ first.leaves) ::
          inorderOf entry (before ++ first.leaves) others

def inorderOf (entry : String → Tree → List String → α) (before : List String) : List Tree → List α
  | [] => []
  | t :: ts => inorder entry before t ++ inorderOf entry (before ++ t.leaves) ts

end

variable {entry : String → Tree → List String → α}

mutual

theorem map_inorder (f : α → β) : (t : Tree) → (before : List String) →
    (inorder entry before t).map f =
      inorder (fun label first words ↦ f (entry label first words)) before t
  | leaf _, _ => rfl
  | node _ [], _ => rfl
  | node label (first :: others), before => by
      rw [inorder, inorder, List.map_append, List.map_cons, map_inorder f first,
        map_inorderOf f others]

theorem map_inorderOf (f : α → β) : (ts : List Tree) → (before : List String) →
    (inorderOf entry before ts).map f =
      inorderOf (fun label first words ↦ f (entry label first words)) before ts
  | [], _ => rfl
  | t :: ts, before => by
      rw [inorderOf, inorderOf, List.map_append, map_inorder f t, map_inorderOf f ts]

end

/-- The number of nodes with children among the nodes of a preorder. -/
def branchings (nodes : List (String × Nat)) : Nat := nodes.countP fun entry ↦ entry.2 != 0

theorem branchings_append (nodes others : List (String × Nat)) :
    branchings (nodes ++ others) = branchings nodes + branchings others :=
  List.countP_append

mutual

/-- Each node with children has one entry. -/
theorem length_inorder : (t : Tree) → (before : List String) →
    (inorder entry before t).length = branchings t.preorder
  | leaf _, _ => rfl
  | node _ [], _ => rfl
  | node label (first :: others), before => by
      have hroot : branchings [(label, (first :: others).length)] = 1 := rfl
      rw [inorder, List.length_append, List.length_cons, length_inorder first,
        length_inorderOf others, preorder, ← List.singleton_append, branchings_append, hroot,
        preorderOf, branchings_append]
      omega

theorem length_inorderOf : (ts : List Tree) → (before : List String) →
    (inorderOf entry before ts).length = branchings (preorderOf ts)
  | [], _ => rfl
  | t :: ts, before => by
      rw [inorderOf, List.length_append, length_inorder t, length_inorderOf ts, preorderOf,
        branchings_append]

end

end PhraseStructure.Tree
