import PhraseStructure.Tree

/-!
# Postorder

The postorder of a tree has an entry for each leaf and each node, a node behind
everything below it. The entries of the leaves are given as a row, from which
each leaf takes the next one. The entry of a node is made of its label and the
labels of its children.
-/

namespace PhraseStructure.Tree

variable {α β : Type}

mutual

def postorder (entry : String → List String → α) (forLeaves : List α) : Tree → List α
  | leaf _ => forLeaves.take 1
  | node label children =>
      postorderOf entry forLeaves children ++ [entry label (children.map Tree.label)]

def postorderOf (entry : String → List String → α) (forLeaves : List α) : List Tree → List α
  | [] => []
  | t :: ts =>
      postorder entry forLeaves t ++ postorderOf entry (forLeaves.drop t.leaves.length) ts

end

variable {entry : String → List String → α}

theorem postorderOf_append (forLeaves : List α) (ts us : List Tree) :
    postorderOf entry forLeaves (ts ++ us) =
      postorderOf entry forLeaves ts ++
        postorderOf entry (forLeaves.drop (leavesOf ts).length) us := by
  induction ts generalizing forLeaves with
  | nil => rfl
  | cons t ts ih =>
      rw [List.cons_append, postorderOf, postorderOf, ih, List.drop_drop, leavesOf,
        List.length_append, List.append_assoc]

theorem postorderOf_singleton (forLeaves : List α) (t : Tree) :
    postorderOf entry forLeaves [t] = postorder entry forLeaves t := by
  rw [postorderOf, postorderOf, List.append_nil]

/-- A node that takes the place of the last trees of a row adds its own entry. -/
theorem postorderOf_node (forLeaves : List α) (ts : List Tree) (count : Nat) (label : String) :
    postorderOf entry forLeaves (ts.take count ++ [node label (ts.drop count)]) =
      postorderOf entry forLeaves ts ++ [entry label ((ts.drop count).map Tree.label)] := by
  rw [postorderOf_append, postorderOf_singleton, postorder, ← List.append_assoc,
    ← postorderOf_append, List.take_append_drop]

mutual

/-- Entries for further leaves are left over. -/
theorem postorder_append_left : (t : Tree) → (forLeaves more : List α) →
    t.leaves.length ≤ forLeaves.length →
      postorder entry (forLeaves ++ more) t = postorder entry forLeaves t
  | leaf _, _, _, h => List.take_append_of_le_length h
  | node _ children, forLeaves, more, h => by
      rw [postorder, postorder, postorderOf_append_left children forLeaves more h]

theorem postorderOf_append_left : (ts : List Tree) → (forLeaves more : List α) →
    (leavesOf ts).length ≤ forLeaves.length →
      postorderOf entry (forLeaves ++ more) ts = postorderOf entry forLeaves ts
  | [], _, _, _ => rfl
  | t :: ts, forLeaves, more, h => by
      rw [leavesOf, List.length_append] at h
      have hfirst : t.leaves.length ≤ forLeaves.length := by omega
      have hrest : (leavesOf ts).length ≤ (forLeaves.drop t.leaves.length).length := by
        rw [List.length_drop]
        omega
      rw [postorderOf, postorderOf, postorder_append_left t forLeaves more hfirst,
        List.drop_append_of_le_length hfirst, postorderOf_append_left ts _ more hrest]

end

mutual

theorem map_postorder (f : α → β) : (t : Tree) → (forLeaves : List α) →
    (postorder entry forLeaves t).map f =
      postorder (fun label labels ↦ f (entry label labels)) (forLeaves.map f) t
  | leaf _, forLeaves => by rw [postorder, postorder, List.map_take]
  | node _ children, forLeaves => by
      rw [postorder, postorder, List.map_append, map_postorderOf f children forLeaves]
      rfl

theorem map_postorderOf (f : α → β) : (ts : List Tree) → (forLeaves : List α) →
    (postorderOf entry forLeaves ts).map f =
      postorderOf (fun label labels ↦ f (entry label labels)) (forLeaves.map f) ts
  | [], _ => rfl
  | t :: ts, forLeaves => by
      rw [postorderOf, postorderOf, List.map_append, map_postorder f t forLeaves,
        map_postorderOf f ts, List.map_drop]

end

end PhraseStructure.Tree
