import PhraseStructure.Tree

/-!
# Trees as lists

The preorder of a tree lists its nodes with their numbers of children, each
node before its children. The list can be read back, from its end: a node
takes as many trees as it has children from those read so far. A leaf and a
childless node have the same entry, and reading gives the leaf.
-/

namespace PhraseStructure.Tree

mutual

def preorder : Tree → List (String × Nat)
  | leaf surface => [(surface, 0)]
  | node label children => (label, children.length) :: preorderOf children

def preorderOf : List Tree → List (String × Nat)
  | [] => []
  | t :: ts => preorder t ++ preorderOf ts

end

def readNode (entry : String × Nat) (ready : List Tree) : List Tree :=
  grow entry.1 (ready.take entry.2) :: ready.drop entry.2

def ofPreorder? (nodes : List (String × Nat)) : Option Tree :=
  match nodes.foldr readNode [] with
  | [t] => some t
  | _ => none

mutual

def isFull : Tree → Bool
  | leaf _ => true
  | node _ children => !children.isEmpty && areFull children

def areFull : List Tree → Bool
  | [] => true
  | t :: ts => isFull t && areFull ts

end

mutual

theorem foldr_readNode_preorder : (t : Tree) → (ready : List Tree) → t.isFull = true →
    t.preorder.foldr readNode ready = t :: ready
  | leaf _, _, _ => by simp [preorder, readNode, grow]
  | node label children, ready, full => by
      simp only [isFull, Bool.and_eq_true] at full
      rw [preorder, List.foldr_cons, foldr_readNode_preorderOf children ready full.2]
      cases children with
      | nil => simp at full
      | cons t ts => simp [readNode, grow]

theorem foldr_readNode_preorderOf : (ts : List Tree) → (ready : List Tree) → areFull ts = true →
    (preorderOf ts).foldr readNode ready = ts ++ ready
  | [], _, _ => rfl
  | t :: ts, ready, full => by
      simp only [areFull, Bool.and_eq_true] at full
      rw [preorderOf, List.foldr_append, foldr_readNode_preorderOf ts ready full.2,
        foldr_readNode_preorder t _ full.1, List.cons_append]

end

/-- A tree in which every node has a child can be read back from its preorder. -/
theorem ofPreorder?_preorder {t : Tree} (full : t.isFull = true) :
    ofPreorder? t.preorder = some t := by
  rw [ofPreorder?, foldr_readNode_preorder t [] full]

end PhraseStructure.Tree
