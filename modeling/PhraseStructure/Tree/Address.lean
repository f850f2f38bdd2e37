import PhraseStructure.Tree

/-!
# Addresses in trees

An address leads from the root of a tree down to one of its subtrees: each
number is the place of a child, counted from zero. To the left of an address are
the leaves of the children that each step passes by.
-/

namespace PhraseStructure.Tree

/-- The subtree at an address, or nothing if the address leaves the tree. -/
def subtreeAt? (t : Tree) : List Nat → Option Tree
  | [] => some t
  | place :: address => t.children[place]?.bind fun child ↦ child.subtreeAt? address

/-- The leaves to the left of the subtree at an address. -/
def leavesBefore (t : Tree) : List Nat → List String
  | [] => []
  | place :: address =>
      leavesOf (t.children.take place) ++
        t.children[place]?.elim [] fun child ↦ child.leavesBefore address

theorem subtreeAt?_cons_eq_some_iff {t u : Tree} {place : Nat} {address : List Nat} :
    t.subtreeAt? (place :: address) = some u ↔
      ∃ front child behind, t.children = front ++ child :: behind ∧ front.length = place ∧
        child.subtreeAt? address = some u := by
  rw [subtreeAt?, Option.bind_eq_some_iff]
  constructor
  · rintro ⟨child, hchild, hat⟩
    obtain ⟨hlt, rfl⟩ := List.getElem?_eq_some_iff.mp hchild
    refine ⟨t.children.take place, _, t.children.drop (place + 1), ?_, ?_, hat⟩
    · rw [← List.drop_eq_getElem_cons hlt, List.take_append_drop]
    · rw [List.length_take, Nat.min_eq_left (Nat.le_of_lt hlt)]
  · rintro ⟨front, child, behind, hsplit, rfl, hat⟩
    refine ⟨child, ?_, hat⟩
    rw [hsplit, List.getElem?_append_right (Nat.le_refl _), Nat.sub_self]
    rfl

theorem leavesBefore_cons {t child : Tree} {front behind : List Tree}
    (hsplit : t.children = front ++ child :: behind) (address : List Nat) :
    t.leavesBefore (front.length :: address) = leavesOf front ++ child.leavesBefore address := by
  rw [leavesBefore, hsplit, List.take_left, List.getElem?_append_right (Nat.le_refl _),
    Nat.sub_self]
  rfl

theorem subtreeAt?_leaf {surface label : String} {children : List Tree} {address : List Nat} :
    (leaf surface).subtreeAt? address ≠ some (node label children) := by
  intro h
  cases address with
  | nil => cases h
  | cons place address => cases h

end PhraseStructure.Tree
