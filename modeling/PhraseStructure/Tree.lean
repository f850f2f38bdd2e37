/-!
# Trees

A leaf carries the surface of a symbol that is not a nonterminal, and a node
carries the name of a rule above what the rule was expanded to. The functions
on lists of trees treat a list as the children of a node.
-/

namespace PhraseStructure

inductive Tree where
  | leaf (surface : String)
  | node (label : String) (children : List Tree)

namespace Tree

def label : Tree → String
  | leaf surface => surface
  | node label _ => label

def children : Tree → List Tree
  | leaf _ => []
  | node _ children => children

def isLeaf : Tree → Bool
  | leaf _ => true
  | node _ _ => false

/-- A tree over the given children, which is a leaf if there are none. -/
def grow (label : String) : List Tree → Tree
  | [] => leaf label
  | children => node label children

mutual

def leaves : Tree → List String
  | leaf surface => [surface]
  | node _ children => leavesOf children

def leavesOf : List Tree → List String
  | [] => []
  | t :: ts => leaves t ++ leavesOf ts

end

mutual

/-- The number of trees on the longest way down to a leaf. -/
def depth : Tree → Nat
  | leaf _ => 1
  | node _ children => 1 + depthOf children

def depthOf : List Tree → Nat
  | [] => 0
  | t :: ts => max (depth t) (depthOf ts)

end

mutual

/-- A leaf in single quotes, a node in parentheses with one space before each
child. Labels are not escaped. -/
def render : Tree → String
  | leaf surface => "'" ++ surface ++ "'"
  | node label children =>
      "(" ++ label ++ " " ++ String.intercalate " " (renderEach children) ++ ")"

def renderEach : List Tree → List String
  | [] => []
  | t :: ts => render t :: renderEach ts

end

mutual

def decideEq : (t u : Tree) → Decidable (t = u)
  | leaf a, leaf b => decidable_of_iff (a = b) (by simp)
  | leaf _, node _ _ => isFalse (by simp)
  | node _ _, leaf _ => isFalse (by simp)
  | node a ts, node b us =>
      if same : a = b then
        match decideEqEach ts us with
        | isTrue each => isTrue (by rw [same, each])
        | isFalse differ => isFalse fun h ↦ differ (by injection h)
      else isFalse fun h ↦ same (by injection h)

def decideEqEach : (ts us : List Tree) → Decidable (ts = us)
  | [], [] => isTrue rfl
  | [], _ :: _ => isFalse (by simp)
  | _ :: _, [] => isFalse (by simp)
  | t :: ts, u :: us =>
      match decideEq t u with
      | isTrue first =>
          match decideEqEach ts us with
          | isTrue rest => isTrue (by rw [first, rest])
          | isFalse differ => isFalse fun h ↦ differ (by injection h)
      | isFalse differ => isFalse fun h ↦ differ (by injection h)

end

instance : DecidableEq Tree := decideEq

/-- The leaves that stand for a word. An empty leaf stands for none. -/
def words (t : Tree) : List String := t.leaves.filter fun word ↦ word != ""

theorem words_eq_filter (t : Tree) : t.words = t.leaves.filter (· ≠ "") := by
  apply List.filter_congr
  intro word _
  exact Bool.eq_iff_iff.mpr (by simp)

theorem leavesOf_eq_flatMap (ts : List Tree) : leavesOf ts = ts.flatMap leaves := by
  induction ts with
  | nil => rfl
  | cons t ts ih => rw [leavesOf, ih, List.flatMap_cons]

@[simp] theorem leavesOf_append (ts us : List Tree) :
    leavesOf (ts ++ us) = leavesOf ts ++ leavesOf us := by
  simp [leavesOf_eq_flatMap]

theorem renderEach_eq_map (ts : List Tree) : renderEach ts = ts.map render := by
  induction ts with
  | nil => rfl
  | cons t ts ih => rw [renderEach, ih, List.map_cons]

theorem depth_le_depthOf {t : Tree} {ts : List Tree} (h : t ∈ ts) : depth t ≤ depthOf ts := by
  induction ts with
  | nil => cases h
  | cons u us ih =>
      rw [depthOf]
      cases h with
      | head => exact Nat.le_max_left _ _
      | tail _ h => exact Nat.le_trans (ih h) (Nat.le_max_right _ _)

end Tree

end PhraseStructure
