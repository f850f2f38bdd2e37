import PhraseStructure.Random.WordSource

/-!
# Fair choices

A word times the number of candidates is a number of 64 bits, whose high half
is the index. To favour no candidate, a word is drawn again if the low half is
outside a zone whose size is a multiple of the number of candidates. A zero is
never drawn again, so a choice ends with the words that a source has before
its zeros.
-/

namespace PhraseStructure.Choice

/-- The last number of the zone for `n` candidates. The size of the zone is the
product of `n` and a power of two that has exactly 32 bits. -/
def zone (n : Nat) : Nat := n <<< (31 - Nat.log2 n) - 1

def isFair (n : Nat) (word : UInt32) : Bool := word.toNat * n % UInt32.size ≤ zone n

def index (n : Nat) (word : UInt32) : Nat := word.toNat * n / UInt32.size

/-- Draws until a word is fair, with at most the given number of words that
can be unfair. -/
def drawIndex (n : Nat) : Nat → WordSource → Nat × WordSource
  | 0, s => (index n s.peek, s.advance)
  | unsettled + 1, s =>
      if isFair n s.peek then (index n s.peek, s.advance)
      else drawIndex n unsettled s.advance

def choose {α : Type} (candidates : List α) (s : WordSource) : Option α × WordSource :=
  match candidates with
  | [] => (none, s)
  | _ :: _ =>
      let (i, s) := drawIndex candidates.length s.remaining s
      (candidates[i]?, s)

theorem isFair_zero (n : Nat) : isFair n 0 = true := by
  simp [isFair]

theorem index_lt {n : Nat} (pos : 0 < n) (word : UInt32) : index n word < n := by
  have bound : word.toNat < UInt32.size := word.toNat_lt_size
  rw [index, Nat.div_lt_iff_lt_mul (by decide), Nat.mul_comm n]
  exact Nat.mul_lt_mul_of_pos_right bound pos

theorem drawIndex_lt {n : Nat} (pos : 0 < n) (unsettled : Nat) (s : WordSource) :
    (drawIndex n unsettled s).1 < n := by
  induction unsettled generalizing s with
  | zero => exact index_lt pos _
  | succ unsettled ih =>
      rw [drawIndex]
      split
      · exact index_lt pos _
      · exact ih _

theorem choose_isSome {α : Type} {candidates : List α} (h : candidates ≠ []) (s : WordSource) :
    (choose candidates s).1.isSome = true := by
  cases candidates with
  | nil => exact absurd rfl h
  | cons a rest =>
      simp only [choose, Option.isSome_iff_ne_none, ne_eq, List.getElem?_eq_none_iff, Nat.not_le]
      exact drawIndex_lt (by simp) _ _

end PhraseStructure.Choice
