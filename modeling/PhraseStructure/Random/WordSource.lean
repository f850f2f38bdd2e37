/-!
# Sources of random words

A source is a finite row of 32-bit words with zeros after it, and counts the
words that were drawn from it. A row may be as long as its generator lasts.
-/

namespace PhraseStructure

structure WordSource where
  word : Nat → UInt32
  length : Nat
  drawn : Nat := 0

namespace WordSource

def ofWords (words : List UInt32) : WordSource where
  word i := words.getD i 0
  length := words.length

def peek (s : WordSource) : UInt32 := if s.drawn < s.length then s.word s.drawn else 0

def advance (s : WordSource) : WordSource := { s with drawn := s.drawn + 1 }

/-- The number of words before the zeros. -/
def remaining (s : WordSource) : Nat := s.length - s.drawn

theorem peek_eq_zero_of_remaining {s : WordSource} (h : s.remaining = 0) : s.peek = 0 := by
  unfold remaining at h
  rw [peek, if_neg (by omega)]

theorem remaining_advance (s : WordSource) : s.advance.remaining = s.remaining - 1 := by
  simp only [remaining, advance]
  omega

end WordSource

end PhraseStructure
