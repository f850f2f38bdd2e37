import PhraseStructure.Random.WordSource

/-!
# Random words from a key

The words are the keystream of the ChaCha cipher with twelve rounds, a zero
nonce and a block counter of 64 bits. A short seed is stretched to a key by a
linear congruential generator whose high bits choose a rotation of the output.

The sixteen words of a state are held as four rows, so that a round is one
computation on whole rows. Diagonals are columns of the state with its rows
turned against each other.
-/

namespace PhraseStructure.Keystream

def rotate (word amount : UInt32) : UInt32 := word <<< amount ||| word >>> (32 - amount)

structure Row where
  (a b c d : UInt32)

namespace Row

def map (f : UInt32 → UInt32) (x : Row) : Row := ⟨f x.a, f x.b, f x.c, f x.d⟩

def zipWith (f : UInt32 → UInt32 → UInt32) (x y : Row) : Row :=
  ⟨f x.a y.a, f x.b y.b, f x.c y.c, f x.d y.d⟩

def add : Row → Row → Row := zipWith (· + ·)

/-- Adds bit by bit, then rotates every word. -/
def mix (amount : UInt32) (x y : Row) : Row := (zipWith (· ^^^ ·) x y).map (rotate · amount)

def turn (x : Row) : Row := ⟨x.b, x.c, x.d, x.a⟩

def words (x : Row) : List UInt32 := [x.a, x.b, x.c, x.d]

end Row

structure State where
  (first second third fourth : Row)

namespace State

def columns (s : State) : State :=
  let a := s.first.add s.second
  let d := s.fourth.mix 16 a
  let c := s.third.add d
  let b := s.second.mix 12 c
  let a := a.add b
  let d := d.mix 8 a
  let c := c.add d
  let b := b.mix 7 c
  ⟨a, b, c, d⟩

def diagonals (s : State) : State :=
  let t := columns ⟨s.first, s.second.turn, s.third.turn.turn, s.fourth.turn.turn.turn⟩
  ⟨t.first, t.second.turn.turn.turn, t.third.turn.turn, t.fourth.turn⟩

def doubleRounds : Nat → State → State
  | 0, s => s
  | n + 1, s => doubleRounds n s.columns.diagonals

def add (s t : State) : State :=
  ⟨s.first.add t.first, s.second.add t.second, s.third.add t.third, s.fourth.add t.fourth⟩

def words (s : State) : List UInt32 :=
  s.first.words ++ s.second.words ++ s.third.words ++ s.fourth.words

end State

structure Key where
  (low high : Row)

def constants : Row := ⟨0x61707865, 0x3320646e, 0x79622d32, 0x6b206574⟩

def initial (key : Key) (counter : Nat) : State :=
  ⟨constants, key.low, key.high, ⟨counter.toUInt32, (counter / UInt32.size).toUInt32, 0, 0⟩⟩

def block (key : Key) (counter : Nat) : List UInt32 :=
  let s := initial key counter
  ((s.doubleRounds 6).add s).words

/-- The words of all blocks, until the counter is used up. -/
def source (key : Key) : WordSource where
  word i := (block key (i / 16)).getD (i % 16) 0
  length := 16 * UInt64.size

def step (s : UInt64) : UInt64 := s * 6364136223846793005 + 11634580027462260723

def output (s : UInt64) : UInt32 :=
  let folded := (((s >>> 18) ^^^ s) >>> 27).toUInt32
  let amount := (s >>> 59).toUInt32
  folded >>> amount ||| folded <<< ((32 - amount) % 32)

/-- The generator's next four words, and the state after them. -/
def row (s : UInt64) : Row × UInt64 :=
  let s₁ := step s
  let s₂ := step s₁
  let s₃ := step s₂
  let s₄ := step s₃
  (⟨output s₁, output s₂, output s₃, output s₄⟩, s₄)

def keyOfSeed (seed : UInt64) : Key :=
  let (low, s) := row seed
  ⟨low, (row s).1⟩

def ofSeed (seed : UInt64) : WordSource := source (keyOfSeed seed)

end PhraseStructure.Keystream
