/-!
# Physical lines

A line ends at a newline or at the end of the text. One carriage return
directly before the newline belongs to the line's ending. What follows the
last newline is a line only if it is not empty, and it keeps its returns.

The rule is the same for characters and for bytes, so it is stated once for
lists over any alphabet.
-/

namespace PhraseStructure.Text

variable {α : Type} [BEq α]

/-- The row without one `ret` at its end. -/
def dropReturn (ret : α) (row : List α) : List α :=
  if row.getLast? == some ret then row.dropLast else row

def cutLines (newline ret : α) (text : List α) : List (List α) :=
  let pieces := text.splitOnP (· == newline)
  let last := pieces.getLast?.getD []
  pieces.dropLast.map (dropReturn ret) ++ if last.isEmpty then [] else [last]

def lines (text : String) : List String :=
  (cutLines '\n' '\r' text.toList).map String.ofList

/-- The lines of a stream of bytes, which need not be text. -/
def byteLines (bytes : ByteArray) : List ByteArray :=
  (cutLines (10 : UInt8) 13 bytes.data.toList).map fun row ↦ ⟨row.toArray⟩

@[simp] theorem cutLines_nil (newline ret : α) : cutLines newline ret [] = [] := by
  simp [cutLines]

end PhraseStructure.Text
