/-!
# What a terminal shows

A text may hold control characters, and sequences of characters that tell a
terminal what to do. A terminal obeys them and does not show them. Where
there is no terminal the same text is written as it would show: tabs, page
breaks and line endings stay, and so does each character with a shape.

An escape character starts a sequence, wherever it stands, and two characters
cancel one. Whatever else is inside a sequence is left out. A short sequence
ends by itself. A command to the system and a control string have a text of
any length, so one that is never ended takes the rest with it.
-/

namespace PhraseStructure.Text

inductive Terminal where
  | plain
  | escape
  /-- After an escape character and marks that qualify the next letter. -/
  | qualified
  | sequence
  /-- A command to the system ends at a bell. -/
  | systemCommand
  | device
  | deviceParameters
  | deviceMarks
  /-- A control string ends at a terminator. -/
  | controlString
  deriving DecidableEq

def isLayout (c : Char) : Bool :=
  c == '\t' || c == '\n' || c == '\x0c' || c == '\r'

/-- Characters beyond the first 128 pass for characters with a shape. -/
def isShown (c : Char) : Bool :=
  isLayout c || (' ' ≤ c && c != '\x7f')

/-- Marks stand between the parameters of a sequence and its last letter. -/
def isMark (c : Char) : Bool := ' ' ≤ c && c ≤ '/'

def isParameter (c : Char) : Bool := '0' ≤ c && c ≤ '?'

def isFinal (c : Char) : Bool := '@' ≤ c && c ≤ '~'

/-- The terminator is a byte. It also counts as one of the bytes of a longer
character, and the rest of the character is left out. -/
def endsControlString (c : Char) : Bool := (String.utf8EncodeChar c).contains 0x9c

namespace Terminal

/-- A character without a meaning after the escape character is read over. -/
def afterEscape (c : Char) : Terminal :=
  if c = '[' then .sequence
  else if c = ']' then .systemCommand
  else if c = 'P' then .device
  else if c = 'X' || c = '^' || c = '_' then .controlString
  else if isParameter c || isFinal c then .plain
  else .escape

def next (t : Terminal) (c : Char) : Terminal :=
  if c = '\x18' || c = '\x1a' then .plain
  else if c = '\x1b' then .escape
  else match t with
    | .plain => .plain
    | .escape => if isMark c then .qualified else afterEscape c
    | .qualified => if isParameter c || isFinal c then .plain else .qualified
    | .sequence => if isFinal c then .plain else .sequence
    | .systemCommand => if c = '\x07' then .plain else .systemCommand
    | .device =>
        if isMark c then .deviceMarks
        else if isParameter c then .deviceParameters
        else if isFinal c then .controlString
        else .device
    | .deviceParameters =>
        if isMark c then .deviceMarks
        else if isFinal c || ('<' ≤ c && c ≤ '?') then .controlString
        else .deviceParameters
    | .deviceMarks =>
        if isParameter c || isFinal c then .controlString else .deviceMarks
    | .controlString => if endsControlString c then .plain else .controlString

/-- A short sequence lets layout through. -/
def isShort : Terminal → Bool
  | escape | qualified | sequence => true
  | _ => false

/-- Whether a character is shown. Layout inside a short sequence interrupts
the sequence, and then text is shown as if there were none. -/
def shows (t : Terminal) (interrupted : Bool) (c : Char) : Bool :=
  if t = .plain || interrupted then isShown c else isLayout c && t.isShort

/-- The characters that are shown. An interrupted sequence goes on at the next
character that is not shown, unless a character beyond the first 128 has been
shown before. -/
def shownFrom (t : Terminal) (interrupted : Bool) : List Char → List Char
  | [] => []
  | c :: rest =>
      if t.shows interrupted c then
        c :: shownFrom (if c ≤ '\x7f' then t else .plain) true rest
      else shownFrom (t.next c) false rest

theorem shownFrom_sublist (t : Terminal) (interrupted : Bool) (text : List Char) :
    (shownFrom t interrupted text).Sublist text := by
  induction text generalizing t interrupted with
  | nil => exact .slnil
  | cons c rest ih =>
      unfold shownFrom
      split
      · exact (ih _ _).cons_cons c
      · exact (ih _ _).cons c

theorem shownFrom_plain {text : List Char} (h : ∀ c ∈ text, isShown c = true)
    (interrupted : Bool) : shownFrom .plain interrupted text = text := by
  induction text generalizing interrupted with
  | nil => rfl
  | cons c rest ih =>
      have hc : shows .plain interrupted c = true := by simp [shows, h c]
      simp [shownFrom, hc, ih fun d hd ↦ h d (List.mem_cons_of_mem c hd)]

end Terminal

def shown (text : String) : String :=
  String.ofList (Terminal.shownFrom .plain false text.toList)

theorem shown_of_forall {text : String} (h : ∀ c ∈ text.toList, isShown c = true) :
    shown text = text := by
  simp [shown, Terminal.shownFrom_plain h]

end PhraseStructure.Text
