import PhraseStructure.Parse.TopDown

/-!
# Reading words from a position

A surface matches a position if it is the word to be read there: the token, or
beyond the last token an empty word if the settings say so. Reading a token
moves on by one, reading at the end does not move. Hence a row of words that is
read is a stretch of the tokens, followed by empty words only at their end.
-/

namespace PhraseStructure.TopDown

def reads (symbol : Symbol) : Bool := !symbol.isNonterminal

theorem reads_eq_true_iff {symbol : Symbol} :
    reads symbol = true ↔ symbol.isNonterminal = false := by
  simp [reads]

variable (s : Settings) (tokens : List String)

/-- The word to be read at a position. -/
def lookahead (pos : Nat) : Option String :=
  match tokens[pos]? with
  | some token => some token
  | none => if s.emptyAtEnd then some "" else none

/-- The position after the word at the given one. -/
def after (pos : Nat) : Nat := if pos < tokens.length then pos + 1 else pos

/-- The words can be read one after the other between the two positions. -/
def Reads : Nat → List String → Nat → Prop
  | pos, [], stop => stop = pos
  | pos, word :: words, stop =>
      lookahead s tokens pos = some word ∧ Reads (after tokens pos) words stop

variable {s : Settings} {tokens : List String}

theorem lookahead_of_lt {pos : Nat} (h : pos < tokens.length) :
    lookahead s tokens pos = some tokens[pos] := by
  rw [lookahead, List.getElem?_eq_getElem h]

theorem lookahead_of_ge {pos : Nat} (h : tokens.length ≤ pos) :
    lookahead s tokens pos = if s.emptyAtEnd then some "" else none := by
  rw [lookahead, List.getElem?_eq_none h]

theorem after_of_lt {pos : Nat} (h : pos < tokens.length) : after tokens pos = pos + 1 := if_pos h

theorem after_of_ge {pos : Nat} (h : tokens.length ≤ pos) : after tokens pos = pos :=
  if_neg (Nat.not_lt.mpr h)

theorem matchSurface_eq (surface : String) (pos : Nat) :
    matchSurface s tokens surface pos =
      if lookahead s tokens pos = some surface then some (.leaf surface, after tokens pos)
      else none := by
  rcases Nat.lt_or_ge pos tokens.length with hlt | hge
  · rw [matchSurface, lookahead_of_lt hlt, after_of_lt hlt, List.getElem?_eq_getElem hlt]
    by_cases h : tokens[pos] = surface <;> simp [h]
  · rw [matchSurface, lookahead_of_ge hge, after_of_ge hge, List.getElem?_eq_none hge]
    cases s.emptyAtEnd with
    | false => simp
    | true =>
        by_cases h : surface = ""
        · simp [h]
        · simp [h, Ne.symm h]

/-! ## From a later token on -/

theorem lookahead_drop (offset pos : Nat) :
    lookahead s (tokens.drop offset) pos = lookahead s tokens (offset + pos) := by
  rw [lookahead, lookahead, List.getElem?_drop]

theorem add_after_drop (offset pos : Nat) :
    offset + after (tokens.drop offset) pos = after tokens (offset + pos) := by
  simp only [after, List.length_drop, Nat.lt_sub_iff_add_lt']
  split <;> rfl

theorem reads_drop_iff {offset pos stop : Nat} {words : List String} :
    Reads s (tokens.drop offset) pos words stop ↔
      Reads s tokens (offset + pos) words (offset + stop) := by
  induction words generalizing pos with
  | nil => simp only [Reads, Nat.add_left_cancel_iff]
  | cons word words ih => rw [Reads, Reads, lookahead_drop, ih, add_after_drop]

/-! ## Rows of words -/

theorem reads_append_iff {pos stop : Nat} {words others : List String} :
    Reads s tokens pos (words ++ others) stop ↔
      ∃ middle, Reads s tokens pos words middle ∧ Reads s tokens middle others stop := by
  induction words generalizing pos with
  | nil => simp [Reads]
  | cons word words ih => simp only [List.cons_append, Reads, ih, exists_and_left, and_assoc]

/-- What is read is a stretch of the tokens and then, if the stretch goes up to
the end, some empty words. -/
theorem Reads.eq_stretch {pos stop : Nat} {words : List String}
    (h : Reads s tokens pos words stop) (hpos : pos ≤ tokens.length) :
    pos ≤ stop ∧ stop ≤ tokens.length ∧
      ∃ empties, words = (tokens.drop pos).take (stop - pos) ++ List.replicate empties "" ∧
        (0 < empties → s.emptyAtEnd = true ∧ stop = tokens.length) := by
  induction words generalizing pos with
  | nil =>
      cases h
      exact ⟨Nat.le_refl _, hpos, 0, by simp, fun h ↦ (Nat.lt_irrefl 0 h).elim⟩
  | cons word words ih =>
      obtain ⟨hword, hwords⟩ := h
      rcases Nat.lt_or_eq_of_le hpos with hlt | rfl
      · rw [after_of_lt hlt] at hwords
        obtain ⟨hle, hend, empties, hsplit, hempties⟩ := ih hwords hlt
        rw [lookahead_of_lt hlt] at hword
        cases hword
        refine ⟨Nat.le_of_succ_le hle, hend, empties, ?_, hempties⟩
        obtain ⟨ahead, rfl⟩ := Nat.exists_eq_add_of_le hle
        have hahead : pos + 1 + ahead - pos = ahead + 1 := by omega
        rw [hsplit, hahead, List.drop_eq_getElem_cons hlt, List.take_succ_cons,
          Nat.add_sub_cancel_left, List.cons_append]
      · rw [after_of_ge (Nat.le_refl _)] at hwords
        obtain ⟨hle, hend, empties, hsplit, hempties⟩ := ih hwords (Nat.le_refl _)
        have hstop : stop = tokens.length := Nat.le_antisymm hend hle
        rw [lookahead_of_ge (Nat.le_refl _)] at hword
        cases hempty : s.emptyAtEnd with
        | false =>
            rw [hempty] at hword
            cases hword
        | true =>
            rw [hempty] at hword
            cases hword
            refine ⟨hle, hend, empties + 1, ?_, fun _ ↦ ⟨rfl, hstop⟩⟩
            rw [hsplit, hstop, Nat.sub_self, List.replicate_succ]
            rfl

/-- From the beginning, what is read is a front part of the tokens and then some
empty words, of which there are none in a strict reading. -/
theorem Reads.eq_take {stop : Nat} {words : List String} (h : Reads s tokens 0 words stop) :
    stop ≤ tokens.length ∧ ∃ empties, words = tokens.take stop ++ List.replicate empties "" ∧
      (0 < empties → stop = tokens.length) ∧ (s.emptyAtEnd = false → empties = 0) := by
  obtain ⟨-, hstop, empties, hwords, hempties⟩ := h.eq_stretch (Nat.zero_le _)
  rw [List.drop_zero, Nat.sub_zero] at hwords
  refine ⟨hstop, empties, hwords, fun hpos ↦ (hempties hpos).2, ?_⟩
  intro hstrict
  apply Nat.eq_zero_of_not_pos
  intro hsome
  have hat := (hempties hsome).1
  rw [hstrict] at hat
  cases hat

/-- The number of tokens that are used up by reading words from the first one
on. Words behind the last token are empty and use up none. -/
def tokensUsed (tokens words : List String) : Nat := min words.length tokens.length

theorem Reads.tokensUsed_eq {stop : Nat} {words : List String}
    (h : Reads s tokens 0 words stop) : tokensUsed tokens words = stop := by
  obtain ⟨hstop, empties, rfl, hend, -⟩ := h.eq_take
  rw [tokensUsed, List.length_append, List.length_take, List.length_replicate]
  omega

/-- A strict reading moves on at every word. -/
theorem Reads.lt_of_strict (hstrict : s.emptyAtEnd = false) {pos stop : Nat} {words : List String}
    (hwords : words ≠ []) (h : Reads s tokens pos words stop) : pos < stop := by
  obtain ⟨word, rest, rfl⟩ := List.exists_cons_of_ne_nil hwords
  obtain ⟨hword, hrest⟩ := h
  rcases Nat.lt_or_ge pos tokens.length with hlt | hge
  · rw [after_of_lt hlt] at hrest
    exact (hrest.eq_stretch hlt).1
  · rw [lookahead_of_ge hge, hstrict] at hword
    cases hword

theorem reads_take_drop {pos count : Nat} (h : pos + count ≤ tokens.length) :
    Reads s tokens pos ((tokens.drop pos).take count) (pos + count) := by
  induction count generalizing pos with
  | zero => rfl
  | succ count ih =>
      have hlt : pos < tokens.length := by omega
      have hrest : Reads s tokens (pos + 1) ((tokens.drop (pos + 1)).take count)
          (pos + 1 + count) := ih (by omega)
      rw [List.drop_eq_getElem_cons hlt, List.take_succ_cons, Reads, after_of_lt hlt]
      rw [Nat.add_right_comm] at hrest
      exact ⟨lookahead_of_lt hlt, hrest⟩

theorem reads_all : Reads s tokens 0 tokens tokens.length := by
  have hstretch : Reads s tokens 0 ((tokens.drop 0).take tokens.length) (0 + tokens.length) :=
    reads_take_drop (Nat.le_of_eq (Nat.zero_add _))
  rwa [List.drop_zero, List.take_length, Nat.zero_add] at hstretch

end PhraseStructure.TopDown
