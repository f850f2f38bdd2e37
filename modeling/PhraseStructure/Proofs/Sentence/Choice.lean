import PhraseStructure.Random.Choice

/-!
# Every candidate can be drawn, and every choice ends

For each index there is a fair word that leads to it: the least one whose
product with the number of candidates has the index as its high half. The low
half is then smaller than the number of candidates, which the zone is not.

So a row of words can lead a chain of choices to given candidates, with one
word for each choice.

A choice draws again for as long as its words are unfair, without a bound. The
zeros of a source are fair, so from every source it ends, with the index that
is computed from the number of words in front of the zeros.
-/

namespace PhraseStructure

namespace Choice

theorem pred_le_zone (n : Nat) : n - 1 ≤ zone n := by
  rw [zone, Nat.shiftLeft_eq]
  have hscaled : n ≤ n * 2 ^ (31 - n.log2) := Nat.le_mul_of_pos_right n (Nat.two_pow_pos _)
  exact Nat.sub_le_sub_right hscaled 1

/-- Some multiple of `n` lies less than `n` above a given number. -/
theorem exists_mul_eq_add {n : Nat} (hpos : 0 < n) (m : Nat) :
    ∃ word low, word * n = m + low ∧ low < n := by
  have hdivision := Nat.div_add_mod' (m + (n - 1)) n
  have hrest := Nat.mod_lt (m + (n - 1)) hpos
  refine ⟨(m + (n - 1)) / n, n - 1 - (m + (n - 1)) % n, ?_, ?_⟩ <;> omega

theorem exists_fair_word {n i : Nat} (hindex : i < n) (hcount : n < UInt32.size) :
    ∃ word, isFair n word = true ∧ index n word = i := by
  have hpos : 0 < n := Nat.zero_lt_of_lt hindex
  obtain ⟨word, low, hproduct, hlow⟩ := exists_mul_eq_add hpos (i * UInt32.size)
  have hlowSize : low < UInt32.size := Nat.lt_trans hlow hcount
  have hword : word < UInt32.size := by
    apply Nat.lt_of_mul_lt_mul_right (a := n)
    calc
      word * n = i * UInt32.size + low := hproduct
      _ < i * UInt32.size + UInt32.size := Nat.add_lt_add_left hlowSize _
      _ = (i + 1) * UInt32.size := (Nat.succ_mul i UInt32.size).symm
      _ ≤ n * UInt32.size := Nat.mul_le_mul_right _ hindex
      _ = UInt32.size * n := Nat.mul_comm _ _
  have hvalue : (UInt32.ofNat word).toNat = word := UInt32.toNat_ofNat_of_lt' hword
  refine ⟨UInt32.ofNat word, ?_, ?_⟩
  · have hhalf : word * n % UInt32.size = low := by
      rw [hproduct, Nat.mul_add_mod_self_right, Nat.mod_eq_of_lt hlowSize]
    have hzone := pred_le_zone n
    rw [isFair, hvalue, hhalf]
    exact decide_eq_true (by omega)
  · rw [index, hvalue, hproduct, Nat.mul_comm i, Nat.mul_add_div (by decide),
      Nat.div_eq_of_lt hlowSize, Nat.add_zero]

theorem drawIndex_of_fair {n : Nat} {s : WordSource} (hfair : isFair n s.peek = true)
    (unsettled : Nat) : drawIndex n unsettled s = (index n s.peek, s.advance) := by
  cases unsettled with
  | zero => rfl
  | succ unsettled => rw [drawIndex, if_pos hfair]

/-- Words are drawn one after the other, up to the first that is fair. -/
inductive Settles (n : Nat) : WordSource → Nat → WordSource → Prop where
  | fair {s : WordSource} (own : isFair n s.peek = true) :
      Settles n s (index n s.peek) s.advance
  | again {s stop : WordSource} {i : Nat} (own : isFair n s.peek = false)
      (rest : Settles n s.advance i stop) : Settles n s i stop

theorem settles_drawIndex (n : Nat) {unsettled : Nat} {s : WordSource}
    (h : s.remaining ≤ unsettled) :
    Settles n s (drawIndex n unsettled s).1 (drawIndex n unsettled s).2 := by
  induction unsettled generalizing s with
  | zero =>
      have hzero := WordSource.peek_eq_zero_of_remaining (Nat.le_zero.mp h)
      exact .fair (hzero ▸ isFair_zero n)
  | succ unsettled ih =>
      cases hfair : isFair n s.peek with
      | true =>
          rw [drawIndex_of_fair hfair]
          exact .fair hfair
      | false =>
          rw [drawIndex, hfair]
          apply Settles.again hfair
          apply ih
          rw [WordSource.remaining_advance]
          exact Nat.sub_le_iff_le_add.mpr h

variable {α : Type} {candidates : List α} {a : α}

theorem exists_settles_of_ne_nil (h : candidates ≠ []) (s : WordSource) :
    ∃ i a stop, Settles candidates.length s i stop ∧ candidates[i]? = some a ∧
      choose candidates s = (some a, stop) := by
  have hsome := choose_isSome h s
  cases candidates with
  | nil => exact (h rfl).elim
  | cons first rest =>
      obtain ⟨a, hchosen⟩ := Option.isSome_iff_exists.mp hsome
      have hsettles := settles_drawIndex (first :: rest).length (Nat.le_refl s.remaining)
      exact ⟨_, a, _, hsettles, hchosen, Prod.ext hchosen rfl⟩

theorem mem_of_choose {s : WordSource} (h : (choose candidates s).1 = some a) :
    a ∈ candidates := by
  cases candidates with
  | nil => cases h
  | cons first rest => exact List.mem_of_getElem? h

/-- Whatever a source has drawn before, there is a word that makes it choose
the given candidate. -/
theorem exists_word_choosing (hmem : a ∈ candidates) (hcount : candidates.length < UInt32.size) :
    ∃ word, ∀ s : WordSource, s.peek = word → choose candidates s = (some a, s.advance) := by
  obtain ⟨i, hindex, rfl⟩ := List.getElem_of_mem hmem
  obtain ⟨word, hfair, hi⟩ := exists_fair_word hindex hcount
  refine ⟨word, fun s hpeek ↦ ?_⟩
  rw [← hpeek] at hfair hi
  cases candidates with
  | nil => cases hmem
  | cons first rest =>
      rw [choose, drawIndex_of_fair hfair]
      simp only [hi, List.getElem?_eq_getElem hindex]

end Choice

namespace WordSource

/-- The given words are drawn next. -/
def Offers : WordSource → List UInt32 → Prop
  | _, [] => True
  | s, word :: words => s.peek = word ∧ s.advance.Offers words

/-- The source after some more words were drawn. -/
def skip (s : WordSource) (count : Nat) : WordSource := { s with drawn := s.drawn + count }

@[simp] theorem skip_zero (s : WordSource) : s.skip 0 = s := rfl

@[simp] theorem skip_advance (s : WordSource) (count : Nat) :
    s.advance.skip count = s.skip (count + 1) := by
  rw [skip, skip, advance, Nat.add_assoc, Nat.add_comm 1]

@[simp] theorem skip_skip (s : WordSource) (count more : Nat) :
    (s.skip count).skip more = s.skip (count + more) := by
  simp only [skip, Nat.add_assoc]

theorem offers_append {s : WordSource} {words more : List UInt32} :
    s.Offers (words ++ more) ↔ s.Offers words ∧ (s.skip words.length).Offers more := by
  induction words generalizing s with
  | nil => simp [Offers]
  | cons word words ih => simp only [List.cons_append, Offers, ih, skip_advance, and_assoc,
      List.length_cons]

theorem offers_drop {words rest : List UInt32} {count : Nat} (h : words.drop count = rest) :
    ((ofWords words).skip count).Offers rest := by
  induction rest generalizing count with
  | nil => trivial
  | cons word rest ih =>
      have hword : words[count]? = some word := by rw [← List.head?_drop, h, List.head?_cons]
      have hrest : words.drop (count + 1) = rest := by rw [← List.tail_drop, h, List.tail_cons]
      refine ⟨?_, ih hrest⟩
      rw [peek, if_pos]
      · simp [skip, ofWords, hword]
      · simpa [skip, ofWords] using (List.getElem?_eq_some_iff.mp hword).1

theorem offers_ofWords (words : List UInt32) : (ofWords words).Offers words :=
  offers_drop List.drop_zero

end WordSource

end PhraseStructure
