/-!
# Steps that can be exchanged

If two different steps from one place always lead to a common next place, then
the steps to an end, where no step is left, can be taken in any order: whatever
the first step is, one step fewer remains.
-/

namespace PhraseStructure

variable {α : Type} {r : α → α → Prop}

/-- A chain with the given number of steps. -/
inductive Steps (r : α → α → Prop) : Nat → α → α → Prop where
  | done (a : α) : Steps r 0 a a
  | step {count : Nat} {a b c : α} (first : r a b) (rest : Steps r count b c) :
      Steps r (count + 1) a c

namespace Steps

theorem trans {count others : Nat} {a b c : α} (h : Steps r count a b) (k : Steps r others b c) :
    Steps r (count + others) a c := by
  induction h with
  | done =>
      rw [Nat.zero_add]
      exact k
  | step first _ ih =>
      rw [Nat.succ_add]
      exact .step first (ih k)

theorem map {β : Type} {q : β → β → Prop} {f : α → β} (hf : ∀ {a b}, r a b → q (f a) (f b))
    {count : Nat} {a b : α} (h : Steps r count a b) : Steps q count (f a) (f b) := by
  induction h with
  | done => exact .done _
  | step first _ ih => exact .step (hf first) ih

/-- The first step to an end is free. -/
theorem exchange (hpeak : ∀ {a b c}, r a b → r a c → b = c ∨ ∃ d, r b d ∧ r c d)
    {count : Nat} {a b last : α} (h : Steps r count a last) (hlast : ∀ next, ¬ r last next)
    (hstep : r a b) : ∃ left, count = left + 1 ∧ Steps r left b last := by
  induction h generalizing b with
  | done => exact (hlast _ hstep).elim
  | @step count a next last first rest ih =>
      rcases hpeak first hstep with rfl | ⟨common, hnext, hother⟩
      · exact ⟨count, rfl, rest⟩
      · obtain ⟨left, rfl, hsteps⟩ := ih hlast hnext
        exact ⟨left + 1, rfl, .step hother hsteps⟩

end Steps

end PhraseStructure
