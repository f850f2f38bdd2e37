import Mathlib.Data.List.Forall2
import Mathlib.Data.List.Nodup
import PhraseStructure.Grammar.Basic

/-!
# What is found first

The first member of a row that is looked for, compared with that of a related
row: one with related members at the same places, and one with the same members
at other places.
-/

namespace PhraseStructure

theorem rel_mono {α β : Type} {related weaker : α → β → Prop} {found : Option α}
    {found' : Option β} (h : Option.Rel related found found')
    (hweaker : ∀ a b, related a b → weaker a b) : Option.Rel weaker found found' := by
  cases h with
  | none => exact .none
  | some hrelated => exact .some (hweaker _ _ hrelated)

theorem rel_iff_map_eq {α β γ : Type} {f : α → γ} {f' : β → γ} {found : Option α}
    {found' : Option β} :
    Option.Rel (fun a b ↦ f a = f' b) found found' ↔ found.map f = found'.map f' := by
  constructor
  · intro h
    cases h with
    | none => rfl
    | some hsame => exact congrArg some hsame
  · intro h
    cases found with
    | none =>
        rw [Option.map_eq_none_iff.mp h.symm]
        exact .none
    | some a =>
        obtain ⟨b, rfl, hsame⟩ := Option.map_eq_some_iff.mp h.symm
        exact .some hsame.symm

/-- What is found first in two rows is related, if the rows are related place by
place and related members are looked for alike. -/
theorem rel_find?_of_forall₂ {α β : Type} {related : α → β → Prop} {p : α → Bool} {q : β → Bool}
    {row : List α} {row' : List β} (h : List.Forall₂ related row row')
    (hsame : ∀ a b, related a b → p a = q b) :
    Option.Rel related (row.find? p) (row'.find? q) := by
  induction h with
  | nil => exact .none
  | @cons a b row row' hfirst _ ih =>
      rw [List.find?_cons, List.find?_cons, ← hsame a b hfirst]
      cases p a with
      | true => exact .some hfirst
      | false => exact ih

/-- Nothing that does not stand in front of a member comes before it. -/
theorem not_sublist_pair {α : Type} {before behind : List α} {a b : α}
    (hdistinct : (before ++ b :: behind).Nodup) (hbefore : a ∉ before) (hother : a ≠ b) :
    ¬ [a, b].Sublist (before ++ b :: behind) := by
  intro h
  have hbehind : b ∉ behind := (List.nodup_cons.mp (List.nodup_append.mp hdistinct).2.1).1
  obtain ⟨front, back, hsplit, hfront, hback⟩ := List.sublist_append_iff.mp h
  cases front with
  | nil =>
      rw [List.nil_append] at hsplit
      subst hsplit
      cases hback with
      | cons _ hback => exact hbehind (hback.subset (by simp))
      | cons_cons _ _ => exact hother rfl
  | cons first front =>
      obtain ⟨rfl, -⟩ := List.cons.inj hsplit
      exact hbefore (hfront.subset List.mem_cons_self)

/-- The same member is found first in a row without repetitions and in a row of
the same members, if those that are looked for stand in the same order. -/
theorem find?_eq_of_perm {α : Type} {row row' : List α} {p : α → Bool} (hperm : row.Perm row')
    (hdistinct : row.Nodup)
    (horder : ∀ a b, p a = true → p b = true → [a, b].Sublist row → [a, b].Sublist row') :
    row.find? p = row'.find? p := by
  cases hfound : row.find? p with
  | none =>
      symm
      rw [List.find?_eq_none] at hfound ⊢
      exact fun a hmem ↦ hfound a (hperm.mem_iff.mpr hmem)
  | some a =>
      have hmem : a ∈ row' := hperm.mem_iff.mp (List.mem_of_find?_eq_some hfound)
      obtain ⟨ha, before, behind, rfl, hbefore⟩ := List.find?_eq_some_iff_append.mp hfound
      cases hfound' : row'.find? p with
      | none => exact (List.find?_eq_none.mp hfound' a hmem ha).elim
      | some b =>
          obtain ⟨hb, before', behind', rfl, hbefore'⟩ := List.find?_eq_some_iff_append.mp hfound'
          by_contra hne
          have hother : a ≠ b := fun h ↦ hne (congrArg some h)
          have hnot : b ∉ before := fun h ↦ by simpa [hb] using hbefore b h
          have hnot' : a ∉ before' := fun h ↦ by simpa [ha] using hbefore' a h
          -- `b` comes after `a` in the first row, but not in the second, where it is found first
          have hmem' : b ∈ before ++ a :: behind := hperm.mem_iff.mpr (by simp)
          have hbehind : b ∈ behind := by
            simpa [hnot, hother.symm] using hmem'
          have hsublist : [a, b].Sublist (before ++ a :: behind) :=
            ((List.singleton_sublist.mpr hbehind).cons_cons a).trans
              (List.sublist_append_right _ _)
          have hdistinct' := hperm.nodup_iff.mp hdistinct
          exact not_sublist_pair hdistinct' hnot' hother (horder a b ha hb hsublist)

theorem Grammar.nodup_rules (g : Grammar) : g.rules.Nodup :=
  List.Nodup.of_map Rule.name g.distinct

end PhraseStructure
