import Mathlib.Data.Finset.Card
import Mathlib.Logic.Relation
import PhraseStructure.Grammar.Basic

/-!
# Names that are reached

A relation between names leads from one name to others, step by step. Of the
declared names only as many are reached as there are rules. If a name does not
come back to itself, then each step from it reaches fewer names than it does,
so the number of names that are reached bounds every chain of steps.

Conversely no name comes back to itself if each step lowers some number.
-/

namespace PhraseStructure.Grammar

variable {step : String → String → Prop}

open Classical in
/-- The number of declared names that a name reaches, itself included. -/
noncomputable def reachCount (g : Grammar) (step : String → String → Prop) (name : String) : Nat :=
  {other ∈ g.names.toFinset | Relation.ReflTransGen step name other}.card

theorem reachCount_le (g : Grammar) (step : String → String → Prop) (name : String) :
    g.reachCount step name ≤ g.rules.length := by
  classical
  calc
    g.reachCount step name ≤ g.names.toFinset.card := Finset.card_filter_le _ _
    _ ≤ g.names.length := List.toFinset_card_le _
    _ = g.rules.length := List.length_map _

variable {g : Grammar} {name other : String}

theorem reachCount_pos (hdefined : g.defines name = true) : 0 < g.reachCount step name := by
  classical
  have hname : name ∈ g.names.toFinset := List.mem_toFinset.mpr (mem_names_iff.mpr hdefined)
  apply Finset.card_pos.mpr
  exact ⟨name, Finset.mem_filter.mpr ⟨hname, .refl⟩⟩

theorem reachCount_lt (hdefined : g.defines name = true) (hstep : step name other)
    (hacyclic : ¬ Relation.TransGen step name name) :
    g.reachCount step other < g.reachCount step name := by
  classical
  have hname : name ∈ g.names.toFinset := List.mem_toFinset.mpr (mem_names_iff.mpr hdefined)
  apply Finset.card_lt_card
  refine (Finset.ssubset_iff_of_subset ?_).mpr ⟨name, Finset.mem_filter.mpr ⟨hname, .refl⟩, ?_⟩
  · intro reached hreached
    rw [Finset.mem_filter] at hreached ⊢
    exact ⟨hreached.1, hreached.2.head hstep⟩
  · -- the name itself is lost, or it would come back to itself
    intro hback
    exact hacyclic (Relation.TransGen.head' hstep (Finset.mem_filter.mp hback).2)

theorem not_transGen_of_rank (rank : String → Nat)
    (hrank : ∀ name other, step name other → rank other < rank name) (name : String) :
    ¬ Relation.TransGen step name name := by
  intro hcycle
  have hbelow : Relation.TransGen (fun m n ↦ n < m) (rank name) (rank name) :=
    hcycle.lift rank hrank
  rw [Relation.transGen_eq_self] at hbelow
  exact Nat.lt_irrefl _ hbelow

end PhraseStructure.Grammar
