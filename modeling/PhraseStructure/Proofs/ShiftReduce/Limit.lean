import Mathlib.Data.Finset.Prod
import PhraseStructure.Proofs.ShiftReduce.Handle

/-!
# How many reductions there can be

Whether a stack can be reduced once more depends on its symbols alone. After
any number of reductions the symbols are a front part of those at the beginning
and one name of a rule. There are no more such rows than symbols times rules,
so a longer row of reductions comes back to where it was, and then there is no
end of reductions. Hence a limit of that size is met only by stacks that meet
every limit.
-/

namespace PhraseStructure.ShiftReduce

variable {s : Settings} {g : Grammar}

/-- One reduction of the symbols of a stack. -/
def contract (g : Grammar) (row : List Symbol) : Option (List Symbol) :=
  (findHandle g row).map fun (below, name) ↦ row.take below ++ [.nonterminal name]

/-- A number of reductions one after the other. -/
def contractTimes (g : Grammar) : Nat → List Symbol → Option (List Symbol)
  | 0, row => some row
  | count + 1, row => (contract g row).bind (contractTimes g count)

theorem contract_of_none {row : List Symbol} (h : findHandle g row = none) :
    contract g row = none := by
  rw [contract, h]
  rfl

theorem contract_of_some {stack : List Item} {below : Nat} {name : String}
    (h : findHandle g (symbols stack) = some (below, name)) :
    contract g (symbols stack) = some (symbols (reduce stack below name)) := by
  rw [contract, h, symbols_reduce]
  rfl

theorem contractTimes_add (count others : Nat) (row : List Symbol) :
    contractTimes g (count + others) row =
      (contractTimes g count row).bind (contractTimes g others) := by
  induction count generalizing row with
  | zero => rw [Nat.zero_add, contractTimes, Option.bind_some]
  | succ count ih =>
      rw [Nat.succ_add, contractTimes, contractTimes, Option.bind_assoc]
      exact congrArg _ (funext ih)

theorem contractTimes_eq_none_of_le {count others : Nat} (hle : count ≤ others) {row : List Symbol}
    (h : contractTimes g count row = none) : contractTimes g others row = none := by
  obtain ⟨more, rfl⟩ := Nat.exists_eq_add_of_le hle
  rw [contractTimes_add, h]
  rfl

theorem contract_eq_some_iff {row next : List Symbol} :
    contract g row = some next ↔
      ∃ below name, findHandle g row = some (below, name) ∧
        next = row.take below ++ [.nonterminal name] := by
  simp [contract, eq_comm]

theorem shape_of_contract {row next : List Symbol} (h : contract g row = some next) :
    ∃ below < row.length, ∃ name ∈ g.names, next = row.take below ++ [.nonterminal name] := by
  obtain ⟨below, name, hfound, rfl⟩ := contract_eq_some_iff.mp h
  obtain ⟨hlt, howner⟩ := findHandle_eq_some hfound
  obtain ⟨rule, hrule, rfl, -⟩ := exists_rule_of_owner howner
  exact ⟨below, hlt, rule.name, List.mem_map_of_mem hrule, rfl⟩

theorem shape_of_contractTimes {count : Nat} {row last : List Symbol}
    (h : contractTimes g (count + 1) row = some last) :
    ∃ below < row.length, ∃ name ∈ g.names, last = row.take below ++ [.nonterminal name] := by
  induction count generalizing row with
  | zero =>
      obtain ⟨next, hnext, hlast⟩ := Option.bind_eq_some_iff.mp h
      cases hlast
      exact shape_of_contract hnext
  | succ count ih =>
      obtain ⟨next, hnext, hlast⟩ := Option.bind_eq_some_iff.mp h
      obtain ⟨below, hbelow, first, -, rfl⟩ := shape_of_contract hnext
      obtain ⟨lower, hlower, name, hname, rfl⟩ := ih hlast
      rw [List.length_append, List.length_take, List.length_singleton] at hlower
      have hle : lower ≤ below := by omega
      have hfront : lower ≤ (row.take below).length := by
        rw [List.length_take]
        omega
      refine ⟨lower, by omega, name, hname, ?_⟩
      rw [List.take_append_of_le_length hfront, List.take_take, Nat.min_eq_left hle]

/-- The rows that any reductions can lead to. -/
def contractedRows (g : Grammar) (row : List Symbol) : Finset (List Symbol) :=
  (Finset.range row.length ×ˢ g.names.toFinset).image fun (below, name) ↦
    row.take below ++ [.nonterminal name]

theorem card_contractedRows_le (row : List Symbol) :
    (contractedRows g row).card ≤ row.length * g.rules.length := by
  calc
    (contractedRows g row).card ≤ (Finset.range row.length ×ˢ g.names.toFinset).card :=
      Finset.card_image_le
    _ = row.length * g.names.toFinset.card := by rw [Finset.card_product, Finset.card_range]
    _ ≤ row.length * g.names.length := Nat.mul_le_mul_left _ (List.toFinset_card_le _)
    _ = row.length * g.rules.length := by rw [Grammar.names, List.length_map]

theorem mem_contractedRows {count : Nat} {row last : List Symbol}
    (h : contractTimes g (count + 1) row = some last) : last ∈ contractedRows g row := by
  obtain ⟨below, hbelow, name, hname, rfl⟩ := shape_of_contractTimes h
  have hplace : (below, name) ∈ Finset.range row.length ×ˢ g.names.toFinset :=
    Finset.mem_product.mpr ⟨Finset.mem_range.mpr hbelow, List.mem_toFinset.mpr hname⟩
  exact Finset.mem_image_of_mem _ hplace

/-- A row of reductions that is longer than there are rows for comes back. -/
theorem exists_cycle {row : List Symbol}
    (h : contractTimes g (row.length * g.rules.length + 1) row ≠ none) :
    ∃ before period last, 0 < period ∧ contractTimes g before row = some last ∧
      contractTimes g period last = some last := by
  have hsome : ∀ count ≤ row.length * g.rules.length + 1, ∃ last,
      contractTimes g count row = some last := by
    intro count hle
    apply Option.ne_none_iff_exists'.mp
    intro hnone
    exact h (contractTimes_eq_none_of_le hle hnone)
  have hmaps : ∀ count ∈ Finset.range (row.length * g.rules.length + 1),
      (contractTimes g (count + 1) row).getD [] ∈ contractedRows g row := by
    intro count hcount
    obtain ⟨last, hlast⟩ := hsome (count + 1) (Finset.mem_range.mp hcount)
    rw [hlast]
    exact mem_contractedRows hlast
  have hmore : (contractedRows g row).card <
      (Finset.range (row.length * g.rules.length + 1)).card := by
    rw [Finset.card_range]
    exact Nat.lt_succ_of_le (card_contractedRows_le row)
  obtain ⟨first, hfirst, second, hsecond, hne, heq⟩ :=
    Finset.exists_ne_map_eq_of_card_lt_of_maps_to hmore hmaps
  wlog hlt : first < second generalizing first second
  · exact this second hsecond first hfirst hne.symm heq.symm (by omega)
  obtain ⟨last, hlast⟩ := hsome (first + 1) (Finset.mem_range.mp hfirst)
  obtain ⟨again, hagain⟩ := hsome (second + 1) (Finset.mem_range.mp hsecond)
  rw [hlast, hagain] at heq
  cases (heq : last = again)
  obtain ⟨period, rfl⟩ := Nat.exists_eq_add_of_lt hlt
  refine ⟨first + 1, period + 1, last, Nat.succ_pos _, hlast, ?_⟩
  have hsplit : first + period + 1 + 1 = first + 1 + (period + 1) := by omega
  rw [hsplit, contractTimes_add, hlast] at hagain
  exact hagain

theorem contractTimes_ne_none_of_cycle {before period : Nat} {row last : List Symbol}
    (hperiod : 0 < period) (hbefore : contractTimes g before row = some last)
    (hcycle : contractTimes g period last = some last) (count : Nat) :
    contractTimes g count row ≠ none := by
  have hround : ∀ rounds, contractTimes g (before + period * rounds) row = some last := by
    intro rounds
    induction rounds with
    | zero => exact hbefore
    | succ rounds ih =>
        rw [Nat.mul_succ, ← Nat.add_assoc, contractTimes_add, ih]
        exact hcycle
  intro hnone
  have hle : count ≤ before + period * count :=
    Nat.le_trans (Nat.le_mul_of_pos_left _ hperiod) (Nat.le_add_left _ _)
  have hsame := hround count
  rw [contractTimes_eq_none_of_le hle hnone] at hsame
  cases hsame

/-- Reductions that come to an end do so within a limit that depends only on
the numbers of symbols and rules. -/
theorem contractTimes_eq_none_of_long {row : List Symbol} {count left : Nat}
    (hend : contractTimes g count row = none) (hlong : row.length * g.rules.length ≤ left) :
    contractTimes g (left + 1) row = none := by
  apply contractTimes_eq_none_of_le (Nat.succ_le_succ hlong)
  by_contra hsome
  obtain ⟨before, period, last, hperiod, hbefore, hcycle⟩ := exists_cycle hsome
  exact contractTimes_ne_none_of_cycle hperiod hbefore hcycle count hend

/-- A limit is enough exactly if there is no further reduction after it. -/
theorem exists_reduceAll_iff {left : Nat} {stack : List Item} :
    (∃ last, (reduceAll s g left stack).outcome = .ok last) ↔
      contractTimes g (left + 1) (symbols stack) = none := by
  induction left, stack using reduceAll_induction (g := g) with
  | done left stack hnone =>
      rw [contractTimes, contract_of_none hnone, reduceAll_of_none hnone]
      exact ⟨fun _ ↦ rfl, fun _ ↦ ⟨stack, rfl⟩⟩
  | limit stack found hfound =>
      rw [contractTimes, contract_of_some hfound, outcome_reduceAll_zero hfound]
      constructor
      · rintro ⟨last, hlast⟩
        cases hlast
      · intro hnone
        cases hnone
  | step left stack below name hfound ih =>
      rw [contractTimes, contract_of_some hfound, outcome_reduceAll_succ hfound,
        Option.bind_some]
      exact ih

end PhraseStructure.ShiftReduce
