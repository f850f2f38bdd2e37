import Mathlib.Logic.Relation
import PhraseStructure.Proofs.CornerTable
import PhraseStructure.Proofs.ShiftReduce.Invariant
import PhraseStructure.Proofs.ShiftReduce.Limit

/-!
# The limit of reductions

A reduction that comes to an end under some limit takes the same steps under
every higher one, and so does a run of the parser. A run that meets a limit of
as many reductions as there are rules for each token has come to a stack that
can be reduced for ever. It meets every other limit at that stack or before it.

Reductions for ever come back to the same symbols. A reduction never makes the
stack longer, so on the way round each one replaces the topmost name alone. The
names that are put in its place one after the other form a cycle.
-/

namespace PhraseStructure

/-- Some alternative of the name is the other name alone. -/
def Grammar.Renames (g : Grammar) (name other : String) : Prop :=
  ∃ rule ∈ g.rules, rule.name = name ∧ [.nonterminal other] ∈ rule.alternatives

theorem Grammar.Renames.beginsWith {g : Grammar} {name other : String}
    (h : g.Renames name other) : g.BeginsWith name other := by
  obtain ⟨rule, hrule, hname, hchosen⟩ := h
  exact ⟨rule, hrule, hname, [], hchosen⟩

namespace ShiftReduce

variable {s s' : Settings} {g : Grammar} {tokens : List String}

/-! ## Higher limits -/

theorem reduceAll_eq_of_le {left more : Nat} {stack last : List Item} (hle : left ≤ more)
    (h : (reduceAll s g left stack).outcome = .ok last) :
    reduceAll s' g more stack = reduceAll s g left stack := by
  induction left, stack using reduceAll_induction (g := g) generalizing more with
  | done left stack hnone => rw [reduceAll_of_none hnone, reduceAll_of_none hnone]
  | limit stack found hfound =>
      rw [outcome_reduceAll_zero hfound] at h
      cases h
  | step left stack below name hfound ih =>
      obtain ⟨extra, rfl⟩ := Nat.exists_eq_add_of_le' hle
      rw [outcome_reduceAll_succ hfound] at h
      rw [← Nat.add_assoc, reduceAll_succ hfound, reduceAll_succ hfound,
        ih (Nat.le_add_left left extra) h]

theorem advance_eq_of_le {stack last : List Item} {token : String}
    (hle : s.maxReductions ≤ s'.maxReductions)
    (h : (advance s g stack token).outcome = .ok last) :
    advance s' g stack token = advance s g stack token := by
  rw [outcome_advance] at h
  rw [advance, advance, reduceAll_eq_of_le hle h]

theorem run_eq_of_le {stack : List Item} (hle : s.maxReductions ≤ s'.maxReductions)
    (h : (run s g tokens).outcome = .ok stack) : run s' g tokens = run s g tokens := by
  induction tokens using List.reverseRecOn generalizing stack with
  | nil => rfl
  | append_singleton tokens token ih =>
      rw [run_concat] at h
      obtain ⟨before, hbefore, hlast⟩ := Traced.outcome_bind_eq_ok_iff.mp h
      rw [run_concat, run_concat, ih hbefore]
      exact Traced.bind_congr_of_ok hbefore (advance_eq_of_le hle hlast)

theorem parse_eq_tooManyReductions_iff {limit : Nat} :
    (parse s g tokens).outcome = .error (.tooManyReductions limit) ↔
      limit = s.maxReductions ∧ ∀ stack, (run s g tokens).outcome ≠ .ok stack := by
  constructor
  · intro h
    rcases Traced.outcome_bind_eq_error_iff.mp h with hrun | ⟨stack, hrun, hfinish⟩
    · cases run_eq_error hrun
      refine ⟨rfl, ?_⟩
      intro stack hstack
      rw [hrun] at hstack
      cases hstack
    · unfold finish at hfinish
      split at hfinish
      next => cases hfinish
      next => cases hfinish
  · intro ⟨hlimit, hnone⟩
    cases hrun : (run s g tokens).outcome with
    | ok stack => exact (hnone stack hrun).elim
    | error fault =>
        rw [hlimit, ← run_eq_error hrun]
        exact Traced.outcome_bind_eq_error_iff.mpr (.inl hrun)

/-! ## Reductions for ever -/

/-- The symbols can be reduced any number of times. -/
def Endless (g : Grammar) (row : List Symbol) : Prop :=
  ∀ count, contractTimes g count row ≠ none

theorem exists_advance_iff {stack : List Item} {token : String} :
    (∃ last, (advance s g stack token).outcome = .ok last) ↔
      contractTimes g (s.maxReductions + 1)
        (symbols (stack ++ [.raw (Symbol.ofChunk token)])) = none := by
  rw [← exists_reduceAll_iff (s := s), outcome_advance]

/-- A run that fails does so at one of its shifts. -/
theorem exists_failing_shift (h : ∀ stack, (run s g tokens).outcome ≠ .ok stack) :
    ∃ shifted token rest stack, tokens = shifted ++ token :: rest ∧
      (run s g shifted).outcome = .ok stack ∧
        ∀ last, (advance s g stack token).outcome ≠ .ok last := by
  induction tokens using List.reverseRecOn with
  | nil => exact (h [] rfl).elim
  | append_singleton tokens token ih =>
      cases hrun : (run s g tokens).outcome with
      | ok stack =>
          refine ⟨tokens, token, [], stack, rfl, hrun, ?_⟩
          intro last hlast
          apply h last
          rw [run_concat, Traced.outcome_bind_of_ok hrun]
          exact hlast
      | error fault =>
          have hfails : ∀ stack, (run s g tokens).outcome ≠ .ok stack := by
            intro stack hstack
            rw [hrun] at hstack
            cases hstack
          obtain ⟨shifted, other, rest, stack, hsplit, hstack, hlast⟩ := ih hfails
          exact ⟨shifted, other, rest ++ [token], stack, by simp [hsplit], hstack, hlast⟩

/-- A run that meets a high limit has come to symbols that are reduced for ever. -/
theorem exists_endless_shift (hmany : tokens.length * g.rules.length ≤ s.maxReductions)
    (h : ∀ stack, (run s g tokens).outcome ≠ .ok stack) :
    ∃ shifted token rest stack, tokens = shifted ++ token :: rest ∧
      (run s g shifted).outcome = .ok stack ∧
        Endless g (symbols (stack ++ [.raw (Symbol.ofChunk token)])) := by
  obtain ⟨shifted, token, rest, stack, hsplit, hstack, hfails⟩ := exists_failing_shift h
  refine ⟨shifted, token, rest, stack, hsplit, hstack, ?_⟩
  intro count hend
  have hitems := length_le_of_run hstack
  have hlong : (symbols (stack ++ [.raw (Symbol.ofChunk token)])).length * g.rules.length ≤
      s.maxReductions := by
    apply Nat.le_trans _ hmany
    apply Nat.mul_le_mul_right
    simp only [hsplit, length_symbols, List.length_append, List.length_cons, List.length_nil]
    omega
  obtain ⟨last, hlast⟩ := exists_advance_iff.mpr (contractTimes_eq_none_of_long hend hlong)
  exact hfails last hlast

theorem run_ne_ok_of_endless {shifted rest : List String} {token : String} {stack : List Item}
    (hstack : (run s g shifted).outcome = .ok stack)
    (hendless : Endless g (symbols (stack ++ [.raw (Symbol.ofChunk token)])))
    (last : List Item) : (run s' g (shifted ++ token :: rest)).outcome ≠ .ok last := by
  intro hrun
  rw [run_append] at hrun
  obtain ⟨before, hbefore, hafter⟩ := Traced.outcome_bind_eq_ok_iff.mp hrun
  obtain ⟨next, hnext, -⟩ := Traced.outcome_bind_eq_ok_iff.mp hafter
  -- of two runs over the same tokens the one under the higher limit repeats the other
  have hsame : before = stack := by
    rcases Nat.le_total s.maxReductions s'.maxReductions with hle | hle
    · rw [run_eq_of_le hle hstack, hstack] at hbefore
      exact (Except.ok.inj hbefore).symm
    · rw [run_eq_of_le hle hbefore, hbefore] at hstack
      exact Except.ok.inj hstack
  rw [hsame] at hnext
  exact hendless _ (exists_advance_iff.mp ⟨next, hnext⟩)

/-! ## Cycles of names -/

theorem renames_of_contract {front next : List Symbol} {name : String}
    (h : contract g (front ++ [.nonterminal name]) = some next)
    (hlength : front.length < next.length) :
    ∃ other, g.Renames other name ∧ next = front ++ [.nonterminal other] := by
  obtain ⟨below, other, hfound, hnext⟩ := contract_eq_some_iff.mp h
  obtain ⟨hlt, howner⟩ := findHandle_eq_some hfound
  rw [hnext, List.length_append, List.length_take, List.length_singleton] at hlength
  rw [List.length_append, List.length_singleton] at hlt
  have hbelow : below = front.length := by omega
  rw [hbelow, List.drop_left] at howner
  rw [hbelow, List.take_left] at hnext
  obtain ⟨rule, hrule, hname, hchosen⟩ := exists_rule_of_owner howner
  exact ⟨other, ⟨rule, hrule, hname, hchosen⟩, hnext⟩

/-- Reductions that leave the stack as long as it was replace the topmost name
over and over. -/
theorem transGen_renames_of_contractTimes {count : Nat} {front last : List Symbol}
    {name : String} (h : contractTimes g (count + 1) (front ++ [.nonterminal name]) = some last)
    (hlength : front.length < last.length) :
    ∃ other, Relation.TransGen g.Renames other name ∧ last = front ++ [.nonterminal other] := by
  induction count generalizing name with
  | zero =>
      obtain ⟨next, hnext, hlast⟩ := Option.bind_eq_some_iff.mp h
      cases hlast
      obtain ⟨other, hrenames, hsame⟩ := renames_of_contract hnext hlength
      exact ⟨other, .single hrenames, hsame⟩
  | succ count ih =>
      obtain ⟨next, hnext, hlast⟩ := Option.bind_eq_some_iff.mp h
      obtain ⟨below, hbelow, _, -, hshape⟩ := shape_of_contractTimes hlast
      have hkept : front.length < next.length := by
        rw [hshape, List.length_append, List.length_take, List.length_singleton] at hlength
        omega
      obtain ⟨middle, hrenames, hsame⟩ := renames_of_contract hnext hkept
      rw [hsame] at hlast
      obtain ⟨other, hchain, hother⟩ := ih hlast
      exact ⟨other, hchain.tail hrenames, hother⟩

theorem Endless.exists_transGen_renames {row : List Symbol} (h : Endless g row) :
    ∃ name ∈ g.names, Relation.TransGen g.Renames name name := by
  obtain ⟨before, period, last, hperiod, -, hcycle⟩ := exists_cycle (h _)
  obtain ⟨count, rfl⟩ := Nat.exists_eq_succ_of_ne_zero (Nat.ne_of_gt hperiod)
  obtain ⟨below, -, name, hname, hlast⟩ := shape_of_contractTimes hcycle
  obtain ⟨front, rfl⟩ : ∃ front, last = front ++ [.nonterminal name] := ⟨_, hlast⟩
  obtain ⟨other, hchain, hsame⟩ := transGen_renames_of_contractTimes hcycle (by simp)
  have hother : other = name := by simpa using hsame.symm
  rw [hother] at hchain
  exact ⟨name, hname, hchain⟩

/-! ## Parses -/

/-- The limit of reductions is met only by a parse that has no end. A parse that
does not meet it comes out the same under every higher limit. A parse that
meets one as high as there are rules for each token meets every other, and then
some name comes back to itself through rules that put one name for another. -/
theorem maxReductions_exact (g : Grammar) (tokens : List String) :
    (∀ least, (∀ limit, (parse { maxReductions := least } g tokens).outcome ≠
        .error (.tooManyReductions limit)) →
      ∀ more, least ≤ more →
        parse { maxReductions := more } g tokens = parse { maxReductions := least } g tokens) ∧
    (∀ high limit, tokens.length * g.rules.length ≤ high →
      (parse { maxReductions := high } g tokens).outcome = .error (.tooManyReductions limit) →
      (∀ other, (parse { maxReductions := other } g tokens).outcome =
        .error (.tooManyReductions other)) ∧
      ∃ name ∈ g.names, Relation.TransGen g.Renames name name) ∧
    ((∀ name ∈ g.names, ¬ Relation.TransGen g.Renames name name) →
      ∀ high, tokens.length * g.rules.length ≤ high →
        ∀ limit, (parse { maxReductions := high } g tokens).outcome ≠
          .error (.tooManyReductions limit)) := by
  have hforever : ∀ high limit, tokens.length * g.rules.length ≤ high →
      (parse { maxReductions := high } g tokens).outcome = .error (.tooManyReductions limit) →
      (∀ other, (parse { maxReductions := other } g tokens).outcome =
        .error (.tooManyReductions other)) ∧
      ∃ name ∈ g.names, Relation.TransGen g.Renames name name := by
    intro high limit hmany hparse
    obtain ⟨-, hfails⟩ := parse_eq_tooManyReductions_iff.mp hparse
    obtain ⟨shifted, token, rest, stack, hsplit, hstack, hendless⟩ :=
      exists_endless_shift hmany hfails
    refine ⟨?_, hendless.exists_transGen_renames⟩
    intro other
    refine parse_eq_tooManyReductions_iff.mpr ⟨rfl, ?_⟩
    rw [hsplit]
    exact run_ne_ok_of_endless hstack hendless
  refine ⟨?_, hforever, ?_⟩
  · intro least hends more hle
    cases hrun : (run { maxReductions := least } g tokens).outcome with
    | ok stack => rw [parse, parse, run_eq_of_le hle hrun]
    | error fault =>
        have hfault := run_eq_error hrun
        rw [hfault] at hrun
        exact (hends _ (Traced.outcome_bind_eq_error_iff.mpr (.inl hrun))).elim
  · intro hacyclic high hmany limit hparse
    obtain ⟨-, name, hname, hcycle⟩ := hforever high limit hmany hparse
    exact hacyclic name hname hcycle

/-- Two names that stand for each other. -/
def unitCycle : Grammar :=
  .ofRules [⟨"B", [[.nonterminal "A"]], 0⟩, ⟨"A", [[.nonterminal "B"], [.terminal "x"]], 1⟩]

theorem maxReductions_exact_unitCycle :
    ((∀ limit, (parse { maxReductions := 2 } overlapping ["a", "b"]).outcome ≠
        .error (.tooManyReductions limit)) ∧
      (parse { maxReductions := 4096 } overlapping ["a", "b"]).outcome =
        .ok (.node "S" [.node "X" [.leaf "a", .leaf "b"]])) ∧
    (["x"].length * unitCycle.rules.length ≤ 2 ∧
      (parse { maxReductions := 2 } unitCycle ["x"]).outcome = .error (.tooManyReductions 2) ∧
      (parse { maxReductions := 4096 } unitCycle ["x"]).outcome =
        .error (.tooManyReductions 4096) ∧
      ∃ name ∈ unitCycle.names, Relation.TransGen unitCycle.Renames name name) ∧
    (∀ name ∈ overlapping.names, ¬ Relation.TransGen overlapping.Renames name name) ∧
      ["b", "b"].length * overlapping.rules.length ≤ 6 ∧
      ∀ limit, (parse { maxReductions := 6 } overlapping ["b", "b"]).outcome ≠
        .error (.tooManyReductions limit) := by
  have hends : ∀ limit, (parse { maxReductions := 2 } overlapping ["a", "b"]).outcome ≠
      .error (.tooManyReductions limit) := fun limit ↦ nofun
  have hmany : ["x"].length * unitCycle.rules.length ≤ 2 := by decide
  have hlimit : (parse { maxReductions := 2 } unitCycle ["x"]).outcome =
      .error (.tooManyReductions 2) := rfl
  have hacyclic : ∀ name ∈ overlapping.names,
      ¬ Relation.TransGen overlapping.Renames name name := by
    intro name _ hcycle
    apply @Grammar.not_transGen_beginsWith overlapping (fun name ↦ if name = "S" then 1 else 0)
      (by decide) name
    have hbegins : overlapping.Renames ≤ overlapping.BeginsWith :=
      fun _ _ hrenames ↦ hrenames.beginsWith
    exact Relation.TransGen.mono hbegins name name hcycle
  have henough : ["b", "b"].length * overlapping.rules.length ≤ 6 := by decide
  refine ⟨⟨hends, ?_⟩, ⟨hmany, hlimit, ?_, ?_⟩, hacyclic, henough, ?_⟩
  · rw [(maxReductions_exact overlapping ["a", "b"]).1 2 hends 4096 (by decide)]
    rfl
  · exact ((maxReductions_exact unitCycle ["x"]).2.1 2 2 hmany hlimit).1 4096
  · exact ((maxReductions_exact unitCycle ["x"]).2.1 2 2 hmany hlimit).2
  · exact (maxReductions_exact overlapping ["b", "b"]).2.2 hacyclic 6 henough

end ShiftReduce

end PhraseStructure
