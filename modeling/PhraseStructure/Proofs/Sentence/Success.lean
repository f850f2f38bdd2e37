import PhraseStructure.Proofs.Reach
import PhraseStructure.Proofs.Sentence.Failure
import PhraseStructure.Proofs.Sentence.Language

/-!
# Grammars from which a sentence is always generated

An expansion fails where no level is left or a name has no rule. If all names
in use have a rule, and none comes back to itself through its alternatives,
then each step down reaches fewer names. So a name can be expanded with as many
levels as it reaches names, whatever is drawn.

As many rules as there are levels are therefore fine. A chain in which each
name needs the next shows that one rule more is not.
-/

namespace PhraseStructure

namespace Sentence

variable {g : Grammar}

theorem expand_ne_error (hclosed : g.Closed)
    (hacyclic : ∀ name, ¬ Relation.TransGen g.Uses name name) {levels : Nat} {place : Location}
    {name : String} (hdefined : g.defines name = true)
    (hlevels : g.reachCount g.Uses name ≤ levels) {s stop : WordSource} {error : SentenceError} :
    (expand g levels place name).run s ≠ (.error error, stop) := by
  intro h
  refine expand_fault_induction (motive := fun levels _ name _ ↦ g.defines name = true →
    g.reachCount g.Uses name ≤ levels → False) ?limit ?undefined ?below h hdefined hlevels
  case limit =>
    intro _ name hdefined hlevels
    exact Nat.not_lt.mpr hlevels (Grammar.reachCount_pos hdefined)
  case undefined =>
    intro _ _ name hnone hdefined _
    rw [Grammar.defines, hnone] at hdefined
    cases hdefined
  case below =>
    intro levels _ name rule other _ hrule huses ih hdefined hlevels
    obtain ⟨hdeclared, hname⟩ := Grammar.rule?_eq_some_iff.mp hrule
    have hstep : g.Uses name other := ⟨rule, hdeclared, hname, huses⟩
    have hfewer := Grammar.reachCount_lt hdefined hstep (hacyclic name)
    exact ih (hclosed.2 rule hdeclared _ huses rfl) (by omega)

/-- Where every name in use has a rule and none comes back to itself, a name is
expanded from every source. -/
theorem exists_expand (hclosed : g.Closed)
    (hacyclic : ∀ name, ¬ Relation.TransGen g.Uses name name) {levels : Nat} {name : String}
    (hdefined : g.defines name = true) (hlevels : g.reachCount g.Uses name ≤ levels)
    (place : Location) (s : WordSource) :
    ∃ tree stop, (expand g levels place name).run s = (.ok tree, stop) := by
  cases hrun : (expand g levels place name).run s with
  | mk outcome stop =>
      cases outcome with
      | error error => exact (expand_ne_error hclosed hacyclic hdefined hlevels hrun).elim
      | ok tree => exact ⟨tree, stop, rfl⟩

/-- A grammar of at most 65 rules in which every name in use has a rule and no
name comes back to itself through its alternatives gives a sentence from every
source of words. Each choice on the way ends at a fair word. -/
theorem exists_generate_of_acyclic (hclosed : g.Closed)
    (hacyclic : ∀ name, ¬ Relation.TransGen g.Uses name name) (hsize : g.rules.length ≤ 65) :
    (∀ source, ∃ sentence stop, (generate g).run source = (.ok sentence, stop)) ∧
      ∀ rule ∈ g.rules, rule.alternatives ≠ [] → ∀ source, ∃ i alternative stop,
        Choice.Settles rule.alternatives.length source i stop ∧
          rule.alternatives[i]? = some alternative ∧
            Choice.choose rule.alternatives source = (some alternative, stop) := by
  refine ⟨fun source ↦ ?_, fun rule _ ↦ Choice.exists_settles_of_ne_nil⟩
  have hlevels := Nat.le_trans (g.reachCount_le g.Uses g.start) hsize
  obtain ⟨tree, stop, htree⟩ :=
    exists_expand hclosed hacyclic hclosed.1 hlevels Location.origin source
  exact ⟨tree.words, stop, generateFrom_eq_ok_iff.mpr ⟨tree, htree, rfl⟩⟩

end Sentence

namespace Grammar

/-- Names that are one letter longer for each name below them. -/
def rung (below : Nat) : String := String.ofList (List.replicate (below + 1) 'S')

theorem length_rung (below : Nat) : (rung below).length = below + 1 := by
  simp [rung]

theorem rung_injective : Function.Injective rung := by
  intro i j hsame
  have hlength := congrArg String.length hsame
  rw [length_rung, length_rung] at hlength
  exact Nat.succ.inj hlength

/-- Each name needs the next shorter one, and the shortest is a word. -/
def ladderRule : Nat → Rule
  | 0 => ⟨rung 0, [[.terminal "x"]], 0⟩
  | below + 1 => ⟨rung (below + 1), [[.nonterminal (rung below)]], below + 1⟩

theorem name_ladderRule (below : Nat) : (ladderRule below).name = rung below := by
  cases below <;> rfl

/-- A chain of names from the longest one down. -/
def ladder (height : Nat) : Grammar where
  start := rung (height - 1)
  rules := (List.range height).map ladderRule
  distinct := by
    rw [List.map_map]
    have hnames : Rule.name ∘ ladderRule = rung := funext name_ladderRule
    rw [hnames]
    exact List.nodup_range.map rung_injective

variable {height below : Nat}

theorem rule?_rung (h : below < height) :
    (ladder height).rule? (rung below) = some (ladderRule below) :=
  rule?_eq_some_iff.mpr
    ⟨List.mem_map_of_mem (List.mem_range.mpr h), name_ladderRule below⟩

theorem defines_rung (h : below < height) : (ladder height).defines (rung below) = true := by
  rw [defines, rule?_rung h]
  rfl

theorem uses_ladder {name other : String} (h : (ladder height).Uses name other) :
    ∃ below, below + 1 < height ∧ name = rung (below + 1) ∧ other = rung below := by
  obtain ⟨rule, hrule, rfl, huses⟩ := h
  obtain ⟨i, hi, rfl⟩ := List.mem_map.mp hrule
  cases i with
  | zero => simp [ladderRule] at huses
  | succ below =>
      have hother : other = rung below := by simpa [ladderRule] using huses
      exact ⟨below, List.mem_range.mp hi, rfl, hother⟩

theorem closed_ladder (h : 0 < height) : (ladder height).Closed := by
  refine ⟨?_, ?_⟩
  · exact defines_rung (Nat.sub_lt h Nat.one_pos)
  · intro rule hrule symbol hsymbol hkind
    rw [Symbol.eq_nonterminal hkind] at hsymbol
    obtain ⟨below, hbelow, -, hother⟩ := uses_ladder ⟨rule, hrule, rfl, hsymbol⟩
    rw [hother]
    exact defines_rung (Nat.lt_of_succ_lt hbelow)

theorem acyclic_ladder (name : String) : ¬ Relation.TransGen (ladder height).Uses name name := by
  apply not_transGen_of_rank String.length
  intro name other huses
  obtain ⟨below, -, rfl, rfl⟩ := uses_ladder huses
  rw [length_rung, length_rung]
  exact Nat.lt_succ_self _

end Grammar

namespace Sentence

open Grammar (ladder ladderRule rung)

theorem exists_generate_of_acyclic_ladder :
    (ladder 65).Closed ∧ (∀ name, ¬ Relation.TransGen (ladder 65).Uses name name) ∧
      (ladder 65).rules.length ≤ 65 ∧
      ∃ sentence stop, (generate (ladder 65)).run (.ofWords [0xffffffff]) =
        (.ok sentence, stop) := by
  have hclosed : (ladder 65).Closed := Grammar.closed_ladder (by decide)
  have hsize : (ladder 65).rules.length ≤ 65 := by simp [ladder]
  exact ⟨hclosed, Grammar.acyclic_ladder, hsize,
    (exists_generate_of_acyclic hclosed Grammar.acyclic_ladder hsize).1 _⟩

theorem expand_ladder_of_le {levels below height : Nat} (hlevels : levels ≤ below)
    (hbelow : below < height) (place : Location) (s : WordSource) :
    ∃ location stop, (expand (ladder height) levels place (rung below)).run s =
      (.error ⟨location, .tooDeep maxDepth⟩, stop) := by
  induction levels generalizing below place s with
  | zero => exact ⟨place, s, rfl⟩
  | succ levels ih =>
      obtain ⟨next, rfl⟩ := Nat.exists_eq_add_of_le' (Nat.one_le_of_lt hlevels)
      have hfilled : (ladderRule (next + 1)).alternatives ≠ [] := List.cons_ne_nil _ _
      obtain ⟨i, alternative, middle, -, hi, hchoose⟩ := Choice.exists_settles_of_ne_nil hfilled s
      have hchosen : alternative = [.nonterminal (rung next)] :=
        List.mem_singleton.mp (List.mem_of_getElem? hi)
      obtain ⟨location, stop, hnext⟩ := ih (Nat.le_of_succ_le_succ hlevels)
        (Nat.lt_of_succ_lt hbelow) ⟨none, next + 1⟩ middle
      refine ⟨location, stop, expand_eq_error_iff.mpr (.inr ⟨levels, rfl, .inr ?_⟩)⟩
      refine ⟨ladderRule (next + 1), _, middle, Grammar.rule?_rung hbelow, hchoose, ?_⟩
      rw [hchosen]
      exact expandSymbols_eq_error_iff.mpr ⟨[], _, [], [], middle, rfl, rfl, hnext⟩

/-- In a chain of more names nothing is ever generated. -/
theorem generate_ladder_of_lt {height : Nat} (h : 65 < height) (s : WordSource) :
    ∃ location stop, (generate (ladder height)).run s =
      (.error ⟨location, .tooDeep maxDepth⟩, stop) := by
  obtain ⟨location, stop, hderive⟩ := expand_ladder_of_le (Nat.le_sub_one_of_lt h)
    (Nat.sub_lt (Nat.zero_lt_of_lt h) Nat.one_pos) Location.origin s
  exact ⟨location, stop, generateFrom_eq_error_iff.mpr hderive⟩

end Sentence

end PhraseStructure
