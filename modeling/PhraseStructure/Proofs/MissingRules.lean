import PhraseStructure.Grammar.Lint
import PhraseStructure.Proofs.Sentence.Failure
import PhraseStructure.Proofs.TopDown.Failure

/-!
# Missing rules are known beforehand

The report on a grammar lists the names that are needed and have no rule. A
name is needed where a rule uses it, and at the start.

Parsing and expanding begin with the start symbol and go on to names that the
rule at hand uses, so they come to needed names only. A name without a rule
that they come to is therefore in the report. Expanding carries the location
along at which the report has the name.
-/

namespace PhraseStructure

namespace Grammar

/-- The name is needed at the location, in a grammar that is itself at `base`. -/
inductive Needs (g : Grammar) (base : Location) : String → Location → Prop where
  | start : Needs g base g.start base
  | used {rule : Rule} {name : String} (declared : rule ∈ g.rules)
      (uses : .nonterminal name ∈ rule.symbols) :
      Needs g base name { base with line := rule.line }

variable {g : Grammar} {base : Location}

theorem mem_undefinedIn_iff {rule : Rule} {name : String} :
    name ∈ g.undefinedIn rule ↔ .nonterminal name ∈ rule.symbols ∧ g.defines name = false := by
  simp only [undefinedIn, List.mem_map, List.mem_filter, Bool.and_eq_true, Bool.not_eq_true']
  constructor
  · rintro ⟨symbol, ⟨hmem, hkind, hundefined⟩, rfl⟩
    rw [Symbol.eq_nonterminal hkind] at hmem
    exact ⟨hmem, hundefined⟩
  · rintro ⟨hmem, hundefined⟩
    exact ⟨.nonterminal name, ⟨hmem, rfl, hundefined⟩, rfl⟩

theorem mem_lint_iff (hrules : g.rules ≠ []) {error : GrammarError} :
    error ∈ g.lint base ↔
      ∃ name, error.cause = .undefined name ∧ g.defines name = false ∧
        g.Needs base name error.location := by
  have hused : (error ∈ g.rules.flatMap fun rule ↦
      (g.undefinedIn rule).map fun name ↦
        (⟨{ base with line := rule.line }, .undefined name⟩ : GrammarError)) ↔
      ∃ rule ∈ g.rules, ∃ name, .nonterminal name ∈ rule.symbols ∧ g.defines name = false ∧
        ⟨{ base with line := rule.line }, .undefined name⟩ = error := by
    simp only [List.mem_flatMap, List.mem_map, mem_undefinedIn_iff, and_assoc]
  have hsome : g.rules.isEmpty = false := by simpa using hrules
  rw [lint, hsome, Bool.false_or]
  constructor
  · intro h
    cases hstart : g.defines g.start with
    | true =>
        rw [hstart, if_pos rfl, hused] at h
        obtain ⟨rule, hrule, name, huses, hundefined, rfl⟩ := h
        exact ⟨name, rfl, hundefined, .used hrule huses⟩
    | false =>
        rw [hstart, if_neg nofun, List.mem_append, hused, List.mem_singleton] at h
        rcases h with ⟨rule, hrule, name, huses, hundefined, rfl⟩ | rfl
        · exact ⟨name, rfl, hundefined, .used hrule huses⟩
        · exact ⟨g.start, rfl, hstart, .start⟩
  · obtain ⟨location, cause⟩ := error
    rintro ⟨name, rfl, hundefined, hneeds⟩
    cases hneeds with
    | start => simp [hundefined]
    | used hrule huses =>
        have hmem := hused.mpr ⟨_, hrule, name, huses, hundefined, rfl⟩
        split
        · exact hmem
        · exact List.mem_append_left _ hmem

theorem defines_eq_false_iff {name : String} : g.defines name = false ↔ g.rule? name = none := by
  rw [defines, Option.isSome_eq_false_iff, Option.isNone_iff_eq_none]

end Grammar

variable {g : Grammar} {place : Location} {name missing : String}

/-- A match of a name that is needed comes to a name without a rule only where
that is needed. -/
theorem TopDown.needs_of_undefined {s : Settings} {tokens : List String} {base : Location}
    {levels pos : Nat}
    (h : (matchName s g tokens levels name pos).outcome = .error (.undefined missing))
    (hneeds : g.Needs base name place) :
    g.defines missing = false ∧ ∃ location, g.Needs base missing location := by
  refine matchName_fault_induction (motive := fun _ name _ fault ↦ fault = .undefined missing →
    ∀ place, g.Needs base name place →
      g.defines missing = false ∧ ∃ location, g.Needs base missing location)
    ?limit ?undefined ?here ?below h rfl place hneeds
  case limit =>
    intro _ _ hfault
    cases hfault
  case undefined =>
    intro _ name _ hnone hfault place hneeds
    cases hfault
    exact ⟨Grammar.defines_eq_false_iff.mpr hnone, place, hneeds⟩
  case here =>
    intro _ _ _ _ _ _ _ _ _ _ _ _ hfault
    cases hfault
  case below =>
    intro _ _ _ rule _ other _ _ _ hrule hcomes _ ih hfault _ _
    have hdeclared := (Grammar.rule?_eq_some_iff.mp hrule).1
    exact ih hfault _ (.used hdeclared hcomes.mem_flatten)

/-- An expansion of a name that is needed at its place comes to a name without
a rule only where that is needed, and the fault is located there. -/
theorem Sentence.needs_of_undefined {source stop : WordSource} {levels : Nat} {location : Location}
    (h : (expand g levels place name).run source = (.error ⟨location, .undefined missing⟩, stop))
    (hneeds : g.Needs Location.origin name place) :
    g.defines missing = false ∧ g.Needs Location.origin missing location := by
  refine expand_fault_induction (motive := fun _ place name error ↦
    error.cause = .undefined missing → g.Needs Location.origin name place →
      g.defines missing = false ∧ g.Needs Location.origin missing error.location)
    ?limit ?undefined ?below h rfl hneeds
  case limit =>
    intro _ _ hfault
    cases hfault
  case undefined =>
    intro _ place name hnone hfault hneeds
    cases hfault
    exact ⟨Grammar.defines_eq_false_iff.mpr hnone, hneeds⟩
  case below =>
    intro _ _ _ rule other _ hrule huses ih hfault _
    have hdeclared := (Grammar.rule?_eq_some_iff.mp hrule).1
    exact ih hfault (.used hdeclared huses)

/-! ## The report -/

theorem Grammar.mem_lint_of_parse (hrules : g.rules ≠ []) {s : TopDown.Settings}
    {tokens : List String} (h : (TopDown.parse s g tokens).outcome = .error (.undefined missing))
    (base : Location) : ∃ location, ⟨location, .undefined missing⟩ ∈ g.lint base := by
  rcases TopDown.parse_eq_error_iff.mp h with hname | ⟨-, hfault⟩ | ⟨_, _, _, -, -, -, hfault⟩
  · have hstart : g.Needs base g.start base := .start
    obtain ⟨hundefined, location, hneeds⟩ := TopDown.needs_of_undefined hname hstart
    exact ⟨location, (mem_lint_iff hrules).mpr ⟨missing, rfl, hundefined, hneeds⟩⟩
  · cases hfault
  · cases hfault

theorem Grammar.mem_lint_of_generate (hrules : g.rules ≠ []) {source : WordSource}
    {location : Location}
    (h : ((Sentence.generate g).run source).1 = .error ⟨location, .undefined missing⟩) :
    ⟨location, .undefined missing⟩ ∈ g.lint Location.origin := by
  have hderive := Sentence.generateFrom_eq_error_iff.mp (Prod.ext h rfl)
  obtain ⟨hundefined, hneeds⟩ := Sentence.needs_of_undefined hderive .start
  exact (mem_lint_iff hrules).mpr ⟨missing, rfl, hundefined, hneeds⟩

/-- Whether there is anything to report does not depend on the file. -/
theorem Grammar.lint_eq_nil_iff {base : Location} :
    g.lint base = [] ↔
      (∀ rule ∈ g.rules, g.undefinedIn rule = []) ∧ (g.rules = [] ∨ g.defines g.start = true) := by
  rw [lint]
  split
  next h => simpa using fun _ ↦ h
  next h => simpa using fun _ ↦ h

/-- The report on a grammar with rules lists every name without a rule that a
top-down parse can come to, and every one that can be come to in generating,
with its location. Each entry is a name that has no rule and is needed at the
location. Where the report is empty, neither can come to such a name. -/
theorem Grammar.lint_covers_undefined (hrules : g.rules ≠ []) :
    (∀ (s : TopDown.Settings) tokens name,
      (TopDown.parse s g tokens).outcome = .error (.undefined name) →
        ∀ base, ∃ location, ⟨location, .undefined name⟩ ∈ g.lint base) ∧
    (∀ source location name,
      ((Sentence.generate g).run source).1 = .error ⟨location, .undefined name⟩ →
        ⟨location, .undefined name⟩ ∈ g.lint Location.origin) ∧
    (∀ base, ∀ error ∈ g.lint base, ∃ name, error.cause = .undefined name ∧
      g.defines name = false ∧
        ((∃ rule ∈ g.rules, .nonterminal name ∈ rule.symbols ∧
            error.location = { base with line := rule.line }) ∨
          (name = g.start ∧ error.location = base))) ∧
    (∀ base, g.lint base = [] →
      (∀ (s : TopDown.Settings) tokens name,
        (TopDown.parse s g tokens).outcome ≠ .error (.undefined name)) ∧
      ∀ source location name,
        ((Sentence.generate g).run source).1 ≠ .error ⟨location, .undefined name⟩) := by
  refine ⟨?_, ?_, ?_, ?_⟩
  · intro s tokens name h base
    exact mem_lint_of_parse hrules h base
  · intro source location name h
    exact mem_lint_of_generate hrules h
  · rintro base ⟨location, cause⟩ hmem
    obtain ⟨name, hcause, hundefined, hneeds⟩ := (mem_lint_iff hrules).mp hmem
    refine ⟨name, hcause, hundefined, ?_⟩
    cases hneeds with
    | start => exact .inr ⟨rfl, rfl⟩
    | used hrule huses => exact .inl ⟨_, hrule, huses, rfl⟩
  · intro base hnil
    refine ⟨?_, ?_⟩
    · intro s tokens name h
      obtain ⟨location, hmem⟩ := mem_lint_of_parse hrules h base
      rw [hnil] at hmem
      cases hmem
    · intro source location name h
      have hmem := mem_lint_of_generate hrules h
      rw [lint_eq_nil_iff.mpr (lint_eq_nil_iff.mp hnil)] at hmem
      cases hmem

namespace Grammar

/-- The second rule uses a name that has none. -/
def unfinished : Grammar :=
  .ofRules [⟨"S", [[.nonterminal "A"]], 0⟩, ⟨"A", [[.nonterminal "B"]], 2⟩]

def finished : Grammar := unfinished.declare ⟨"B", [[.terminal "x"]], 3⟩

theorem lint_covers_undefined_unfinished :
    unfinished.rules ≠ [] ∧
      ((TopDown.parse {} unfinished ["x"]).outcome = .error (.undefined "B") ∧
        ∀ base, ∃ location, ⟨location, .undefined "B"⟩ ∈ unfinished.lint base) ∧
      (((Sentence.generate unfinished).run (.ofWords [])).1 =
          .error ⟨⟨none, 2⟩, .undefined "B"⟩ ∧
        ⟨⟨none, 2⟩, .undefined "B"⟩ ∈ unfinished.lint Location.origin) ∧
      finished.rules ≠ [] ∧ finished.lint Location.origin = [] ∧
        ∀ tokens name,
          (TopDown.parse {} finished tokens).outcome ≠ .error (.undefined name) := by
  have hrules : unfinished.rules ≠ [] := by decide
  have hparse : (TopDown.parse {} unfinished ["x"]).outcome = .error (.undefined "B") := rfl
  have hgenerate : ((Sentence.generate unfinished).run (.ofWords [])).1 =
    .error ⟨⟨none, 2⟩, .undefined "B"⟩ := rfl
  have hcovers := lint_covers_undefined hrules
  have hcomplete : finished.rules ≠ [] := by decide
  have hnil : finished.lint Location.origin = [] := by decide
  exact ⟨hrules, ⟨hparse, hcovers.1 _ _ _ hparse⟩, ⟨hgenerate, hcovers.2.1 _ _ _ hgenerate⟩,
    hcomplete, hnil, ((lint_covers_undefined hcomplete).2.2.2 _ hnil).1 {}⟩

end Grammar

end PhraseStructure
