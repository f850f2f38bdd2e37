import Mathlib.Data.List.Perm.Subperm
import PhraseStructure.Grammar.Lint
import PhraseStructure.Proofs.Lookup
import PhraseStructure.Proofs.Sentence.Expansion
import PhraseStructure.Proofs.TopDown.Outcome

/-!
# The order of rules and their lines

Parsing from the top and generating look rules up by their names, so they come
to the same end for grammars in which each name has the same alternatives,
whatever the order of the rules. The report on missing rules follows the order
of the rules, but lists each missing symbol as often.

Lines are seen in the locations of errors alone. Grammars that agree have the
same lines as well, so even their errors cannot be told apart.
-/

namespace PhraseStructure

attribute [ext] Rule

namespace Grammar

variable {g g' : Grammar} {base base' : Location}

/-- Each name has the same alternatives, or no rule in either grammar. -/
def SameAlternatives (g g' : Grammar) : Prop :=
  ∀ name, (g.rule? name).map Rule.alternatives = (g'.rule? name).map Rule.alternatives

theorem SameAlternatives.defines (h : SameAlternatives g g') : g.defines = g'.defines := by
  funext name
  rw [Grammar.defines, Grammar.defines, ← Option.isSome_map, h name, Option.isSome_map]

/-! ## Rows of rules with the same lookups -/

theorem map_rules {α : Type} (g : Grammar) (f : Rule → α) :
    g.rules.map f = g.names.filterMap fun name ↦ (g.rule? name).map f := by
  have hlookup : ∀ rule ∈ g.rules, (g.rule? rule.name).map f = some (f rule) := by
    intro rule hrule
    rw [rule?_eq_some_iff.mpr ⟨hrule, rfl⟩, Option.map_some]
  rw [names, List.filterMap_map, ← List.filterMap_eq_map']
  exact List.filterMap_congr fun rule hrule ↦ (hlookup rule hrule).symm

theorem map_rules_perm {α : Type} {f : Rule → α}
    (h : ∀ name, (g.rule? name).map f = (g'.rule? name).map f) :
    (g.rules.map f).Perm (g'.rules.map f) := by
  have hdefines (name : String) : g.defines name = g'.defines name := by
    rw [defines, defines, ← Option.isSome_map, h, Option.isSome_map]
  have hnames : g.names.Perm g'.names := by
    apply (List.perm_ext_iff_of_nodup g.distinct g'.distinct).mpr
    intro name
    change name ∈ g.names ↔ name ∈ g'.names
    rw [mem_names_iff, mem_names_iff, hdefines]
  rw [map_rules, map_rules]
  simp only [h]
  exact hnames.filterMap _

theorem rules_perm_iff : g.rules.Perm g'.rules ↔ ∀ name, g.rule? name = g'.rule? name := by
  constructor
  · intro hperm name
    apply Option.ext
    intro rule
    rw [rule?_eq_some_iff, rule?_eq_some_iff, hperm.mem_iff]
  · intro h
    have hperm : (g.rules.map id).Perm (g'.rules.map id) := map_rules_perm fun name ↦ by rw [h]
    rwa [List.map_id, List.map_id] at hperm

/-- To agree is to have the same rules under the same names. -/
theorem agrees_iff :
    g.agrees g' = true ↔ g.start = g'.start ∧ ∀ name, g.rule? name = g'.rule? name := by
  simp only [agrees, Bool.and_eq_true, decide_eq_true_eq, List.all_eq_true, and_assoc]
  apply and_congr_right
  intro _
  rw [← rules_perm_iff]
  constructor
  · rintro ⟨hlength, hrules⟩
    have hsubset : g.rules ⊆ g'.rules :=
      fun rule hrule ↦ (rule?_eq_some_iff.mp (hrules rule hrule)).1
    exact (List.subperm_of_subset g.nodup_rules hsubset).perm_of_length_le (Nat.le_of_eq hlength.symm)
  · intro hperm
    refine ⟨hperm.length_eq, fun rule hrule ↦ ?_⟩
    exact rule?_eq_some_iff.mpr ⟨hperm.mem_iff.mp hrule, rfl⟩

/-- A rule is its name, its alternatives and its line. -/
theorem SameAlternatives.rule?_eq_iff (h : SameAlternatives g g') (name : String) :
    g.rule? name = g'.rule? name ↔
      (g.rule? name).map Rule.line = (g'.rule? name).map Rule.line := by
  constructor
  · intro hrule
    rw [hrule]
  · intro hline
    have halternatives := h name
    cases hrule : g.rule? name with
    | none =>
        rw [hrule] at hline
        exact (Option.map_eq_none_iff.mp hline.symm).symm
    | some rule =>
        rw [hrule, Option.map_some] at hline halternatives
        obtain ⟨rule', hrule', hsameline⟩ := Option.map_eq_some_iff.mp hline.symm
        rw [hrule', Option.map_some, Option.some.injEq] at halternatives
        have hname := (rule?_eq_some_iff.mp hrule).2
        have hname' := (rule?_eq_some_iff.mp hrule').2
        have hsame : rule = rule' := Rule.ext (hname.trans hname'.symm) halternatives hsameline.symm
        rw [hrule', hsame]

/-! ## The report -/

theorem flatMap_undefinedIn (g : Grammar) :
    g.rules.flatMap g.undefinedIn =
      (g.rules.map Rule.alternatives).flatMap fun alternatives ↦
        (alternatives.flatten.filter fun s ↦ s.isNonterminal && !g.defines s.surface).map
          Symbol.surface := by
  rw [List.flatMap_map]
  rfl

/-- The start symbol, if it is reported. -/
def undefinedStart (g : Grammar) : List String :=
  if g.rules.isEmpty || g.defines g.start then [] else [g.start]

theorem map_cause_lint (g : Grammar) (base : Location) :
    (g.lint base).map Located.cause =
      (g.rules.flatMap g.undefinedIn ++ g.undefinedStart).map .undefined := by
  rw [lint, undefinedStart]
  split <;> simp [List.map_flatMap, Function.comp_def]

theorem SameAlternatives.map_cause_lint_perm (h : SameAlternatives g g')
    (hstart : g.start = g'.start) (base base' : Location) :
    ((g.lint base).map Located.cause).Perm ((g'.lint base').map Located.cause) := by
  have hrules := map_rules_perm h
  have hempty : g.rules.isEmpty = g'.rules.isEmpty := by
    rw [← List.isEmpty_map, hrules.isEmpty_eq, List.isEmpty_map]
  have hused : (g.rules.flatMap g.undefinedIn).Perm (g'.rules.flatMap g'.undefinedIn) := by
    rw [flatMap_undefinedIn, flatMap_undefinedIn, h.defines]
    exact hrules.flatMap_right _
  rw [map_cause_lint, map_cause_lint]
  have hstarts : g.undefinedStart = g'.undefinedStart := by
    rw [undefinedStart, undefinedStart, hempty, h.defines, hstart]
  rw [hstarts]
  exact (hused.append_right _).map _

/-- Where all rules are the same, the locations are too. -/
theorem lint_perm (hstart : g.start = g'.start) (h : ∀ name, g.rule? name = g'.rule? name)
    (base : Location) : (g.lint base).Perm (g'.lint base) := by
  have hrules := rules_perm_iff.mpr h
  have hdefines : g.defines = g'.defines := by
    funext name
    rw [defines, defines, h]
  have hused (rule : Rule) : g.undefinedIn rule = g'.undefinedIn rule := by
    rw [undefinedIn, undefinedIn, hdefines]
  simp only [lint, hused, hdefines, hstart, hrules.isEmpty_eq]
  split
  · exact hrules.flatMap_right _
  · exact (hrules.flatMap_right _).append_right _

end Grammar

/-! ## Parsing -/

theorem TopDown.parse_eq_of_sameAlternatives {g g' : Grammar} (hstart : g.start = g'.start)
    (h : g.SameAlternatives g') (s : Settings) (tokens : List String) :
    parse s g tokens = parse s g' tokens := by
  have hmatch (levels : Nat) : matchName s g' tokens levels = matchName s g tokens levels := by
    apply matchName_eq_of_alternatives
    intro levels name
    apply rel_mono (rel_iff_map_eq.mpr (h name))
    intro rule rule' hsame pos
    rw [hsame]
  rw [parse, parse, hmatch, hstart]

/-! ## Generating -/

namespace Sentence

variable {g g' : Grammar} {α β : Type}

/-- What a run comes to, but for the places of errors, and from where the next
one draws. -/
def unplaced (x : Draw α) (source : WordSource) : Except SentenceFault α × WordSource :=
  Prod.map (Except.mapError Located.cause) id (x.run source)

theorem unplaced_bind (x : Draw α) (next : α → Draw β) (source : WordSource) :
    unplaced (x >>= next) source =
      match unplaced x source with
      | (.ok a, middle) => unplaced (next a) middle
      | (.error fault, middle) => (.error fault, middle) := by
  rw [unplaced, unplaced, run_bind]
  rcases x.run source with ⟨error | a, middle⟩ <;> rfl

theorem unplaced_bind_congr {x x' : Draw α} {next next' : α → Draw β}
    (hx : unplaced x = unplaced x') (hnext : ∀ a, unplaced (next a) = unplaced (next' a)) :
    unplaced (x >>= next) = unplaced (x' >>= next') := by
  funext source
  rw [unplaced_bind, unplaced_bind, hx]
  rcases unplaced x' source with ⟨fault | a, middle⟩
  · rfl
  · exact congrFun (hnext a) middle

variable {expandName expandName' : String → Draw Tree}

theorem unplaced_expandSymbol (h : ∀ name, unplaced (expandName name) = unplaced (expandName' name))
    (symbol : Symbol) :
    unplaced (expandSymbol expandName symbol) = unplaced (expandSymbol expandName' symbol) := by
  rw [expandSymbol, expandSymbol]
  split
  · exact h _
  · rfl

theorem unplaced_expandSymbols
    (h : ∀ name, unplaced (expandName name) = unplaced (expandName' name)) (symbols : List Symbol) :
    unplaced (expandSymbols expandName symbols) = unplaced (expandSymbols expandName' symbols) := by
  induction symbols with
  | nil => rfl
  | cons symbol rest ih =>
      apply unplaced_bind_congr (unplaced_expandSymbol h symbol)
      intro tree
      exact unplaced_bind_congr ih fun trees ↦ rfl

theorem unplaced_expand (h : g.SameAlternatives g') (levels : Nat) (place place' : Location)
    (name : String) :
    unplaced (expand g levels place name) = unplaced (expand g' levels place' name) := by
  induction levels generalizing place place' name with
  | zero => rfl
  | succ levels ih =>
      rw [expand, expand]
      have hlookup := rel_iff_map_eq.mpr (h name)
      generalize g.rule? name = found at hlookup
      generalize g'.rule? name = found' at hlookup
      cases hlookup with
      | none => rfl
      | @some rule rule' hsame =>
          change unplaced (choose rule.alternatives >>= _) = unplaced (choose rule'.alternatives >>= _)
          rw [hsame]
          apply unplaced_bind_congr rfl
          intro chosen
          apply unplaced_bind_congr (unplaced_expandSymbols (fun name ↦ ih _ _ name) _)
          intro trees
          rfl

theorem unplaced_generateFrom (h : g.SameAlternatives g') (start : String) :
    unplaced (generateFrom g start) = unplaced (generateFrom g' start) := by
  rw [generateFrom, generateFrom, map_eq_pure_bind, map_eq_pure_bind]
  exact unplaced_bind_congr (unplaced_expand h _ _ _ start) fun tree ↦ rfl

theorem expand_congr (h : ∀ name, g.rule? name = g'.rule? name) (levels : Nat) :
    expand g levels = expand g' levels := by
  induction levels with
  | zero => rfl
  | succ levels ih =>
      funext place name
      rw [expand, expand, ih, h]

end Sentence

/-! ## All at once -/

namespace Grammar

/-- Two grammars with the same alternatives for each name, in whatever order and
at whatever lines, are the same to a parse from the top, to the generator but for
the lines of its errors, and to the report on missing rules but for its order and
lines. They agree if each name has the same line in both, and then the errors
are the same in full. -/
theorem indistinguishable_of_sameAlternatives {g g' : Grammar} (hstart : g.start = g'.start)
    (hsame : ∀ name, (g.rule? name).map Rule.alternatives = (g'.rule? name).map Rule.alternatives) :
    (∀ s tokens, TopDown.parse s g tokens = TopDown.parse s g' tokens) ∧
      (∀ start source, Sentence.unplaced (Sentence.generateFrom g start) source =
        Sentence.unplaced (Sentence.generateFrom g' start) source) ∧
      (∀ base base', ((g.lint base).map Located.cause).Perm
        ((g'.lint base').map Located.cause)) ∧
      ((∀ name, (g.rule? name).map Rule.line = (g'.rule? name).map Rule.line) ↔
        g.agrees g' = true) ∧
      (g.agrees g' = true →
        (∀ start source, (Sentence.generateFrom g start).run source =
          (Sentence.generateFrom g' start).run source) ∧
        ∀ base, (g.lint base).Perm (g'.lint base)) := by
  have hsame : SameAlternatives g g' := hsame
  refine ⟨TopDown.parse_eq_of_sameAlternatives hstart hsame, ?generating, ?report, ?lines, ?agreeing⟩
  case generating =>
    intro start source
    rw [Sentence.unplaced_generateFrom hsame]
  case report => exact hsame.map_cause_lint_perm hstart
  case lines => simp only [agrees_iff, hstart, true_and, hsame.rule?_eq_iff]
  case agreeing =>
    intro hagrees
    have hrules := (agrees_iff.mp hagrees).2
    refine ⟨fun start source ↦ ?_, lint_perm hstart hrules⟩
    rw [Sentence.generateFrom, Sentence.generateFrom, Sentence.derive, Sentence.derive,
      Sentence.expand_congr hrules]

/-- Both rules use a name that has none. -/
def missingBoth : Grammar :=
  .ofRules [⟨"S", [[.nonterminal "A", .nonterminal "B"]], 0⟩,
    ⟨"A", [[.terminal "a"], [.nonterminal "C"]], 1⟩]

def missingBothReordered : Grammar :=
  .ofRules [⟨"A", [[.terminal "a"], [.nonterminal "C"]], 1⟩,
    ⟨"S", [[.nonterminal "A", .nonterminal "B"]], 0⟩]

def missingBothMoved : Grammar :=
  .ofRules [⟨"A", [[.terminal "a"], [.nonterminal "C"]], 4⟩,
    ⟨"S", [[.nonterminal "A", .nonterminal "B"]], 2⟩]

theorem sameAlternatives_missingBothMoved : SameAlternatives missingBoth missingBothMoved := by
  intro name
  simp only [missingBoth, missingBothMoved, ofRules, List.foldl_cons, List.foldl_nil, rule?_declare]
  by_cases hname : "A" = name
  · subst hname
    rfl
  · rw [if_neg hname, if_neg hname]
    split <;> rfl

theorem agrees_missingBothReordered : missingBoth.agrees missingBothReordered = true := by decide

theorem indistinguishable_of_sameAlternatives_missingBoth :
    (missingBoth.agrees missingBothMoved = false ∧
      TopDown.parse {} missingBoth ["a"] = TopDown.parse {} missingBothMoved ["a"] ∧
      Sentence.unplaced (Sentence.generateFrom missingBoth "S") (.ofWords [0]) =
        Sentence.unplaced (Sentence.generateFrom missingBothMoved "S") (.ofWords [0]) ∧
      ((missingBoth.lint .origin).map Located.cause).Perm
        ((missingBothMoved.lint .origin).map Located.cause)) ∧
    (missingBoth.agrees missingBothReordered = true ∧
      missingBoth.lint .origin ≠ missingBothReordered.lint .origin ∧
      (missingBoth.lint .origin).Perm (missingBothReordered.lint .origin)) := by
  have hstart : missingBoth.start = missingBothMoved.start := rfl
  have hstart' : missingBoth.start = missingBothReordered.start := rfl
  have hrules := (agrees_iff.mp agrees_missingBothReordered).2
  obtain ⟨hparse, hgenerate, hreport, -, -⟩ :=
    indistinguishable_of_sameAlternatives hstart sameAlternatives_missingBothMoved
  obtain ⟨-, -, -, -, hagreeing⟩ :=
    indistinguishable_of_sameAlternatives hstart' fun name ↦ by rw [hrules]
  refine ⟨⟨by decide, hparse _ _, hgenerate _ _, hreport _ _⟩, ?_⟩
  exact ⟨agrees_missingBothReordered, by decide, (hagreeing agrees_missingBothReordered).2 _⟩

end Grammar

end PhraseStructure
