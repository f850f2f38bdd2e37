import Mathlib.Data.List.Forall2
import PhraseStructure.Proofs.Declaring
import PhraseStructure.Proofs.Reader.Misplaced
import PhraseStructure.Proofs.Text.Chunks

/-!
# Which texts are grammars

A line must declare a rule if it has a chunk, unless its first chunk starts
with a semicolon. A text is a grammar if all these lines have the shape of a
rule, and then its rules are those that the lines declare one after the other.

Otherwise the first line without that shape is at fault, whatever comes behind
it.
-/

namespace PhraseStructure

/-- The lines that must declare a rule, each with its number and its chunks. -/
def declaringLines (text : String) : List (Nat × List String) :=
  ((Text.lines text).zipIdx.map fun (line, number) ↦ (number, Text.chunks line)).filter
    fun line ↦ line.2.head?.any fun first ↦ first.toList.head? != some ';'

theorem isRuleLine_eq (line : String) :
    isRuleLine line =
      (Text.chunks line).head?.any fun first ↦ first.toList.head? != some ';' := by
  have hhead := Text.head?_dropWhile_isBlank line
  unfold isRuleLine
  cases hchunk : (Text.chunks line).head? with
  | none =>
      rw [hchunk, Option.bind_none, List.head?_eq_none_iff] at hhead
      rw [hhead]
      rfl
  | some first =>
      have hfilled := (Text.isChunk_of_mem_chunks (List.mem_of_head? hchunk)).filled
      rw [hchunk, Option.bind_some] at hhead
      cases hfirst : first.toList with
      | nil => exact (hfilled (by simpa using hfirst)).elim
      | cons c rest =>
          obtain ⟨others, hrest⟩ := List.head?_eq_some_iff.mp (hfirst ▸ hhead)
          rw [hrest, Option.any_some, hfirst]
          rfl

theorem ruleLines_eq_declaringLines (text : String) : ruleLines text = declaringLines text := by
  rw [ruleLines, declaringLines, List.filter_map]
  congr 1
  apply List.filter_congr
  intro line _
  exact isRuleLine_eq line.1

/-- The line has the shape of the rule and stands at its place. -/
def Declares (line : Nat × List String) (rule : Rule) : Prop :=
  RuleShape (line.2.map Symbol.ofChunk) rule.name rule.alternatives ∧ rule.line = line.1

theorem exists_line_of_mem {lines : List (Nat × List String)} {declared : List Rule}
    (h : List.Forall₂ Declares lines declared) {rule : Rule} (hrule : rule ∈ declared) :
    ∃ line ∈ lines, Declares line rule := by
  induction h with
  | nil => cases hrule
  | @cons line first lines declared hfirst _ ih =>
      rcases List.mem_cons.mp hrule with rfl | hrule
      · exact ⟨line, List.mem_cons_self, hfirst⟩
      · obtain ⟨other, hmem, hdeclares⟩ := ih hrule
        exact ⟨other, List.mem_cons_of_mem _ hmem, hdeclares⟩

namespace Grammar

variable {file : Option String} {g h : Grammar} {line : Nat × List String}

theorem outcome_readLine_of_ok {name : String} {alternatives : List Alternative}
    (hread : readRuleLine (line.2.map Symbol.ofChunk) = .ok (name, alternatives)) :
    (readLine file g line).outcome = .ok (g.declare ⟨name, alternatives, line.1⟩) := by
  rw [readLine, hread]
  by_cases hknown : g.defines name = true <;> simp [hknown, Traced.outcome_bind] <;> rfl

theorem readLine_eq_ok_iff :
    (readLine file g line).outcome = .ok h ↔ ∃ rule, Declares line rule ∧ h = g.declare rule := by
  cases hread : readRuleLine (line.2.map Symbol.ofChunk) with
  | error fault =>
      constructor
      · intro hok
        rw [readLine, hread] at hok
        cases hok
      · rintro ⟨rule, hdeclares, -⟩
        rw [readRuleLine_eq_ok_iff.mpr hdeclares.1] at hread
        cases hread
  | ok found =>
      rw [outcome_readLine_of_ok hread]
      constructor
      · intro hok
        cases hok
        exact ⟨_, ⟨readRuleLine_eq_ok_iff.mp hread, rfl⟩, rfl⟩
      · rintro ⟨⟨name, alternatives, number⟩, ⟨hshape, rfl⟩, rfl⟩
        rw [readRuleLine_eq_ok_iff.mpr hshape] at hread
        cases hread
        rfl

theorem readLine_eq_error (hline : ¬ ∃ rule, Declares line rule) :
    ∃ expected found,
      (readLine file g line).outcome = .error ⟨⟨file, line.1⟩, .malformed expected found⟩ := by
  cases hread : readRuleLine (line.2.map Symbol.ofChunk) with
  | error fault =>
      obtain ⟨place, found, -, rfl⟩ := cites_of_readRuleLine hread
      refine ⟨expectedAt place, found, ?_⟩
      rw [readLine, hread]
      rfl
  | ok found => exact (hline ⟨⟨_, _, _⟩, readRuleLine_eq_ok_iff.mp hread, rfl⟩).elim

theorem readLines_eq_ok_iff {lines : List (Nat × List String)} :
    (lines.foldlM (readLine file) g).outcome = .ok h ↔
      ∃ declared, List.Forall₂ Declares lines declared ∧ h = declared.foldl declare g := by
  induction lines generalizing g with
  | nil =>
      constructor
      · intro hok
        cases hok
        exact ⟨[], .nil, rfl⟩
      · rintro ⟨declared, heach, rfl⟩
        cases heach
        rfl
  | cons line lines ih =>
      rw [List.foldlM_cons, Traced.outcome_bind_eq_ok_iff]
      simp only [readLine_eq_ok_iff, ih]
      constructor
      · rintro ⟨_, ⟨rule, hfirst, rfl⟩, declared, hrest, rfl⟩
        exact ⟨rule :: declared, .cons hfirst hrest, rfl⟩
      · rintro ⟨declared, heach, rfl⟩
        cases heach with
        | cons hfirst hrest => exact ⟨_, ⟨_, hfirst, rfl⟩, _, hrest, rfl⟩

/-- The first line without the shape of a rule is at fault. -/
theorem readLines_eq_error {front back : List (Nat × List String)}
    (hfront : ∀ line ∈ front, ∃ rule, Declares line rule) (hline : ¬ ∃ rule, Declares line rule) :
    ∃ expected found, ((front ++ line :: back).foldlM (readLine file) g).outcome =
      .error ⟨⟨file, line.1⟩, .malformed expected found⟩ := by
  induction front generalizing g with
  | nil =>
      obtain ⟨expected, found, herror⟩ := readLine_eq_error (g := g) hline
      refine ⟨expected, found, ?_⟩
      rw [List.nil_append, List.foldlM_cons]
      exact Traced.outcome_bind_eq_error_iff.mpr (.inl herror)
  | cons first front ih =>
      obtain ⟨⟨rule, hfirst⟩, hfront⟩ := List.forall_mem_cons.mp hfront
      obtain ⟨expected, found, herror⟩ := ih (g := g.declare rule) hfront
      refine ⟨expected, found, ?_⟩
      have hnext : (readLine file g first).outcome = .ok (g.declare rule) :=
        readLine_eq_ok_iff.mpr ⟨rule, hfirst, rfl⟩
      rw [List.cons_append, List.foldlM_cons, Traced.outcome_bind_of_ok hnext]
      exact herror

theorem outcome_read (text : String) (file : Option String) :
    (read text file).outcome = ((declaringLines text).foldlM (readLine file) empty).outcome := by
  rw [read, Traced.outcome_bind, ruleLines_eq_declaringLines]
  cases ((declaringLines text).foldlM (readLine file) empty).outcome <;> rfl

theorem read_eq_ok_iff {text : String} :
    (read text file).outcome = .ok h ↔
      ∃ declared, List.Forall₂ Declares (declaringLines text) declared ∧ h = ofRules declared := by
  rw [outcome_read]
  exact readLines_eq_ok_iff

theorem exists_declared_iff {lines : List (Nat × List String)} :
    (∃ declared, List.Forall₂ Declares lines declared) ↔
      ∀ line ∈ lines, ∃ rule, Declares line rule := by
  induction lines with
  | nil => simp
  | cons line lines ih =>
      rw [List.forall_mem_cons, ← ih]
      constructor
      · rintro ⟨declared, heach⟩
        cases heach with
        | cons hfirst hrest => exact ⟨⟨_, hfirst⟩, _, hrest⟩
      · rintro ⟨⟨rule, hfirst⟩, declared, hrest⟩
        exact ⟨rule :: declared, .cons hfirst hrest⟩

/-- A text is a grammar exactly if every line that must declare a rule has the
shape of one. The names of the grammar are the declared ones in the order of
their first declarations, and each has the rule that was declared for it last,
with that rule's line. Otherwise the error is that of the first line at fault. -/
theorem read_decides_shape (text : String) :
    ((∃ g, (read text none).outcome = .ok g) ↔
        ∀ line ∈ declaringLines text, ∃ rule, Declares line rule) ∧
      (∀ g, (read text none).outcome = .ok g → g.start = "S" ∧
        ∃ declared, List.Forall₂ Declares (declaringLines text) declared ∧
          g.names = (declared.map Rule.name).eraseDups ∧
          ∀ name, g.rule? name = (declared.filter fun r ↦ r.name = name).getLast?) ∧
      (∀ front line back, declaringLines text = front ++ line :: back →
        (∀ earlier ∈ front, ∃ rule, Declares earlier rule) → (¬ ∃ rule, Declares line rule) →
          ∃ expected found, (read text none).outcome =
            .error ⟨⟨none, line.1⟩, .malformed expected found⟩) := by
  refine ⟨?_, ?_, ?_⟩
  · rw [← exists_declared_iff]
    simp only [read_eq_ok_iff]
    constructor
    · rintro ⟨_, declared, heach, rfl⟩
      exact ⟨declared, heach⟩
    · rintro ⟨declared, heach⟩
      exact ⟨_, declared, heach, rfl⟩
  · intro g hread
    obtain ⟨declared, heach, rfl⟩ := read_eq_ok_iff.mp hread
    exact ⟨start_ofRules declared, declared, heach, names_ofRules declared, rule?_ofRules declared⟩
  · intro front line back hsplit hfront hline
    rw [outcome_read, hsplit]
    exact readLines_eq_error hfront hline

/-- Comments and blank lines count, and the later rule takes the name over. -/
example :
    (read "S -> \"a\"\n\n; note\nS -> N | \"b\"\n" none).outcome.map Grammar.rules =
      .ok [⟨"S", [[.nonterminal "N"], [.terminal "b"]], 3⟩] := by
  cbv

end Grammar

end PhraseStructure
