import PhraseStructure.Symbol

/-!
# Grammars

A grammar has a start symbol and a list of rules with distinct names. A rule
expands its name to one of its alternatives, each a row of symbols. Rules
keep the order in which their names were first declared.

Declaring a name again replaces its rule in place, so the names stay distinct.
A lookup after a declaration finds the new rule under its name, and what was
there before under any other.
-/

namespace PhraseStructure

abbrev Alternative := List Symbol

structure Rule where
  name : String
  alternatives : List Alternative
  /-- The line that declares the rule, counted from zero. -/
  line : Nat
  deriving DecidableEq

namespace Grammar

/-- The start symbol of a grammar that names no other. -/
def defaultStart : String := "S"

/-- The rules with a further one, at the place of its name if that is taken. -/
def place (rule : Rule) : List Rule → List Rule
  | [] => [rule]
  | r :: rest => if r.name = rule.name then rule :: rest else r :: place rule rest

theorem mem_names_place (rule : Rule) (rules : List Rule) (name : String) :
    name ∈ (place rule rules).map Rule.name ↔
      name = rule.name ∨ name ∈ rules.map Rule.name := by
  induction rules with
  | nil => simp [place]
  | cons r rest ih =>
      rw [place]
      split
      next same => simp [same]
      next => simp only [List.map_cons, List.mem_cons, ih, or_left_comm]

theorem nodup_names_place (rule : Rule) {rules : List Rule}
    (distinct : (rules.map Rule.name).Nodup) : ((place rule rules).map Rule.name).Nodup := by
  induction rules with
  | nil => simp [place]
  | cons r rest ih =>
      rw [List.map_cons, List.nodup_cons] at distinct
      rw [place]
      split
      next same => exact List.nodup_cons.mpr (same ▸ distinct)
      next other =>
          rw [List.map_cons, List.nodup_cons, mem_names_place]
          exact ⟨fun mem ↦ mem.elim other distinct.1, ih distinct.2⟩

theorem find?_place (rule : Rule) (rules : List Rule) (name : String) :
    (place rule rules).find? (fun r ↦ r.name = name) =
      if rule.name = name then some rule else rules.find? fun r ↦ r.name = name := by
  induction rules with
  | nil => by_cases h : rule.name = name <;> simp [place, h]
  | cons r rest ih =>
      rw [place]
      split
      next same => by_cases h : rule.name = name <;> simp [same, h]
      next other =>
          rw [List.find?_cons, List.find?_cons, ih]
          by_cases h : rule.name = name
          · have : r.name ≠ name := fun eq ↦ other (eq.trans h.symm)
            simp [h, this]
          · simp [h]

end Grammar

structure Grammar where
  start : String
  rules : List Rule
  distinct : (rules.map Rule.name).Nodup

namespace Grammar

def empty : Grammar := ⟨defaultStart, [], List.nodup_nil⟩

def startingAt (g : Grammar) (start : String) : Grammar := { g with start }

/-- The grammar with a further rule, which replaces an earlier one of its name. -/
def declare (g : Grammar) (rule : Rule) : Grammar :=
  ⟨g.start, place rule g.rules, nodup_names_place rule g.distinct⟩

def ofRules (rules : List Rule) : Grammar := rules.foldl declare empty

def rule? (g : Grammar) (name : String) : Option Rule := g.rules.find? fun r ↦ r.name = name

def defines (g : Grammar) (name : String) : Bool := (g.rule? name).isSome

def names (g : Grammar) : List String := g.rules.map Rule.name

/-- Two grammars agree if they have the same start symbol and the same rules.
The order of the rules does not count. -/
def agrees (g h : Grammar) : Bool :=
  g.start = h.start && g.rules.length = h.rules.length &&
    g.rules.all fun r ↦ h.rule? r.name = some r

theorem rule?_eq_some_iff {g : Grammar} {name : String} {rule : Rule} :
    g.rule? name = some rule ↔ rule ∈ g.rules ∧ rule.name = name := by
  constructor
  · intro h
    exact ⟨List.mem_of_find?_eq_some h, by simpa using List.find?_some h⟩
  · rintro ⟨mem, rfl⟩
    have distinct := g.distinct
    unfold rule?
    generalize g.rules = rules at mem distinct
    induction rules with
    | nil => cases mem
    | cons r rest ih =>
        rw [List.map_cons, List.nodup_cons] at distinct
        rw [List.find?_cons]
        cases mem with
        | head => simp
        | tail _ mem =>
            have other : r.name ≠ rule.name := fun same ↦
              distinct.1 (same ▸ List.mem_map_of_mem mem)
            rw [decide_eq_false other]
            exact ih mem distinct.2

theorem defines_iff {g : Grammar} {name : String} :
    g.defines name = true ↔ ∃ rule ∈ g.rules, rule.name = name := by
  rw [defines, Option.isSome_iff_exists]
  exact exists_congr fun rule ↦ rule?_eq_some_iff

theorem mem_names_iff {g : Grammar} {name : String} : name ∈ g.names ↔ g.defines name = true := by
  rw [defines_iff, names, List.mem_map]

theorem rule?_declare (g : Grammar) (rule : Rule) (name : String) :
    (g.declare rule).rule? name = if rule.name = name then some rule else g.rule? name :=
  find?_place rule g.rules name

end Grammar

end PhraseStructure
