import PhraseStructure.Event
import PhraseStructure.Grammar.Basic
import PhraseStructure.Parse.Fault
import PhraseStructure.Traced
import PhraseStructure.Tree

/-!
# Top-down parsing

The start symbol is expanded and matched against the tokens from left to
right. The alternatives of a rule are tried in order, up to the first symbol
of each. Once that has matched, the parser is committed: the other symbols
must match too, or the whole parse fails. An alternative whose first symbol
does not match has consumed nothing, so the next one starts where it started.

Rules may nest up to a limit. `matchName` recurses on the number of levels
that are left, and everything below it takes the next level as an argument.
-/

namespace PhraseStructure.TopDown

structure Settings where
  /-- Whether an empty terminal also matches the end of the tokens. -/
  emptyAtEnd : Bool := false
  maxDepth : Nat := 512
  /-- Whether tokens left over are an error. -/
  fullInput : Bool := false

/-- A tree and the position just after its tokens, or nothing. -/
abbrev Match := Option (Tree × Nat)

abbrev Step (α : Type) := Traced Event ParseFault α

section

variable (s : Settings) (tokens : List String)

def matchSurface (surface : String) (pos : Nat) : Match :=
  match tokens[pos]? with
  | some token => if token = surface then some (.leaf token, pos + 1) else none
  | none => if s.emptyAtEnd && surface.isEmpty then some (.leaf "", pos) else none

variable (descend : String → Nat → Step Match)

def matchPart (symbol : Symbol) (pos : Nat) : Step Match :=
  if symbol.isNonterminal then descend symbol.surface pos
  else pure (matchSurface s tokens symbol.surface pos)

/-- Matches the symbols after the first one, all of which must match. -/
def matchRest : List Symbol → Nat → Step (List Tree × Nat)
  | [], pos => pure ([], pos)
  | symbol :: rest, pos => do
      match ← matchPart s tokens descend symbol pos with
      | none => .fail (.mismatch symbol.surface tokens[pos]? pos)
      | some (tree, next) =>
          let (trees, stop) ← matchRest rest next
          pure (tree :: trees, stop)

def matchAlternative (name : String) (alternative : Alternative) (pos : Nat) : Step Match :=
  match alternative with
  | [] => pure none
  | first :: rest => do
      match ← matchPart s tokens descend first pos with
      | none => pure none
      | some (tree, next) =>
          Traced.emit (.committed name first next)
          let (trees, stop) ← matchRest s tokens descend rest next
          pure (some (.node name (tree :: trees), stop))

/-- The first alternative that commits decides. -/
def matchAlternatives (name : String) (alternatives : List Alternative) (pos : Nat) : Step Match :=
  match alternatives with
  | [] => pure none
  | alternative :: others => do
      match ← matchAlternative s tokens descend name alternative pos with
      | some found => pure (some found)
      | none => matchAlternatives name others pos

end

def matchName (s : Settings) (g : Grammar) (tokens : List String) :
    Nat → String → Nat → Step Match
  | 0, _, _ => .fail (.tooDeep s.maxDepth)
  | levels + 1, name, pos =>
      match g.rule? name with
      | none => .fail (.undefined name)
      | some rule =>
          matchAlternatives s tokens (matchName s g tokens levels) name rule.alternatives pos

/-- The start symbol itself does not count as nested. -/
def parse (s : Settings) (g : Grammar) (tokens : List String) : Step Tree := do
  match ← matchName s g tokens (s.maxDepth + 1) g.start 0 with
  | none => .fail (.noMatch g.start)
  | some (tree, stop) =>
      match if s.fullInput then tokens[stop]? else none with
      | some token => .fail (.leftover token stop)
      | none =>
          Traced.emit (.matched g.start stop tokens.length tree.depth)
          pure tree

end PhraseStructure.TopDown
