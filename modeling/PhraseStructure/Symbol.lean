/-!
# Symbols

A rule is written as a row of chunks. `Symbol.ofChunk` reads one chunk and
`Symbol.written` writes it again. A terminal is written between double quotes
and keeps its surface without them. The other kinds are written as they are.
-/

namespace PhraseStructure

inductive Kind where
  | terminal
  | nonterminal
  /-- Stands between the name of a rule and its alternatives. -/
  | arrow
  /-- Stands between two alternatives. -/
  | separator
  /-- Stands in for a symbol that is missing at the end of a line. -/
  | lineEnd
  deriving DecidableEq

def Kind.title : Kind → String
  | .terminal => "terminal"
  | .nonterminal => "nonterminal"
  | .arrow => "arrow"
  | .separator => "separator"
  | .lineEnd => "end of line"

structure Symbol where
  kind : Kind
  surface : String
  deriving DecidableEq

namespace Symbol

@[match_pattern] abbrev terminal (surface : String) : Symbol := ⟨.terminal, surface⟩

@[match_pattern] abbrev nonterminal (surface : String) : Symbol := ⟨.nonterminal, surface⟩

def endOfLine : Symbol := ⟨.lineEnd, "EOL"⟩

def isTerminal (s : Symbol) : Bool := s.kind = .terminal

def isNonterminal (s : Symbol) : Bool := s.kind = .nonterminal

theorem eq_nonterminal {s : Symbol} (h : s.isNonterminal = true) : s = nonterminal s.surface := by
  obtain ⟨kind, surface⟩ := s
  simp only [isNonterminal, decide_eq_true_eq] at h
  rw [h]

/-- A terminal is at least two characters long, of which the first and the
last are double quotes. Hence a lone quote is a nonterminal. -/
def ofChunk (raw : String) : Symbol :=
  if raw = "->" then ⟨.arrow, raw⟩
  else if raw = "|" then ⟨.separator, raw⟩
  else
    match raw.toList with
    | '"' :: rest =>
        if rest.getLast? = some '"' then terminal (String.ofList rest.dropLast)
        else nonterminal raw
    | _ => nonterminal raw

def written (s : Symbol) : String :=
  match s.kind with
  | .terminal => "\"" ++ s.surface ++ "\""
  | _ => s.surface

end Symbol

end PhraseStructure
