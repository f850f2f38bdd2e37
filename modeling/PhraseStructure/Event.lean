import PhraseStructure.Symbol

/-!
# Events

What the library reports while it works. An event keeps its data. Its text,
its level and the component that it names are read off by functions, so that
a run can be stated without any wording.
-/

namespace PhraseStructure

namespace Event

inductive Level where
  | error
  | warn
  | info
  | debug
  | trace
  deriving DecidableEq

namespace Level

def title : Level → String
  | .error => "ERROR"
  | .warn => "WARN"
  | .info => "INFO"
  | .debug => "DEBUG"
  | .trace => "TRACE"

/-- Low ranks are important. -/
def rank : Level → Nat
  | .error => 1
  | .warn => 2
  | .info => 3
  | .debug => 4
  | .trace => 5

end Level

end Event

inductive Event where
  | declared (line : Nat) (name : String) (alternatives : Nat)
  /-- The rule took the place of an earlier one of its name. -/
  | redeclared (line : Nat) (name : String)
  | loaded (rules : Nat)
  /-- The first symbol of an alternative matched, up to the position. -/
  | committed (name : String) (first : Symbol) (position : Nat)
  | matched (start : String) (consumed total depth : Nat)
  | shifted (symbol : Symbol)
  | reduced (name : String) (labels : List String)
  | accepted (label : String) (depth : Nat)
  /-- A command met a fault that does not stop it. -/
  | warned (message : String)
  | parsing (strategy : String)
  deriving DecidableEq

namespace Event

def level : Event → Level
  | declared .. | redeclared .. | reduced .. => .debug
  | loaded .. | parsing .. => .info
  | committed .. | matched .. | shifted .. | accepted .. => .trace
  | warned .. => .warn

def target : Event → String
  | declared .. | redeclared .. | loaded .. => "shino::loader"
  | committed .. | matched .. => "shino::engine::top_down"
  | shifted .. | reduced .. | accepted .. => "shino::engine::shift_reduce"
  | warned .. | parsing .. => "shino"

def text : Event → String
  | declared line name alternatives =>
      "line " ++ toString line ++ ": " ++ name ++ " has " ++ toString alternatives ++
        " alternative(s)"
  | redeclared line name =>
      "line " ++ toString line ++ ": `" ++ name ++ "` redeclared, replacing earlier rule"
  | loaded rules => "loaded grammar with " ++ toString rules ++ " rule(s)"
  | committed name first position =>
      name ++ ": committed to `" ++ first.written ++ "` at token " ++ toString position
  | matched start consumed total depth =>
      start ++ " matched " ++ toString consumed ++ " of " ++ toString total ++ " token(s), " ++
        toString depth ++ " level(s) deep"
  | shifted symbol => "shift " ++ symbol.written
  | reduced name labels => "reduce " ++ name ++ " -> " ++ String.intercalate " " labels
  | accepted label depth => "accepted " ++ label ++ ", " ++ toString depth ++ " level(s) deep"
  | warned message => message
  | parsing strategy => "parsing with " ++ strategy

end Event

end PhraseStructure
