/-!
# Faults of parsing

Why a row of tokens has no tree. Positions count tokens from zero.
-/

namespace PhraseStructure

inductive ParseFault where
  | undefined (name : String)
  /-- An alternative began to match and a later symbol did not. Nothing is
  found at the end of the tokens. -/
  | mismatch (surface : String) (found : Option String) (position : Nat)
  | noMatch (start : String)
  | leftover (token : String) (position : Nat)
  /-- The stack did not end as a single tree. Its labels stand bottom first. -/
  | unreduced (stack : List String)
  | tooDeep (limit : Nat)
  | tooManyReductions (limit : Nat)
  deriving DecidableEq

namespace ParseFault

def message : ParseFault → String
  | undefined name => "`" ++ name ++ "` is an undefined rule"
  | mismatch surface (some found) position =>
      "`" ++ surface ++ "` expected but `" ++ found ++ "` found at token " ++ toString position
  | mismatch surface none position =>
      "`" ++ surface ++ "` expected but end of input found at token " ++ toString position
  | noMatch start => "Input does not match any rule for `" ++ start ++ "`"
  | leftover token position =>
      "Unexpected `" ++ token ++ "` at token " ++ toString position ++ " after a complete parse"
  | unreduced stack =>
      "Parsing failed, stack ended as [" ++ String.intercalate " " stack ++ "]"
  | tooDeep limit => "Rule nesting exceeded " ++ toString limit ++ " levels"
  | tooManyReductions limit => "More than " ++ toString limit ++ " reductions without a shift"

end ParseFault

end PhraseStructure
