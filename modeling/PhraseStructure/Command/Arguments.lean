import PhraseStructure.Parse.Strategy
import PhraseStructure.Text.Decimal

/-!
# Arguments of the command line

The first argument names what to do. After it stand operands and options in
any order. An option takes one value, which is the next argument or is
attached to the option. A value that is an argument of its own cannot start
with a dash, unless it is a lone dash. Two dashes end the options.

An option may be given once, and its name may not be shortened. Whatever is
not read by these rules is refused.

Arguments are read from left to right. Who asks for help gets it if nothing in
front of the question is refused, whatever stands behind it or is missing.
-/

namespace PhraseStructure

inductive Command where
  /-- Parses the given sentence, or else each line of the input. -/
  | parse (file : String) (sentence : Option String) (strategy : Strategy)
      (start : Option String)
  | generate (file : String) (start : Option String) (amount : Nat) (seed : Option UInt64)
  | check (file : String)

def Command.file : Command → String
  | parse file .. => file
  | generate file .. => file
  | check file => file

namespace Arguments

/-- A number of 32 bits. A minus sign is fine in front of a zero. -/
def readAmount (text : String) : Option Nat :=
  match text.toList with
  | '-' :: c :: rest => (Text.readDigits 0 (c :: rest)).filter fun n ↦ n = 0
  | _ => (Text.readNatural text).filter fun n ↦ n < UInt32.size

def readSeed (text : String) : Option UInt64 :=
  ((Text.readNatural text).filter fun n ↦ n < UInt64.size).map Nat.toUInt64

inductive Request where
  | run (command : Command)
  | showVersion
  | showHelp

inductive Setting where
  | strategy
  | start
  | amount
  | seed
  deriving DecidableEq

namespace Setting

def long : Setting → String
  | strategy => "strategy"
  | start => "start"
  | amount => "amount"
  | seed => "seed"

def short : Setting → Option Char
  | strategy => some 'S'
  | start => some 's'
  | amount => some 'n'
  | seed => none

def accepts : Setting → String → Bool
  | strategy, value => (Strategy.ofOption? value).isSome
  | start, _ => true
  | amount, value => (readAmount value).isSome
  | seed, value => (readSeed value).isSome

end Setting

structure Form where
  settings : List Setting
  operands : Nat

structure Given where
  operands : List String := []
  settings : List (Setting × String) := []

namespace Given

def value? (g : Given) (setting : Setting) : Option String := g.settings.lookup setting

/-- A setting can be given once. -/
def set (g : Given) (setting : Setting) (value : String) : Option Given :=
  if (g.value? setting).isSome || !setting.accepts value then none
  else some { g with settings := (setting, value) :: g.settings }

/-- The first operand is the name of a file, which is not empty. -/
def add (form : Form) (g : Given) (operand : String) : Option Given :=
  if form.operands ≤ g.operands.length || (g.operands.isEmpty && operand.isEmpty) then none
  else some { g with operands := g.operands ++ [operand] }

end Given

inductive Shape where
  | operand
  | endOfOptions
  | help
  | option (setting : Setting) (value : Option String)
  | unknown

/-- An option of one letter has its value directly after it or after an equals
sign. -/
def shortShape (known : List Setting) (letter : Char) (attached : List Char) : Shape :=
  match known.find? fun setting ↦ setting.short = some letter with
  | some setting =>
      match attached with
      | [] => .option setting none
      | '=' :: value => .option setting (some (String.ofList value))
      | value => .option setting (some (String.ofList value))
  | none => if letter = 'h' then .help else .unknown

def longShape (known : List Setting) (text : List Char) : Shape :=
  let name := String.ofList (text.takeWhile (· != '='))
  let value := match text.dropWhile (· != '=') with
    | [] => none
    | _ :: value => some (String.ofList value)
  match known.find? fun setting ↦ setting.long = name with
  | some setting => .option setting value
  | none => if name = "help" && value.isNone then .help else .unknown

def shape (known : List Setting) (argument : String) : Shape :=
  match argument.toList with
  | ['-', '-'] => .endOfOptions
  | '-' :: '-' :: text => longShape known text
  | '-' :: letter :: attached => shortShape known letter attached
  | _ => .operand

def isDashed (argument : String) : Bool :=
  match argument.toList with
  | '-' :: _ :: _ => true
  | _ => false

inductive Outcome where
  | given (given : Given)
  | help
  | refused

/-- Reads the arguments after the first. A pending option takes the next one
as its value. -/
def collect (form : Form) (pending : Option Setting) (done : Given) : List String → Outcome
  | [] => if pending.isSome then .refused else .given done
  | argument :: rest =>
      match pending with
      | some setting =>
          if isDashed argument then .refused
          else match done.set setting argument with
            | none => .refused
            | some done => collect form none done rest
      | none =>
          match shape form.settings argument with
          | .operand =>
              match done.add form argument with
              | none => .refused
              | some done => collect form none done rest
          | .endOfOptions =>
              match rest.foldlM (Given.add form) done with
              | none => .refused
              | some done => .given done
          | .help => .help
          | .unknown => .refused
          | .option setting none => collect form (some setting) done rest
          | .option setting (some value) =>
              match done.set setting value with
              | none => .refused
              | some done => collect form none done rest

def readValue? {α : Type} (read : String → Option α) (g : Given) (setting : Setting) :
    Option (Option α) :=
  match g.value? setting with
  | none => some none
  | some text => (read text).map some

def command? (name : String) (g : Given) : Option Command := do
  let file ← g.operands.head?
  match name with
  | "parse" => do
      let strategy ← readValue? Strategy.ofOption? g .strategy
      pure (.parse file g.operands.tail.head? (strategy.getD .topDown) (g.value? .start))
  | "generate" => do
      let amount ← readValue? readAmount g .amount
      let seed ← readValue? readSeed g .seed
      pure (.generate file (g.value? .start) (amount.getD 1) seed)
  | "check" => pure (.check file)
  | _ => none

def commands : List (String × Form) :=
  [("parse", ⟨[.strategy, .start], 2⟩), ("generate", ⟨[.start, .amount, .seed], 1⟩),
    ("check", ⟨[], 1⟩)]

/-- Help is there on all commands, or on one. -/
def hasHelp : List String → Bool
  | [] => true
  | [name] => name = "help" || (commands.lookup name).isSome
  | _ => false

def read (arguments : List String) : Option Request :=
  match arguments with
  | [] => none
  | first :: rest =>
      match commands.lookup first with
      | some form =>
          match collect form none {} rest with
          | .given g => (command? first g).map Request.run
          | .help => some .showHelp
          | .refused => none
      | none =>
          match first.toList with
          | '-' :: 'V' :: _ => some .showVersion
          | '-' :: 'h' :: _ => some .showHelp
          | _ =>
              if first = "--version" then some .showVersion
              else if first = "--help" || (first = "help" && hasHelp rest) then some .showHelp
              else none

end Arguments

end PhraseStructure
