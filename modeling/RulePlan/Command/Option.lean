import RulePlan.Text.Comma
import RulePlan.Text.Integer
import RulePlan.Text.Quoted

/-!
# RulePlan.Command.Option — options of the command line

Options have a long name and perhaps a letter. A switch needs no value; the others take theirs from
the same word after an equals sign, or from the next word; after a letter the value may also follow
at once. Letters of switches can be written together. A word of letters is read by bytes, and one
that goes on with `test.` is passed over. Two dashes alone end the options. Words that are no
options are the arguments.
-/

namespace RulePlan.Command

/-- What an option takes. -/
inductive ValueType where
  | text
  | names
  | switch
  | number
deriving DecidableEq, Repr

/-- An option: its names, what it takes, what it is for, and how its value is shown before it is
given. -/
structure OptionSpec where
  name : String
  letter : Option Char
  type : ValueType
  about : String
  initial : String := ""
deriving DecidableEq, Repr

/-- The values of all options. -/
structure Options where
  config : String := ""
  cache : String := ""
  logLevel : String := "info"
  verbose : Bool := false
  outputs : List String := []
  format : String := ""
  accumulate : Bool := false
  stratum : Int := -1
  force : Bool := false
  help : Bool := false
deriving DecidableEq, Repr

namespace OptionSpec

/-- The option as it is named in messages. -/
def title (o : OptionSpec) : String :=
  match o.letter with
  | some c => String.ofList ['-', c, ',', ' ', '-', '-'] ++ o.name
  | none => "--" ++ o.name

/-- The option with a name. -/
def find? (specs : List OptionSpec) (name : String) : Option OptionSpec :=
  specs.find? (·.name == name)

/-- The option with a letter. -/
def findLetter? (specs : List OptionSpec) (letter : Char) : Option OptionSpec :=
  specs.find? (·.letter == some letter)

end OptionSpec

/-- Why a command line is refused. -/
inductive UsageFault where
  | unknownOption (name : String)
  | unknownLetter (letter : UInt8) (word : List Char)
  | missingValue (word : String)
  | missingLetterValue (letter : Char) (word : List Char)
  | badSyntax (word : String)
  | badValue (value : String) (option : OptionSpec) (reason : String)
  | unknownCommand (name path : String) (suggestions : List String)
  | exactArguments (wanted received : Nat)
  | mostArguments (wanted received : Nat)
  | leastArguments (wanted received : Nat)
deriving DecidableEq, Repr

namespace UsageFault

open Text.Decimal in
/-- The wording of each cause. -/
def message : UsageFault → String
  | .unknownOption name => "unknown flag: --" ++ name
  | .unknownLetter letter word =>
    "unknown shorthand flag: " ++ Text.Quoted.encodeSingle (Char.ofNat letter.toNat) ++ " in -"
      ++ String.ofList word
  | .missingValue word => "flag needs an argument: " ++ word
  | .missingLetterValue letter word =>
    "flag needs an argument: " ++ Text.Quoted.encodeSingle letter ++ " in -"
      ++ String.ofList word
  | .badSyntax word => "bad flag syntax: " ++ word
  | .badValue value option reason =>
    "invalid argument " ++ Text.Quoted.encode value ++ " for " ++ Text.Quoted.encode option.title
      ++ " flag: " ++ reason
  | .unknownCommand name path suggestions =>
    "unknown command " ++ Text.Quoted.encode name ++ " for " ++ Text.Quoted.encode path
      ++ (if suggestions.isEmpty then ""
        else "\n\nDid you mean this?\n"
          ++ String.join (suggestions.map fun s => "\t" ++ s ++ "\n"))
  | .exactArguments wanted received =>
    "accepts " ++ ofNat wanted ++ " arg(s), received " ++ ofNat received
  | .mostArguments wanted received =>
    "accepts at most " ++ ofNat wanted ++ " arg(s), received " ++ ofNat received
  | .leastArguments wanted received =>
    "requires at least " ++ ofNat wanted ++ " arg(s), only received " ++ ofNat received

end UsageFault

/-! ## Values -/

/-- The spellings of truth values. -/
def truth? (s : String) : Option Bool :=
  if s ∈ ["1", "t", "T", "TRUE", "true", "True"] then some true
  else if s ∈ ["0", "f", "F", "FALSE", "false", "False"] then some false
  else none

/-- Reads a number, or says why it is none. -/
def readNumber (s : String) : Except String Int :=
  let refuse (why : String) : Except String Int :=
    .error ("strconv.ParseInt: parsing " ++ Text.Quoted.encode s ++ ": " ++ why)
  match Text.Integer.read s with
  | .ok v => .ok v
  | .error .malformed => refuse "invalid syntax"
  | .error .outOfRange => refuse "value out of range"

/-- Sets the option with a name from text, or says why it cannot. -/
def Options.set (o : Options) (name value : String) : Except String Options :=
  let switch (f : Bool → Options) : Except String Options :=
    match truth? value with
    | some b => .ok (f b)
    | none =>
      .error ("strconv.ParseBool: parsing " ++ Text.Quoted.encode value ++ ": invalid syntax")
  match name with
  | "config" => .ok { o with config := value }
  | "cache" => .ok { o with cache := value }
  | "log-level" => .ok { o with logLevel := value }
  | "format" => .ok { o with format := value }
  | "verbose" => switch ({ o with verbose := · })
  | "accumulate" => switch ({ o with accumulate := · })
  | "force" => switch ({ o with force := · })
  | "help" => switch ({ o with help := · })
  | "output" =>
    match Text.Comma.read value with
    | .ok names => .ok { o with outputs := o.outputs ++ names }
    | .error fault => .error fault.message
  | "stratum" => (readNumber value).map ({ o with stratum := · })
  | _ => .ok o

/-! ## Parsing -/

/-- A command line taken apart. -/
structure Parsed where
  options : Options := {}
  arguments : List String := []
deriving DecidableEq, Repr

namespace Parsed

/-- Sets an option. -/
def set (p : Parsed) (spec : OptionSpec) (value : String) : Except UsageFault Parsed :=
  match p.options.set spec.name value with
  | .ok options => .ok { p with options }
  | .error reason => .error (.badValue value spec reason)

/-- Takes in a long option, with the words after it; the result has those not used. -/
def long (specs : List OptionSpec) (p : Parsed) (word : String) (rest : List String) :
    Except UsageFault (Parsed × List String) :=
  let body := word.toList.drop 2
  let name := String.ofList (body.takeWhile (· != '='))
  let value := (body.dropWhile (· != '=')).drop 1
  if body.isEmpty || body.head? == some '-' || body.head? == some '=' then .error (.badSyntax word)
  else
    match OptionSpec.find? specs name with
    | none => .error (.unknownOption name)
    | some spec =>
      if body.contains '=' then (p.set spec (String.ofList value)).map (·, rest)
      else if spec.type = .switch then (p.set spec "true").map (·, rest)
      else
        match rest with
        | [] => .error (.missingValue word)
        | v :: rest => (p.set spec v).map (·, rest)

/-- Takes in letters, with the words after them; the result has those not used. -/
def letters (specs : List OptionSpec) (p : Parsed) (rest : List String) :
    List Char → Except UsageFault (Parsed × List String)
  | [] => .ok (p, rest)
  | c :: cs =>
    if "test.".toList.isPrefixOf (c :: cs) then .ok (p, rest)
    else
      match OptionSpec.findLetter? specs c with
      | none => .error (.unknownLetter ((String.utf8EncodeChar c).headD 0) (c :: cs))
      | some spec =>
        if cs.head? == some '=' && 1 < cs.length then
          (p.set spec (String.ofList (cs.drop 1))).map (·, rest)
        else if spec.type = .switch then
          match p.set spec "true" with
          | .ok p => letters specs p rest cs
          | .error fault => .error fault
        else if !cs.isEmpty then (p.set spec (String.ofList cs)).map (·, rest)
        else
          match rest with
          | [] => .error (.missingLetterValue c (c :: cs))
          | v :: rest => (p.set spec v).map (·, rest)

/-- Takes in the words of a command line. Every step uses a word, so the fuel, their number,
suffices. -/
def words (specs : List OptionSpec) : (fuel : Nat) → Parsed → List String → Except UsageFault Parsed
  | 0, p, _ => .ok p
  | _, p, [] => .ok p
  | fuel + 1, p, word :: rest =>
    if word = "--" then .ok { p with arguments := p.arguments ++ rest }
    else
      let step : Except UsageFault (Parsed × List String) :=
        match word.toList with
        | '-' :: '-' :: _ => long specs p word rest
        | '-' :: c :: cs => letters specs p rest (c :: cs)
        | _ => .ok ({ p with arguments := p.arguments ++ [word] }, rest)
      match step with
      | .error fault => .error fault
      | .ok (p, rest) => words specs fuel p rest

/-- Takes apart the words of a command line. -/
def ofWords (specs : List OptionSpec) (line : List String) : Except UsageFault Parsed :=
  words specs line.length {} line

end Parsed

end RulePlan.Command
