import RulePlan.Command.Option
import RulePlan.Text.LowerCase

/-!
# RulePlan.Command.Line — which command a line asks for

The command is named by the first words that are no options, wherever options stand. Each command
has options and a rule for its arguments; options of the whole program can be given to every
command.
-/

namespace RulePlan.Command

/-- The commands; `root` is none of them, and `cache` only groups its two. -/
inductive Verb where
  | root
  | compile
  | explain
  | watch
  | cache
  | cacheList
  | cacheRemove
  | init
  | version
  | help
  | completion
deriving DecidableEq, Repr

namespace Verb

/-- The name of the program. -/
def program : String := "solvergen"

/-- The name of a command. -/
def name : Verb → String
  | .root => program
  | .compile => "compile"
  | .explain => "explain"
  | .watch => "watch"
  | .cache => "cache"
  | .cacheList => "list"
  | .cacheRemove => "rm"
  | .init => "init"
  | .version => "version"
  | .help => "help"
  | .completion => "completion"

/-- A command with those it belongs to. -/
def path : Verb → String
  | .root => program
  | .cacheList => program ++ " cache list"
  | .cacheRemove => program ++ " cache rm"
  | v => program ++ " " ++ v.name

/-- The commands directly below a command. -/
def children : Verb → List Verb
  | .root => [.compile, .explain, .watch, .cache, .init, .version, .help, .completion]
  | .cache => [.cacheList, .cacheRemove]
  | _ => []

/-- The options of the whole program. -/
def globalOptions : List OptionSpec :=
  [⟨"cache", none, .text, "Artifact cache directory (overrides cache.dir)", ""⟩,
    ⟨"config", some 'c', .text, "Config file path (default: nearest solvergen.yaml)", ""⟩,
    ⟨"log-level", none, .text, "Log level (debug, info, warn, error)", "\x22info\x22"⟩,
    ⟨"verbose", some 'v', .switch, "Print compilation annotations to stderr", ""⟩]

/-- The options of a command alone, by name. -/
def ownOptions (v : Verb) : List OptionSpec :=
  let accumulate : OptionSpec :=
    ⟨"accumulate", none, .switch, "Report every invalid rule instead of stopping at the first", ""⟩
  let output : OptionSpec :=
    ⟨"output", some 'o', .names, "Output predicate (repeatable, overrides compile.outputs)", ""⟩
  match v with
  | .compile | .watch =>
    [accumulate,
      ⟨"format", some 'f', .text, "Rendering: yaml or table (overrides output.format)", ""⟩, output]
  | .explain => [accumulate, output, ⟨"stratum", some 's', .number, "Only show this stratum", "-1"⟩]
  | .cacheList => [⟨"format", some 'f', .text, "Rendering to list: yaml or table", "\x22yaml\x22"⟩]
  | .init => [⟨"force", none, .switch, "Overwrite an existing config", ""⟩]
  | _ => []

/-- The options by which a command is found: its own and those of the program. -/
def options (v : Verb) : List OptionSpec := v.ownOptions ++ globalOptions

/-- The option that asks for help on a command. -/
def helpOption (v : Verb) : OptionSpec := ⟨"help", some 'h', .switch, "help for " ++ v.name, ""⟩

/-- Checks the number of arguments. -/
def checkArguments (v : Verb) (arguments : List String) : Except UsageFault Unit :=
  let n := arguments.length
  match v with
  | .compile | .explain | .watch => if n = 1 then .ok () else .error (.exactArguments 1 n)
  | .init => if n ≤ 1 then .ok () else .error (.mostArguments 1 n)
  | .cacheRemove => if 1 ≤ n then .ok () else .error (.leastArguments 1 n)
  | .cacheList =>
    match arguments with
    | [] => .ok ()
    | a :: _ => .error (.unknownCommand a v.path [])
  | _ => .ok ()

/-! ## Finding the command -/

/-- Whether a word is taken for an option whose value is the next word. -/
def takesNext (v : Verb) (word : String) : Bool :=
  let isSwitch (spec : Option OptionSpec) : Bool := spec.any (·.type == .switch)
  match word.toList with
  | '-' :: '-' :: name =>
    !name.contains '=' && !isSwitch (OptionSpec.find? v.options (String.ofList name))
  | ['-', c] =>
    c != '=' && c.utf8Size == 1 && !isSwitch (OptionSpec.findLetter? v.options c)
  | _ => false

/-- Whether a word looks like an option. -/
def isOption (word : String) : Bool := word.toList.head? == some '-'

/-- The words that are no options or their values. -/
def plainWords (v : Verb) : List String → List String
  | [] => []
  | word :: rest =>
    if word = "--" then []
    else if v.takesNext word then
      match rest with
      | _ :: next :: more => plainWords v (next :: more)
      | _ => []
    else if word ≠ "" && !isOption word then word :: plainWords v rest
    else plainWords v rest

/-- The words without the first plain one equal to a name. -/
def withoutWord (v : Verb) (name : String) : List String → List String
  | [] => []
  | word :: rest =>
    if word = "--" then word :: rest
    else if v.takesNext word then
      match rest with
      | value :: more => word :: value :: withoutWord v name more
      | [] => [word]
    else if !isOption word && word == name then rest
    else word :: withoutWord v name rest

/-- The command that words ask for, with the words that do not name it. -/
def find : (depth : Nat) → Verb → List String → Verb × List String
  | 0, v, line => (v, line)
  | depth + 1, v, line =>
    match plainWords v line with
    | [] => (v, line)
    | word :: _ =>
      match v.children.find? (·.name == word) with
      | some child => find depth child (withoutWord v word line)
      | none => (v, line)

/-! ## Suggestions -/

/-- The next row of the table of edit distances, from the row above and the first entry. -/
def distanceRow (a : UInt8) : (left : Nat) → (above : List Nat) → List UInt8 → List Nat
  | left, up :: corner :: above, b :: bs =>
    let here := if a = b then up else 1 + min up (min left corner)
    here :: distanceRow a here (corner :: above) bs
  | _, _, _ => []

/-- The number of bytes to insert, delete or replace to make one word of another. -/
def distance (a b : List UInt8) : Nat :=
  let first := List.range (b.length + 1)
  let last := (a.zipIdx 1).foldl (fun above (c, i) => i :: distanceRow c i above b) first
  last.getLast?.getD 0

/-- The commands other than help whose names are near to a word or start with it, regardless of
case. -/
def suggestions (word : String) : List String :=
  let lower := (Text.LowerCase.ofText word).toUTF8.toList
  ((Verb.root.children.filter (· != .help)).map name).filter fun n =>
    distance lower n.toUTF8.toList ≤ 2 || lower.isPrefixOf n.toUTF8.toList

end Verb

/-! ## Invocations -/

/-- A command with its options and arguments; `help` says that only help on it is wanted. -/
structure Invocation where
  verb : Verb
  options : Options
  arguments : List String
  help : Bool
deriving DecidableEq, Repr

/-- The invocation that a command line stands for. -/
def Invocation.ofLine (line : List String) : Except UsageFault Invocation :=
  let (verb, words) := Verb.find 3 .root line
  match if verb = .root then verb.plainWords words else [] with
  | word :: _ => .error (.unknownCommand word Verb.program (Verb.suggestions word))
  | [] =>
    match Parsed.ofWords (verb.helpOption :: verb.options) words with
    | .error fault => .error fault
    | .ok p =>
      let help := p.options.help || !verb.children.isEmpty || verb = .completion
      if help then .ok ⟨verb, p.options, p.arguments, true⟩
      else
        match verb.checkArguments p.arguments with
        | .error fault => .error fault
        | .ok () => .ok ⟨verb, p.options, p.arguments, false⟩

end RulePlan.Command
