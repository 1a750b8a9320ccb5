import RulePlan.Command.Line

/-!
# RulePlan.Command.Help — what a command says about itself

Help on a command is its description and its usage: how it is called, the commands below it, its own
options and those of the program. Options and commands are listed by name, their descriptions in one
column.
-/

namespace RulePlan.Command

namespace Verb

/-- What the command does, in a line. -/
def summary : Verb → String
  | .root => "Datalog to solver IR compiler"
  | .compile => "Compile a rule file and print its plan"
  | .explain => "Show the strata, equations and views of a rule file"
  | .watch => "Recompile a rule file whenever it changes"
  | .cache => "Inspect the artifact cache"
  | .cacheList => "List cached renderings"
  | .cacheRemove => "Remove cached renderings of every format"
  | .init => "Write a default solvergen.yaml"
  | .version => "Print version information"
  | .help => "Help about any command"
  | .completion => "Generate the autocompletion script for the specified shell"

/-- What the command does, at length. -/
def description : Verb → String
  | .root =>
    "solvergen compiles a file of Datalog rules into the intermediate\n"
      ++ "representation used by solver code generators:\n\n"
      ++ "  - rules are stratified so negated predicates are complete before use\n"
      ++ "  - predicates are ordered into seed, derived and recursive blocks\n"
      ++ "  - each rule becomes unary or binary equations over canonical views\n\n"
      ++ "Rules are read one per line. Lines starting with %, # or // are comments."
  | .compile =>
    "Compile reads a rule file and prints the compiled plan.\n\n"
      ++ "The yaml rendering is the document consumed by code generators. The table\n"
      ++ "rendering is the same plan as markdown tables. With a cache directory set,\n"
      ++ "renderings are stored by a hash of the source and options, and unchanged\n"
      ++ "inputs are served from the store.\n\n"
      ++ "Example:\n  solvergen compile ancestors.dl --output anc --format table"
  | .explain =>
    "Explain compiles a rule file and prints the plan as markdown tables:\n"
      ++ "the predicate ordering, then for each stratum its rules, equations and\n"
      ++ "views, then the predicates that must be persisted and why.\n\n"
      ++ "Use --stratum to show a single stratum."
  | .watch =>
    "Watch compiles a rule file, prints the plan, and compiles it again\n"
      ++ "every time the file is saved. Compile errors are logged and watching\n"
      ++ "continues. Stop with Ctrl-C."
  | .help =>
    "Help provides help for any command in the application.\n"
      ++ "Simply type solvergen help [path to command] for full details."
  | .completion =>
    "Generate the autocompletion script for solvergen for the specified shell.\n"
      ++ "See each sub-command's help for details on how to use the generated script."
  | v => v.summary

/-- What a command is given, as its usage shows it; none for a command that only groups others. -/
def parameters? : Verb → Option String
  | .root | .cache | .completion => none
  | .compile | .explain | .watch => some " FILE"
  | .cacheRemove => some " KEY..."
  | .init => some " [DIR]"
  | .help => some " [command]"
  | .cacheList | .version => some ""

/-- The names and summaries of the commands below a command, by name. -/
def index (v : Verb) : List (String × String) :=
  match v with
  | .completion =>
    ["bash", "fish", "powershell", "zsh"].map fun shell =>
      (shell, "Generate the autocompletion script for " ++ shell)
  | _ =>
    (v.children.mergeSort fun a b => !decide (b.name < a.name)).map fun c => (c.name, c.summary)

end Verb

/-! ## Usage -/

/-- A text with spaces after it up to a width. -/
def padTo (width : Nat) (s : String) : String :=
  s ++ String.ofList (List.replicate (width - s.length) ' ')

/-- The noun for the value of an option. -/
def ValueType.noun : ValueType → String
  | .text => " string"
  | .names => " strings"
  | .switch => ""
  | .number => " int"

/-- An option as it is written. -/
def OptionSpec.form (o : OptionSpec) : String :=
  (match o.letter with
    | some c => String.ofList [' ', ' ', '-', c, ',', ' ']
    | none => "      ") ++ "--" ++ o.name ++ o.type.noun

/-- Options by name, one a line. -/
def optionLines (specs : List OptionSpec) : String :=
  let sorted := specs.mergeSort fun a b => !decide (b.name < a.name)
  let width := (sorted.map (·.form.length)).foldl max 0
  "\n".intercalate (sorted.map fun o =>
    padTo width o.form ++ "   " ++ o.about
      ++ (if o.initial = "" then "" else " (default " ++ o.initial ++ ")"))

namespace Verb

/-- The usage of a command; `named` are the options listed as its own. -/
def usage (v : Verb) (named : List OptionSpec) : String :=
  let below := v.index
  "Usage:"
    ++ (match v.parameters? with
      | some given => "\n  " ++ v.path ++ given ++ " [flags]"
      | none => "")
    ++ (if below.isEmpty then ""
      else "\n  " ++ v.path ++ " [command]\n\nAvailable Commands:"
        ++ String.join (below.map fun (name, summary) => "\n  " ++ padTo 11 name ++ " " ++ summary))
    ++ (if named.isEmpty then "" else "\n\nFlags:\n" ++ optionLines named)
    ++ (if v = .root then "" else "\n\nGlobal Flags:\n" ++ optionLines globalOptions)
    ++ (if below.isEmpty then ""
      else "\n\nUse \x22" ++ v.path
        ++ " [command] --help\x22 for more information about a command.")
    ++ "\n"

/-- Help on a command. -/
def helpText (v : Verb) : String :=
  let own := if v = .root then globalOptions else v.ownOptions
  v.description ++ "\n\n" ++ v.usage (v.helpOption :: own)

/-- The command that words ask for help on, if there is one. -/
def topic? (words : List String) : Option Verb :=
  let (v, rest) := find 3 .root words
  if v = .root && !(v.plainWords rest).isEmpty then none else some v

/-- The answer to a question for help on something else. -/
def unknownTopic (words : List String) : String :=
  "Unknown help topic [" ++ " ".intercalate (words.map Text.Quoted.encodeRaw) ++ "]\n"
    ++ Verb.root.usage globalOptions

end Verb

end RulePlan.Command
