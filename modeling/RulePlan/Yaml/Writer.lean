import RulePlan.Yaml.Form
import RulePlan.Yaml.Style

/-!
# RulePlan.Yaml.Writer — forms as indented text

Mappings have one entry on a line, lists one item on a line after a dash. What stands below an entry
is indented to the next multiple of the step; what follows a dash starts two columns to its right.
Lists that are empty or inline stand on the line of their key. A text that holds line breaks goes
on, after each, at the column of what stands below its key.
-/

namespace RulePlan.Yaml

namespace Form

/-- A number of spaces. -/
def indentation (n : Nat) : List Char := List.replicate n ' '

/-- The column of what stands below an entry at a column. -/
def deeper (step column : Nat) : Nat := step * ((column + step) / step)

/-- Ends a line, unless it has just ended. -/
def endLine (cs : List Char) : List Char := if cs.getLast?.any isBreak then cs else cs ++ ['\n']

/-- Characters with indentation after line breaks; `fresh` says that a line has just started. -/
def indented (column : Nat) : (fresh : Bool) → List Char → List Char
  | _, [] => []
  | fresh, c :: cs =>
    if isBreak c then c :: indented column true cs
    else (if fresh then indentation column else []) ++ c :: indented column false cs

/-- The sign for the end of a block: a minus if the text has no last line break, a plus if it has
several. -/
def ending (cs : List Char) : List Char :=
  match cs.reverse with
  | a :: b :: _ => if !isBreak a then ['-'] else if isBreak b then ['+'] else []
  | [a] => if isBreak a then ['+'] else ['-']
  | [] => ['-']

/-- A block of lines at a column, with its header. A text that starts with a space or a line break
needs the step in the header; a line break at its start ends the line of the header. -/
def literal (step column : Nat) (cs : List Char) : List Char :=
  let sign := if cs.head?.any fun c => c == ' ' || isBreak c then Text.Decimal.digits step else []
  let body := indented column true cs
  '|' :: sign ++ ending cs ++ (if cs.head?.any isBreak then body else '\n' :: body)

/-- A text as a scalar at a column, up to the end of its line. -/
def scalar (step column : Nat) (s : String) : List Char :=
  let cs := s.toList
  endLine <|
    match Style.ofText s with
    | .plain => cs
    | .single => '\x27' :: indented column false (Style.doubledQuotes cs) ++ ['\x27']
    | .double => Style.doubleQuoted cs
    | .literal => literal step column cs

/-- A text on one line. -/
def onLine (s : String) : List Char :=
  if Style.ofText s = .plain then s.toList else Style.doubleQuoted s.toList

/-- A form on one line. Texts inside a list on one line must be free of its separators. -/
def inlineText : Form → List Char
  | .verbatim s => s.toList
  | .text s => onLine s
  | .list _ _ => ['[', ']']
  | .map _ => ['{', '}']

/-- A list on one line. -/
def inlineList (items : List Form) : List Char :=
  '[' :: List.intercalate [',', ' '] (items.map inlineText) ++ [']']

mutual

/-- What follows the colon of an entry at a column. -/
def afterKey (step column : Nat) : Form → List Char
  | .verbatim s => ' ' :: s.toList ++ ['\n']
  | .text s => ' ' :: scalar step (deeper step column) s
  | .list true items => ' ' :: inlineList items ++ ['\n']
  | .list false [] => ' ' :: inlineList [] ++ ['\n']
  | .list false (item :: items) =>
    '\n' :: indentation (deeper step column) ++ dashed step (deeper step column) (item :: items)
  | .map [] => [' ', '{', '}', '\n']
  | .map (entry :: entries) =>
    '\n' :: indentation (deeper step column) ++ keyed step (deeper step column) (entry :: entries)

/-- What follows the dash of an item; the column is that after the dash and a space. -/
def afterDash (step column : Nat) : Form → List Char
  | .verbatim s => s.toList ++ ['\n']
  | .text s => scalar step column s
  | .list true items => inlineList items ++ ['\n']
  | .list false [] => inlineList [] ++ ['\n']
  | .list false (item :: items) => dashed step column (item :: items)
  | .map [] => ['{', '}', '\n']
  | .map (entry :: entries) => keyed step column (entry :: entries)

/-- The items of a list at a column; the first one starts there without indentation. -/
def dashed (step column : Nat) : List Form → List Char
  | [] => []
  | [item] => '-' :: ' ' :: afterDash step (column + 2) item
  | item :: items =>
    '-' :: ' ' :: afterDash step (column + 2) item ++ indentation column ++ dashed step column items

/-- The entries of a mapping at a column; the first one starts there without indentation. -/
def keyed (step column : Nat) : List (String × Form) → List Char
  | [] => []
  | [(key, value)] => onLine key ++ ':' :: afterKey step column value
  | (key, value) :: entries =>
    onLine key ++ ':' :: afterKey step column value ++ indentation column
      ++ keyed step column entries

end

/-- A form as text with a given step of indentation. -/
def render (step : Nat) (f : Form) : String := String.ofList (afterDash step 0 f)

end Form

end RulePlan.Yaml
