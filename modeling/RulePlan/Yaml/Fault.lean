import RulePlan.Text.Decimal

/-!
# RulePlan.Yaml.Fault — why a text is no tree

A fault has a cause and, where one is known, the line it is reported for: that of the start of the
construct at fault, or that of the place where the fault was seen. The first line has no number, so
a fault there is reported without a line.
-/

namespace RulePlan.Yaml

/-- Causes for which a text is no tree. -/
inductive Problem where
  | control
  | missingColon
  | tooDeep
  | strayCharacter
  | strayEntry
  | strayKey
  | strayValue
  | unknownDirective
  | missingLineEnd
  | missingDirectiveName
  | badDirectiveName
  | missingVersionPoint
  | longVersion
  | missingVersion
  | missingBlank
  | missingBlankOrLineEnd
  | badAnchor
  | unclosedTag
  | missingExclamation
  | missingTag
  | badTagEscape
  | zeroIndentation
  | tabInBlock
  | documentInQuotes
  | unclosedQuotes
  | unknownEscape
  | badEscapeDigits
  | badEscapeCode
  | tabInPlain
  | incompatible
  | repeatedVersion
  | repeatedTag
  | missingDocumentStart
  | undefinedTag
  | missingContent
  | missingDash
  | missingKey
  | missingCommaOrBracket
  | missingCommaOrBrace
  | unknownAnchor (name : String)
deriving DecidableEq, Repr

/-- The wording of each cause. -/
def Problem.message : Problem → String
  | .control => "control characters are not allowed"
  | .missingColon => "could not find expected ':'"
  | .tooDeep => "exceeded max depth of 10000"
  | .strayCharacter => "found character that cannot start any token"
  | .strayEntry => "block sequence entries are not allowed in this context"
  | .strayKey => "mapping keys are not allowed in this context"
  | .strayValue => "mapping values are not allowed in this context"
  | .unknownDirective => "found unknown directive name"
  | .missingLineEnd => "did not find expected comment or line break"
  | .missingDirectiveName => "could not find expected directive name"
  | .badDirectiveName => "found unexpected non-alphabetical character"
  | .missingVersionPoint => "did not find expected digit or '.' character"
  | .longVersion => "found extremely long version number"
  | .missingVersion => "did not find expected version number"
  | .missingBlank => "did not find expected whitespace"
  | .missingBlankOrLineEnd => "did not find expected whitespace or line break"
  | .badAnchor => "did not find expected alphabetic or numeric character"
  | .unclosedTag => "did not find the expected '>'"
  | .missingExclamation => "did not find expected '!'"
  | .missingTag => "did not find expected tag URI"
  | .badTagEscape => "did not find URI escaped octet"
  | .zeroIndentation => "found an indentation indicator equal to 0"
  | .tabInBlock => "found a tab character where an indentation space is expected"
  | .documentInQuotes => "found unexpected document indicator"
  | .unclosedQuotes => "found unexpected end of stream"
  | .unknownEscape => "found unknown escape character"
  | .badEscapeDigits => "did not find expected hexdecimal number"
  | .badEscapeCode => "found invalid Unicode character escape code"
  | .tabInPlain => "found a tab character that violates indentation"
  | .incompatible => "found incompatible YAML document"
  | .repeatedVersion => "found duplicate %YAML directive"
  | .repeatedTag => "found duplicate %TAG directive"
  | .missingDocumentStart => "did not find expected <document start>"
  | .undefinedTag => "found undefined tag handle"
  | .missingContent => "did not find expected node content"
  | .missingDash => "did not find expected '-' indicator"
  | .missingKey => "did not find expected key"
  | .missingCommaOrBracket => "did not find expected ',' or ']'"
  | .missingCommaOrBrace => "did not find expected ',' or '\x7d'"
  | .unknownAnchor name => "unknown anchor '" ++ name ++ "' referenced"

/-- A cause with the line it is reported for. -/
structure Fault where
  problem : Problem
  line : Option Nat := none
deriving DecidableEq, Repr

namespace Fault

/-- A fault in the characters of a construct that starts on one line, seen on another; lines are
counted from zero. -/
def inText (problem : Problem) (start seen : Nat) : Fault :=
  { problem
    line := if start ≠ 0 then some (start + 1) else if seen ≠ 0 then some (seen + 1) else none }

/-- A fault in the order of tokens; lines are counted from zero. -/
def inOrder (problem : Problem) (start seen : Nat) : Fault :=
  { problem, line := if start ≠ 0 then some start else if seen ≠ 0 then some seen else none }

/-- The wording of a fault. -/
def message (f : Fault) : String :=
  match f.line with
  | some n => "yaml: line " ++ Text.Decimal.ofNat n ++ ": " ++ f.problem.message
  | none => "yaml: " ++ f.problem.message

end Fault

end RulePlan.Yaml
