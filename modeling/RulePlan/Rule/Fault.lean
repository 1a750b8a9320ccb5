import RulePlan.Diagnostic
import RulePlan.Text.Quoted
import RulePlan.Token.Lexer

/-!
# RulePlan.Rule.Fault — why a rule line is refused as text

Each constructor is one cause, with what its message shows; `message` is the one place that words
them. All of them are reported in the parse category.
-/

namespace RulePlan.Rule

/-- Causes for which a text is not a rule. -/
inductive Fault where
  | lexical (fault : Token.LexFault)
  | emptyRule
  | unexpectedClose (tok : Token)
  | unclosed (count : Nat)
  | secondSeparator (tok : Token)
  | missingSeparator
  | missingDot
  | strayDot (tok : Token)
  | negatedHead
  | missingHead
  | malformedAtom (tok : Token)
  | emptyBody
  | emptyElement
  | misplacedNegation (tok : Token)
  | anonymousInHead (tok : Token)
  | integerOutOfRange (text : String)
  | emptyArgument
  | badArgument (tok : Token)
  | missingExpression (target : String)
  | badExpression (source : String)
  | unclassified (tok : Token)
  | tooManyPositive (count : Nat)
  | noPredicate
deriving DecidableEq, Repr

/-- The wording of each cause. Why a text is no expression is said in words of the reader of
expressions, which are not reproduced: `<expr>` stands for them, whatever the text is. -/
def Fault.message : Fault → String
  | .lexical fault => fault.message
  | .emptyRule => "empty rule"
  | .unexpectedClose t => "unbalanced parentheses: unexpected ')' at " ++ t.position
  | .unclosed n => "unbalanced parentheses: " ++ Text.Decimal.ofNat n ++ " unclosed '('"
  | .secondSeparator t => "multiple ':-' separators at " ++ t.position
  | .missingSeparator => "missing ':-' separator"
  | .missingDot => "missing terminal '.'"
  | .strayDot t => "unexpected '.' at " ++ t.position
  | .negatedHead => "rule head cannot be negated"
  | .missingHead => "missing rule head"
  | .malformedAtom t => "malformed predicate at " ++ t.position
  | .emptyBody => "rule body is empty"
  | .emptyElement => "empty body element"
  | .misplacedNegation t => "negation must apply to a predicate at " ++ t.position
  | .anonymousInHead t => "anonymous variable in rule head at " ++ t.position
  | .integerOutOfRange text =>
    "invalid integer " ++ text ++ ": strconv.ParseInt: parsing " ++ Text.Quoted.encode text
      ++ ": value out of range"
  | .emptyArgument => "empty argument"
  | .badArgument t => "argument must be a variable or an integer at " ++ t.position
  | .missingExpression target => "assignment to " ++ target ++ " has no expression"
  | .badExpression source => "invalid expression " ++ Text.Quoted.encode source ++ ": <expr>"
  | .unclassified t => "expected predicate, assignment or comparison at " ++ t.position
  | .tooManyPositive n =>
    "more than two non-negated predicates in body (" ++ Text.Decimal.ofNat n ++ ")"
  | .noPredicate => "rule body has no predicate"

/-- A cause as a diagnostic. -/
def Fault.report (fault : Fault) (file : String) (line : Int) : Diagnostic :=
  ⟨file, line, .parse, fault.message⟩

end RulePlan.Rule
