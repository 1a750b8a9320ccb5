import RulePlan.Expression.Numeral

/-!
# RulePlan.Expression.Tree — the meaning structure of arithmetic and comparison expressions

An expression reads variables, applies operators and calls functions. A call names its function;
that name is not a variable of the expression, and neither are the names of members and methods.
Ordering comparisons form chains, `A < B < C`, which stand for the conjunction of their links.
`size` is the number of nodes that the limit on expressions counts.
-/

namespace RulePlan.Expression

/-- An expression tree. -/
inductive Tree where
  | number (value : Numeral)
  | literal (word : String)
  | name (text : String)
  | unary (op : String) (operand : Tree)
  | binary (op : String) (left right : Tree)
  | chain (first : Tree) (links : List (String × Tree))
  | call (function : String) (arguments : List Tree)
  | member (owner : Tree) (name : String)
  | method (owner : Tree) (name : String) (arguments : List Tree)
deriving Repr, Inhabited

/-- Functions whose second argument is a predicate, with the least and the greatest number of
arguments. -/
def quantifiers : List (String × Nat × Nat) :=
  [("all", 2, 2), ("none", 2, 2), ("any", 2, 2), ("one", 2, 2), ("filter", 2, 2), ("map", 2, 2),
    ("find", 2, 2), ("findIndex", 2, 2), ("findLast", 2, 2), ("findLastIndex", 2, 2),
    ("groupBy", 2, 2), ("count", 1, 2), ("sum", 1, 2), ("sortBy", 2, 3), ("reduce", 2, 3)]

/-- Functions that the expression language itself provides, quantifiers aside. -/
def builtins : List String :=
  ["len", "type", "abs", "ceil", "floor", "round", "int", "float", "string", "trim", "trimPrefix",
    "trimSuffix", "upper", "lower", "split", "splitAfter", "replace", "repeat", "join", "indexOf",
    "lastIndexOf", "hasPrefix", "hasSuffix", "max", "min", "mean", "median", "toJSON", "fromJSON",
    "toBase64", "fromBase64", "now", "duration", "date", "timezone", "first", "last", "get", "take",
    "keys", "values", "toPairs", "fromPairs", "reverse", "uniq", "concat", "flatten", "sort",
    "bitand", "bitor", "bitxor", "bitnand", "bitshl", "bitshr", "bitushr", "bitnot"]

/-- The nodes that a call adds to those of its arguments: the call, the predicate of a quantifier,
and the name of a function that the language does not provide. -/
def callSize (function : String) (arguments : Nat) : Nat :=
  if (quantifiers.lookup function).isSome then (if 2 ≤ arguments then 2 else 1)
  else if builtins.contains function then 1 else 2

namespace Tree

mutual

/-- The variables that a tree reads, in order of reading and with repetitions. -/
def reads : Tree → List String
  | .number _ => []
  | .literal _ => []
  | .name text => [text]
  | .unary _ e => e.reads
  | .binary _ l r => l.reads ++ r.reads
  | .chain first links => first.reads ++ readsLinks links
  | .call _ args => readsAll args
  | .member e _ => e.reads
  | .method e _ args => e.reads ++ readsAll args

/-- The variables that the links of a chain read. -/
def readsLinks : List (String × Tree) → List String
  | [] => []
  | (_, e) :: rest => e.reads ++ readsLinks rest

/-- The variables that a list of arguments reads. -/
def readsAll : List Tree → List String
  | [] => []
  | e :: rest => e.reads ++ readsAll rest

end

mutual

/-- The number of nodes. Each link of a chain after the first adds the conjunction with the links
before it. -/
def size : Tree → Nat
  | .number _ => 1
  | .literal _ => 1
  | .name _ => 1
  | .unary _ e => 1 + e.size
  | .binary _ l r => 1 + l.size + r.size
  | .chain first links => first.size + sizeLinks links + (2 * links.length - 1)
  | .call f args => callSize f args.length + sizeAll args
  | .member e _ => 2 + e.size
  | .method e _ args => 3 + e.size + sizeAll args

/-- The nodes of the compared expressions of a chain. -/
def sizeLinks : List (String × Tree) → Nat
  | [] => 0
  | (_, e) :: rest => e.size + sizeLinks rest

/-- The nodes of a list of arguments. -/
def sizeAll : List Tree → Nat
  | [] => 0
  | e :: rest => e.size + sizeAll rest

end

end Tree

end RulePlan.Expression
