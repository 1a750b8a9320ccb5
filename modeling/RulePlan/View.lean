import RulePlan.Term
import RulePlan.Text.LowerCase

/-!
# RulePlan.View — index shapes of consulted predicates, and their names

A consulted atom is looked up through a view: its columns are rearranged so that those fixed by the
driving tuple come first, then those fixed by constants, then the free ones. The arrangement and
the number of fixed columns are the shape of the view. The registry gives each shape of a predicate
one name, `p_view_1`, `p_view_2`, ... in order of first use, and each view one readable alias, made
of the predicate and the arguments in view order. It finds the view of a shape by a key in which the
arrangement is text, and any view by its name.
-/

namespace RulePlan

/-- The declared columns in view order, with the number of leading columns that are fixed. -/
structure Arrangement where
  terms : List Term
  combination : List Nat
  bound : Nat
deriving DecidableEq, Repr

namespace Arrangement

/-- The places of the terms that satisfy a test. -/
def places (test : Term → Bool) (terms : List Term) : List Nat :=
  (terms.zipIdx.filter (test ·.1)).map Prod.snd

/-- Columns first, then constants, then free variables, each group in declared order. -/
def ofTerms (terms : List Term) : Arrangement :=
  let fixed := places Term.isColumn terms ++ places Term.isConstant terms
  let combination := fixed ++ places Term.isFree terms
  ⟨combination.filterMap (terms[·]?), combination, fixed.length⟩

/-- Whether a combination leaves every column in place. -/
def isIdentity (combination : List Nat) : Bool := combination.zipIdx.all fun (c, i) => c == i

end Arrangement

/-- A named index shape over a predicate. -/
structure View where
  name : String
  predicate : String
  combination : List Int
  bound : Nat
deriving DecidableEq, Repr

/-- The declared columns that form the key of a view. -/
def View.key (v : View) : List Int := v.combination.take v.bound

/-- What the registry finds a view by: the predicate, the entries of the combination as text, and
the number of fixed columns. -/
structure ShapeKey where
  predicate : String
  combination : String
  bound : Nat
deriving DecidableEq, Repr

namespace ShapeKey

/-- The entries of a combination in decimal, joined by commas. -/
def combinationText (combination : List Int) : String :=
  ",".intercalate (combination.map Text.Decimal.ofInt)

/-- The key of a shape. -/
def ofShape (predicate : String) (combination : List Int) (bound : Nat) : ShapeKey :=
  ⟨predicate, combinationText combination, bound⟩

end ShapeKey

/-- The key of the shape of a view. -/
def View.shapeKey (v : View) : ShapeKey := .ofShape v.predicate v.combination v.bound

/-- What the registry reports while names are given. -/
inductive ViewNotice where
  | minted (view : View)
  | renamed (plain chosen view : String)
deriving DecidableEq, Repr

/-- The views of a compilation in order of minting, and the alias of each view that has one. -/
structure ViewRegistry where
  views : List View
  aliases : List (String × String)
deriving DecidableEq, Repr

namespace ViewRegistry

/-- No views. -/
def empty : ViewRegistry := ⟨[], []⟩

/-- The views of a predicate, in order of minting. -/
def ofPredicate (r : ViewRegistry) (predicate : String) : List View :=
  r.views.filter (·.predicate == predicate)

/-- The view that a name was last given to. -/
def lookup (r : ViewRegistry) (name : String) : Option View :=
  r.views.reverse.find? (·.name == name)

/-- The view with the key of a shape; under a new key a view is made that gets the next number of
its predicate. -/
def resolve (r : ViewRegistry) (predicate : String) (combination : List Int) (bound : Nat) :
    View × ViewRegistry × List ViewNotice :=
  match r.views.find? (·.shapeKey == .ofShape predicate combination bound) with
  | some v => (v, r, [])
  | none =>
    let number := (r.ofPredicate predicate).length + 1
    let v : View :=
      ⟨predicate ++ "_view_" ++ Text.Decimal.ofNat number, predicate, combination, bound⟩
    (v, { r with views := r.views ++ [v] }, [.minted v])

/-! ## Aliases -/

/-- An argument inside an alias. A negative constant is written `neg` and its negation, which for
the least 64-bit number is that number again. -/
def aliasPart : Argument → String
  | .const v => if v < 0 then "neg" ++ Text.Decimal.ofInt64 (-v) else Text.Decimal.ofInt64 v
  | .var name => Text.LowerCase.ofText name

/-- The argument at a place, if it is the place of one. -/
def argument? (args : List Argument) (place : Int) : Option Argument :=
  if place < 0 then none else args[place.toNat]?

/-- A predicate and arguments, joined by underscores. -/
def aliasText (predicate : String) (arranged : List Argument) : String :=
  "_".intercalate (predicate :: arranged.map aliasPart)

/-- The text of a view as reached through given arguments, which are taken in view order. There is
none if an entry of the combination is not the place of an argument. -/
def aliasText? (v : View) (args : List Argument) : Option String :=
  (v.combination.mapM (argument? args)).map (aliasText v.predicate)

/-- The n-th spelling tried for an alias whose plain form names another view. -/
def variant (base : String) (rule : Int) : Nat → String
  | 0 => base ++ "_r" ++ Text.Decimal.ofInt rule
  | n + 1 => base ++ "_r" ++ Text.Decimal.ofInt rule ++ "_" ++ Text.Decimal.ofNat (n + 2)

/-- The first free spelling from the n-th on. Among `tries` of them, one more than there are taken
names, one is free. -/
def freeVariant (taken : List String) (base : String) (rule : Int) : (tries n : Nat) → String
  | 0, n => variant base rule n
  | tries + 1, n =>
    if variant base rule n ∈ taken then freeVariant taken base rule tries (n + 1)
    else variant base rule n

/-- The alias of a view as reached through given arguments from a rule. A view keeps its first
alias, whatever comes with later calls. A first call without an argument for some column of the view
is refused: there is no text, and the registry stays as it is. -/
def assignAlias (r : ViewRegistry) (v : View) (args : List Argument) (rule : Int) :
    String × ViewRegistry × List ViewNotice :=
  match r.aliases.find? (·.2 == v.name) with
  | some (known, _) => (known, r, [])
  | none =>
    match aliasText? v args with
    | none => ("", r, [])
    | some base =>
      let taken := r.aliases.map Prod.fst
      if base ∈ taken then
        let chosen := freeVariant taken base rule taken.length 0
        (chosen, { r with aliases := r.aliases ++ [(chosen, v.name)] },
          [.renamed base chosen v.name])
      else (base, { r with aliases := r.aliases ++ [(base, v.name)] }, [])

/-- The number of names that were given to views. -/
def size (r : ViewRegistry) : Nat := (r.views.map View.name).eraseDups.length

end ViewRegistry

end RulePlan
