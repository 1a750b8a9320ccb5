import RulePlan.Expression

/-!
# RulePlan.Proofs.ExpressionReading — the identifiers of a tree in its text

An identifier of an expression is read as a variable or as the function of a call. Which of the two
can be told from the text alone: a function has an opening parenthesis right behind its name. Words
that are constants and the names of members are neither. The identifiers of a tree, from left to
right, are those of the text it was read from, in the same order and with the same roles. The
functions of the reader are mutual, and each takes a part of the text off the front; so the
identifiers of what it takes are put in front of those of the rest, with one case per function.
-/

namespace RulePlan.Expression

/-! ## Identifiers of trees -/

/-- What an identifier is read as. -/
inductive Role where
  | var
  | callee
deriving DecidableEq, Repr

/-- The identifiers with the role of a variable. -/
def varNames (ids : List (String × Role)) : List String :=
  (ids.filter (·.2 == .var)).map Prod.fst

theorem varNames_append (ids more : List (String × Role)) :
    varNames (ids ++ more) = varNames ids ++ varNames more := by
  rw [varNames, List.filter_append, List.map_append]
  rfl

theorem mem_varNames {ids : List (String × Role)} {x : String} :
    x ∈ varNames ids ↔ (x, .var) ∈ ids := by
  simp [varNames]

namespace Tree

mutual

/-- The identifiers of a tree from left to right, each with its role. -/
def identifiers : Tree → List (String × Role)
  | .number _ => []
  | .literal _ => []
  | .name text => [(text, .var)]
  | .unary _ e => e.identifiers
  | .binary _ l r => l.identifiers ++ r.identifiers
  | .chain first links => first.identifiers ++ identifiersLinks links
  | .call f args => (f, .callee) :: identifiersAll args
  | .member e _ => e.identifiers
  | .method e _ args => e.identifiers ++ identifiersAll args

/-- The identifiers of the links of a chain. -/
def identifiersLinks : List (String × Tree) → List (String × Role)
  | [] => []
  | (_, e) :: rest => e.identifiers ++ identifiersLinks rest

/-- The identifiers of a list of arguments. -/
def identifiersAll : List Tree → List (String × Role)
  | [] => []
  | e :: rest => e.identifiers ++ identifiersAll rest

end

mutual

/-- A tree reads its identifiers that are variables. -/
theorem reads_eq : (e : Tree) → e.reads = varNames e.identifiers
  | .number _ => rfl
  | .literal _ => rfl
  | .name _ => rfl
  | .unary _ e => reads_eq e
  | .binary _ l r => by
    rw [reads, identifiers, varNames_append, reads_eq l, reads_eq r]
  | .chain first links => by
    rw [reads, identifiers, varNames_append, reads_eq first, readsLinks_eq links]
  | .call _ args => readsAll_eq args
  | .member e _ => reads_eq e
  | .method e _ args => by
    rw [reads, identifiers, varNames_append, reads_eq e, readsAll_eq args]

theorem readsLinks_eq : (links : List (String × Tree)) →
    readsLinks links = varNames (identifiersLinks links)
  | [] => rfl
  | (_, e) :: rest => by
    rw [readsLinks, identifiersLinks, varNames_append, reads_eq e, readsLinks_eq rest]

theorem readsAll_eq : (args : List Tree) → readsAll args = varNames (identifiersAll args)
  | [] => rfl
  | e :: rest => by
    rw [readsAll, identifiersAll, varNames_append, reads_eq e, readsAll_eq rest]

end

end Tree

/-! ## Identifiers of texts -/

/-- The identifier that a lexeme is in front of another, if it is one. -/
def Lexeme.identifier? (t : Lexeme) (next : Option Lexeme) : Option (String × Role) :=
  match t with
  | .name s =>
    if literals.contains s then none
    else some (s, if next = some .leftParen then .callee else .var)
  | _ => none

/-- The identifiers of a text from left to right. What stands behind a point is a member and no
identifier. -/
def identifiers (behindPoint : Bool) : List Lexeme → List (String × Role)
  | [] => []
  | t :: ts =>
    (if behindPoint then [] else (t.identifier? ts.head?).toList)
      ++ identifiers (!behindPoint && t == .op ".") ts

theorem identifiers_op {s : String} (hs : s ≠ ".") (ts : List Lexeme) :
    identifiers false (.op s :: ts) = identifiers false ts := by
  have hpoint : (Lexeme.op s == .op ".") = false := by simpa using hs
  rw [identifiers, hpoint]
  rfl

theorem identifiers_point (t : Lexeme) (ts : List Lexeme) :
    identifiers false (.op "." :: t :: ts) = identifiers false ts := rfl

theorem identifiers_leftParen (ts : List Lexeme) :
    identifiers false (.leftParen :: ts) = identifiers false ts := rfl

theorem identifiers_rightParen (ts : List Lexeme) :
    identifiers false (.rightParen :: ts) = identifiers false ts := rfl

theorem identifiers_literal {s : String} (hs : literals.contains s = true) (ts : List Lexeme) :
    identifiers false (.name s :: ts) = identifiers false ts := by
  rw [identifiers, Lexeme.identifier?, if_pos hs]
  rfl

theorem identifiers_callee {s : String} (hs : ¬literals.contains s = true) (ts : List Lexeme) :
    identifiers false (.name s :: .leftParen :: ts) = (s, .callee) :: identifiers false ts := by
  rw [identifiers, Lexeme.identifier?, if_neg hs]
  rfl

theorem identifiers_variable {s : String} (hs : ¬literals.contains s = true) {ts : List Lexeme}
    (hts : ts.head? ≠ some .leftParen) :
    identifiers false (.name s :: ts) = (s, .var) :: identifiers false ts := by
  rw [identifiers, Lexeme.identifier?, if_neg hs, if_neg hts]
  rfl

/-! ## Reading -/

/-- With some number of steps, the functions of the reader keep identifiers: those of the text they
are given are those of what they read and those of the text they leave. -/
structure Keeps (n : Nat) : Prop where
  expression : ∀ {level ts e rest}, expression n level ts = some (e, rest) →
    identifiers false ts = e.identifiers ++ identifiers false rest
  primary : ∀ {ts e rest}, primary n ts = some (e, rest) →
    identifiers false ts = e.identifiers ++ identifiers false rest
  members : ∀ {owner ts e rest}, members n owner ts = some (e, rest) →
    owner.identifiers ++ identifiers false ts = e.identifiers ++ identifiers false rest
  operators : ∀ {level left ts e rest}, operators n level left ts = some (e, rest) →
    left.identifiers ++ identifiers false ts = e.identifiers ++ identifiers false rest
  links : ∀ {level ts es rest}, links n level ts = some (es, rest) →
    identifiers false ts = Tree.identifiersLinks es ++ identifiers false rest
  arguments : ∀ {first ts es rest}, arguments n first ts = some (es, rest) →
    identifiers false ts = Tree.identifiersAll es ++ identifiers false rest
  quantified : ∀ {read least most ts es rest}, quantified n read least most ts = some (es, rest) →
    identifiers false ts = Tree.identifiersAll es ++ identifiers false rest

/-- A point is no operator, in front of an operand or between two. -/
theorem ne_point_of_unaryLevel {s : String} {level : Nat} (h : unaryLevel? s = some level) :
    s ≠ "." := by
  rintro rfl
  cases h

theorem ne_point_of_binaryLevel {s : String} {level : Nat} (h : binaryLevel? s = some level) :
    s ≠ "." := by
  rintro rfl
  cases h

theorem ne_point_of_orderings {s : String} (h : orderings.contains s = true) : s ≠ "." := by
  rintro rfl
  cases h

section Steps

variable {n : Nat} (h : Keeps n)

include h

theorem Keeps.expression_succ {level : Nat} {ts rest : List Lexeme} {e : Tree}
    (hread : Expression.expression (n + 1) level ts = some (e, rest)) :
    identifiers false ts = e.identifiers ++ identifiers false rest := by
  rw [Expression.expression] at hread
  split at hread
  · cases hread
  · obtain ⟨⟨left, more⟩, hleft, hmore⟩ := Option.bind_eq_some_iff.1 hread
    rw [h.primary hleft, h.operators hmore]

theorem Keeps.primary_succ {ts rest : List Lexeme} {e : Tree}
    (hread : Expression.primary (n + 1) ts = some (e, rest)) :
    identifiers false ts = e.identifiers ++ identifiers false rest := by
  unfold Expression.primary at hread
  split at hread
  case h_1 => cases hread
  case h_2 m s ts heq =>
    obtain rfl := Nat.succ.inj heq
    obtain ⟨level, hlevel, hread⟩ := Option.bind_eq_some_iff.1 hread
    obtain ⟨⟨operand, more⟩, hoperand, hread⟩ := Option.bind_eq_some_iff.1 hread
    obtain ⟨rfl, rfl⟩ := Prod.mk.inj (Option.some.inj hread)
    rw [identifiers_op (ne_point_of_unaryLevel hlevel), h.expression hoperand]
    rfl
  case h_3 m ts heq =>
    obtain rfl := Nat.succ.inj heq
    split at hread
    case h_1 inner more hinner =>
      rw [identifiers_leftParen, h.expression hinner, identifiers_rightParen, h.members hread]
    case h_2 => cases hread
  case h_4 m text ts heq =>
    obtain ⟨v, -, hread⟩ := Option.bind_eq_some_iff.1 hread
    obtain ⟨rfl, rfl⟩ := Prod.mk.inj (Option.some.inj hread)
    rfl
  case h_5 m s ts heq =>
    obtain rfl := Nat.succ.inj heq
    split at hread
    case isTrue hliteral =>
      obtain ⟨rfl, rfl⟩ := Prod.mk.inj (Option.some.inj hread)
      exact identifiers_literal hliteral _
    case isFalse hliteral =>
      have hargs : ∃ args more,
          identifiers false ts = Tree.identifiersAll args ++ identifiers false more
            ∧ Expression.members n (.call s args) more = some (e, rest) := by
        dsimp only at hread
        split at hread
        · obtain ⟨⟨args, more⟩, hargs, hread⟩ := Option.bind_eq_some_iff.1 hread
          exact ⟨args, more, h.quantified hargs, hread⟩
        · obtain ⟨⟨args, more⟩, hargs, hread⟩ := Option.bind_eq_some_iff.1 hread
          exact ⟨args, more, h.arguments hargs, hread⟩
      obtain ⟨args, more, hargs, hread⟩ := hargs
      rw [identifiers_callee hliteral, hargs, ← h.members hread]
      rfl
  case h_6 m s ts hnext heq =>
    obtain rfl := Nat.succ.inj heq
    split at hread
    case isTrue hliteral =>
      obtain ⟨rfl, rfl⟩ := Prod.mk.inj (Option.some.inj hread)
      exact identifiers_literal hliteral _
    case isFalse hliteral =>
      have hhead : ts.head? ≠ some .leftParen := by
        intro hhead
        obtain ⟨more, hmore⟩ := List.head?_eq_some_iff.1 hhead
        exact hnext more hmore
      rw [identifiers_variable hliteral hhead, ← h.members hread]
      rfl
  case h_7 => cases hread
  case h_8 => cases hread

theorem Keeps.members_succ {owner e : Tree} {ts rest : List Lexeme}
    (hread : Expression.members (n + 1) owner ts = some (e, rest)) :
    owner.identifiers ++ identifiers false ts = e.identifiers ++ identifiers false rest := by
  unfold Expression.members at hread
  split at hread
  case h_1 => cases hread
  case h_2 owner m t ts heq =>
    obtain rfl := Nat.succ.inj heq
    rw [identifiers_point]
    obtain ⟨name, -, hread⟩ := Option.bind_eq_some_iff.1 hread
    split at hread
    case h_1 ts =>
      obtain ⟨⟨args, more⟩, hargs, hread⟩ := Option.bind_eq_some_iff.1 hread
      rw [identifiers_leftParen, h.arguments hargs, ← h.members hread, Tree.identifiers,
        List.append_assoc]
    case h_2 =>
      rw [← h.members hread]
      rfl
  case h_3 => cases hread
  case h_4 =>
    obtain ⟨rfl, rfl⟩ := Prod.mk.inj (Option.some.inj hread)
    rfl

theorem Keeps.operators_succ {level : Nat} {left e : Tree} {ts rest : List Lexeme}
    (hread : Expression.operators (n + 1) level left ts = some (e, rest)) :
    left.identifiers ++ identifiers false ts = e.identifiers ++ identifiers false rest := by
  unfold Expression.operators at hread
  split at hread
  case h_1 => cases hread
  case h_2 m ts heq =>
    obtain rfl := Nat.succ.inj heq
    split at hread
    case h_2 => cases hread
    case h_1 s ts =>
      split at hread
      case isFalse => cases hread
      case isTrue =>
        split at hread
        case h_2 => cases hread
        case h_1 q hq =>
          split at hread
          case isTrue =>
            obtain ⟨rfl, rfl⟩ := Prod.mk.inj (Option.some.inj hread)
            rfl
          case isFalse =>
            obtain ⟨⟨right, more⟩, hright, hread⟩ := Option.bind_eq_some_iff.1 hread
            rw [identifiers_op (by decide), identifiers_op (ne_point_of_binaryLevel hq),
              h.expression hright, ← h.operators hread, Tree.identifiers, Tree.identifiers,
              List.append_assoc]
  case h_3 m s ts _ heq =>
    obtain rfl := Nat.succ.inj heq
    split at hread
    case h_2 =>
      obtain ⟨rfl, rfl⟩ := Prod.mk.inj (Option.some.inj hread)
      rfl
    case h_1 q hq =>
      split at hread
      case isTrue =>
        obtain ⟨rfl, rfl⟩ := Prod.mk.inj (Option.some.inj hread)
        rfl
      case isFalse =>
        obtain ⟨⟨right, more⟩, hright, hread⟩ := Option.bind_eq_some_iff.1 hread
        rw [identifiers_op (ne_point_of_binaryLevel hq), h.expression hright]
        dsimp only at hread
        split at hread
        case isTrue =>
          obtain ⟨⟨others, last⟩, hothers, hread⟩ := Option.bind_eq_some_iff.1 hread
          rw [h.links hothers, ← h.operators hread, Tree.identifiers, Tree.identifiersLinks]
          simp only [List.append_assoc]
        case isFalse => rw [← h.operators hread, Tree.identifiers, List.append_assoc]
  case h_4 =>
    obtain ⟨rfl, rfl⟩ := Prod.mk.inj (Option.some.inj hread)
    rfl

theorem Keeps.links_succ {level : Nat} {ts rest : List Lexeme} {es : List (String × Tree)}
    (hread : Expression.links (n + 1) level ts = some (es, rest)) :
    identifiers false ts = Tree.identifiersLinks es ++ identifiers false rest := by
  unfold Expression.links at hread
  split at hread
  case h_1 => cases hread
  case h_2 m s ts heq =>
    obtain rfl := Nat.succ.inj heq
    split at hread
    case isTrue hs =>
      obtain ⟨⟨right, more⟩, hright, hread⟩ := Option.bind_eq_some_iff.1 hread
      obtain ⟨⟨others, last⟩, hothers, hread⟩ := Option.bind_eq_some_iff.1 hread
      obtain ⟨rfl, rfl⟩ := Prod.mk.inj (Option.some.inj hread)
      rw [identifiers_op (ne_point_of_orderings hs), h.expression hright, h.links hothers,
        Tree.identifiersLinks, List.append_assoc]
    case isFalse =>
      obtain ⟨rfl, rfl⟩ := Prod.mk.inj (Option.some.inj hread)
      rfl
  case h_3 =>
    obtain ⟨rfl, rfl⟩ := Prod.mk.inj (Option.some.inj hread)
    rfl

/-- An argument in front of others. -/
theorem Keeps.cons_argument {ts more rest : List Lexeme} {e : Tree} {es : List Tree}
    (hfirst : Expression.expression n 0 ts = some (e, more))
    (hothers : identifiers false more = Tree.identifiersAll es ++ identifiers false rest) :
    identifiers false ts = Tree.identifiersAll (e :: es) ++ identifiers false rest := by
  rw [h.expression hfirst, hothers, Tree.identifiersAll, List.append_assoc]

theorem Keeps.arguments_succ {first : Bool} {ts rest : List Lexeme} {es : List Tree}
    (hread : Expression.arguments (n + 1) first ts = some (es, rest)) :
    identifiers false ts = Tree.identifiersAll es ++ identifiers false rest := by
  unfold Expression.arguments at hread
  split at hread
  case h_1 => cases hread
  case h_2 =>
    obtain ⟨rfl, rfl⟩ := Prod.mk.inj (Option.some.inj hread)
    rfl
  case h_3 heq _ =>
    obtain rfl := Nat.succ.inj heq
    obtain ⟨⟨e, more⟩, he, hread⟩ := Option.bind_eq_some_iff.1 hread
    obtain ⟨⟨others, last⟩, hothers, hread⟩ := Option.bind_eq_some_iff.1 hread
    obtain ⟨rfl, rfl⟩ := Prod.mk.inj (Option.some.inj hread)
    exact h.cons_argument he (h.arguments hothers)
  case h_4 =>
    obtain ⟨rfl, rfl⟩ := Prod.mk.inj (Option.some.inj hread)
    rfl
  case h_5 heq =>
    obtain rfl := Nat.succ.inj heq
    obtain ⟨⟨e, more⟩, he, hread⟩ := Option.bind_eq_some_iff.1 hread
    obtain ⟨⟨others, last⟩, hothers, hread⟩ := Option.bind_eq_some_iff.1 hread
    obtain ⟨rfl, rfl⟩ := Prod.mk.inj (Option.some.inj hread)
    rw [identifiers_op (by decide)]
    exact h.cons_argument he (h.arguments hothers)
  case h_6 => cases hread

theorem Keeps.quantified_succ {read least most : Nat} {ts rest : List Lexeme} {es : List Tree}
    (hread : Expression.quantified (n + 1) read least most ts = some (es, rest)) :
    identifiers false ts = Tree.identifiersAll es ++ identifiers false rest := by
  unfold Expression.quantified at hread
  dsimp only at hread
  split at hread
  case isTrue =>
    split at hread
    case h_1 =>
      obtain ⟨rfl, rfl⟩ := Prod.mk.inj (Option.some.inj hread)
      rfl
    case h_2 =>
      obtain ⟨rfl, rfl⟩ := Prod.mk.inj (Option.some.inj hread)
      rfl
    case h_3 => cases hread
  case isFalse =>
    split at hread
    case h_1 =>
      split at hread
      case isTrue =>
        obtain ⟨rfl, rfl⟩ := Prod.mk.inj (Option.some.inj hread)
        rfl
      case isFalse => cases hread
    case h_2 ts _ _ start hstart =>
      obtain ⟨⟨e, more⟩, he, hread⟩ := Option.bind_eq_some_iff.1 hread
      obtain ⟨⟨others, last⟩, hothers, hread⟩ := Option.bind_eq_some_iff.1 hread
      obtain ⟨rfl, rfl⟩ := Prod.mk.inj (Option.some.inj hread)
      -- a comma in front of the next argument is no identifier
      have hsame : identifiers false ts = identifiers false start := by
        split at hstart
        · rw [Option.some.inj hstart]
        · rw [identifiers_op (by decide), Option.some.inj hstart]
        · cases hstart
      rw [hsame]
      exact h.cons_argument he (h.quantified hothers)
    case h_3 => cases hread

end Steps

theorem keeps (n : Nat) : Keeps n := by
  induction n with
  | zero =>
    -- without steps nothing is read
    exact
      { expression := fun h => by unfold Expression.expression at h; cases h
        primary := fun h => by unfold Expression.primary at h; cases h
        members := fun h => by unfold Expression.members at h; cases h
        operators := fun h => by unfold Expression.operators at h; cases h
        links := fun h => by unfold Expression.links at h; cases h
        arguments := fun h => by unfold Expression.arguments at h; cases h
        quantified := fun h => by unfold Expression.quantified at h; cases h }
  | succ n ih =>
    exact
      { expression := ih.expression_succ
        primary := ih.primary_succ
        members := ih.members_succ
        operators := ih.operators_succ
        links := ih.links_succ
        arguments := ih.arguments_succ
        quantified := ih.quantified_succ }

/-- The identifiers of a tree are those of the text that it was read from. -/
theorem identifiers_of_read {text : String} {lexemes : List Lexeme} {tree : Tree}
    (hlexemes : Lexeme.ofChars? text.toList = some lexemes) (h : read? text = some tree) :
    identifiers false lexemes = tree.identifiers := by
  unfold read? at h
  rw [hlexemes, Option.bind_eq_bind, Option.bind_some] at h
  split at h
  case h_1 e hread =>
    split at h
    case isTrue =>
      obtain rfl := Option.some.inj h
      rw [(keeps _).expression hread]
      exact List.append_nil _
    case isFalse => cases h
  case h_2 => cases h

end RulePlan.Expression
