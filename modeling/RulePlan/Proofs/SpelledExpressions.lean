import RulePlan.Proofs.FlaggedVariables
import RulePlan.Proofs.TokenLayout

/-!
# RulePlan.Proofs.SpelledExpressions — two readings of one expression

A rule keeps an expression as tokens and as the text that is written from them. The text is checked
by the reader of expressions, and the tokens are what is rewritten. Nothing in the text comes from
the input: spaces, and the bang for negation, are lost with it. So it has to be shown that the text
still says what the tokens say, wherever in a line the tokens stood.

A scanned token has the value of its kind, and kind and value determine the spelling that is
written. The spelling is read as the token again in front of a space, a parenthesis or a comma, and
there is one wherever the next token starts, unless the token is an opening parenthesis, which no
character makes longer. Both scanners therefore cut the text into the tokens that it was written
from: that of rules into tokens of the same kinds and values, that of expressions into their
lexemes.
-/

namespace RulePlan

namespace Token

/-! ## The values of scanned tokens -/

/-- What bytes are tokenized to ends with the end of input. The tokens before have values of their
kinds. -/
theorem exists_scanned {bytes : List UInt8} {line : Int} {tokens : List Token}
    (h : tokenizeBytes bytes line = .ok tokens) :
    ∃ (scanned : List Token) (col : Int), tokens = scanned ++ [⟨.eof, "", lineNumber line, col⟩]
      ∧ ∀ t ∈ scanned, t.kind.Admits t.value := by
  obtain ⟨-, rfl⟩ := tokenizeBytes_eq_ok_iff.1 h
  exact ⟨_, _, rfl, forall_mem_scan (fun hmunch col => (spelledBy_of_munch hmunch _ col).admits) 1 _⟩

theorem lexical_of_admits {t : Token} (h : t.kind.Admits t.value) : Lexical t := fun _ hrest =>
  (SpelledBy.munch ⟨h, .inl rfl⟩ (hrest.endsBefore _)).1

/-- The text of a token has its value. -/
theorem valueOf_text {t : Token} (h : t.kind.Admits t.value) :
    valueOf t.kind t.text.toList = t.value := by
  have hend : EndsBefore t.text.toList [] := by simp [EndsBefore]
  exact (SpelledBy.munch ⟨h, .inl rfl⟩ hend).2

/-! ## Tokens without their places -/

section Unplaced

variable {ts us : List Token}

/-- What is read off a kind and a text is the same for tokens that differ in their places. -/
theorem map_eq_of_map_unplaced {α : Type} {f : Token → α} (hf : ∀ t, f t.unplaced = f t)
    (h : ts.map unplaced = us.map unplaced) : ts.map f = us.map f := by
  have hall : ∀ l : List Token, (l.map unplaced).map f = l.map f := fun l => by
    rw [List.map_map]
    exact List.map_congr_left fun t _ => hf t
  rw [← hall, h, hall]

theorem ofTokens?_eq_of_map_unplaced (h : ts.map unplaced = us.map unplaced) :
    Expression.ofTokens? ts = Expression.ofTokens? us := by
  rw [← Rule.ofTokens?_map_unplaced, h, Rule.ofTokens?_map_unplaced]

/-- Scanned tokens of the same kinds and texts have the same values. -/
theorem map_parts_eq (hts : ∀ t ∈ ts, t.kind.Admits t.value)
    (hus : ∀ u ∈ us, u.kind.Admits u.value) (h : ts.map unplaced = us.map unplaced) :
    ts.map (fun t => (t.kind, t.value)) = us.map (fun u => (u.kind, u.value)) := by
  have hvalue : ∀ l : List Token, (∀ t ∈ l, t.kind.Admits t.value) →
      l.map (fun t => (t.kind, t.value))
        = l.map fun t => (t.kind, valueOf t.kind t.text.toList) := fun l hl =>
    List.map_congr_left fun t ht => by rw [valueOf_text (hl t ht)]
  rw [hvalue ts hts, hvalue us hus]
  refine map_eq_of_map_unplaced (fun t => ?_) h
  rw [kind_unplaced, text_unplaced]

end Unplaced

/-! ## Written text -/

/-- The text of scanned tokens is tokenized to these tokens, their places aside. -/
theorem tokenize_spell {ts : List Token} (hts : ∀ t ∈ ts, t.kind.Admits t.value) (line : Int) :
    ∃ (again : List Token) (col : Int),
      tokenize (Expression.spell ts) line = .ok (again ++ [⟨.eof, "", lineNumber line, col⟩])
        ∧ (∀ t ∈ again, t.kind.Admits t.value) ∧ again.map unplaced = ts.map unplaced := by
  have hscans : Scans (Expression.spell ts).toList (ts.map unplaced) := by
    simpa using spells_expression (fun t ht => lexical_of_admits (hts t ht)) [] [] scans_nil
      (by simp [Delimited])
  obtain ⟨tokens, htokens, hsame⟩ := hscans.tokenize line
  obtain ⟨again, col, rfl, hagain⟩ := exists_scanned htokens
  rw [List.dropLast_concat] at hsame
  exact ⟨again, col, htokens, hagain, hsame⟩

/-- The reader of expressions cuts the text of an expression into the lexemes of its tokens. -/
theorem ofChars?_source {ts : List Token} (hts : ∀ t ∈ ts, Lexical t) {e : Expression}
    (h : Expression.ofTokens? ts = some e) : ∃ tree, Expression.read? e.source = some tree
      ∧ Expression.Lexeme.ofChars? e.source.toList = some (ts.map Expression.lexeme)
      ∧ e.pieces = ts.map (Expression.Piece.ofToken tree.reads) := by
  obtain ⟨tree, htree, hsource, hpieces⟩ := Expression.exists_tree_of_ofTokens? h
  have hcut := Expression.ofChars?_spell hts
  rw [← hsource] at hcut
  -- a tree was read, so the text was cut and none of the tokens was refused
  obtain ⟨lexemes, hlexemes, -⟩ := Option.bind_eq_some_iff.1 htree
  obtain rfl := Expression.eq_map_lexeme_of_lexemes? (hcut.symm.trans hlexemes)
  exact ⟨tree, htree, hlexemes, hpieces⟩

/-- **The text of an expression and its tokens say the same.** Take tokens that stand next to each
other in any tokenized input. Their text is tokenized, to tokens of the same kinds and values and
the end of input, and these make the same expression. If they make one, the text is its source, and
the tree that is read from the source is read from one lexeme for each token; the pieces that are
rewritten are these tokens too, with the variables of the tree flagged. -/
theorem tokenize_spell_infix {bytes : List UInt8} {line : Int} {tokens ts : List Token}
    (h : tokenizeBytes bytes line = .ok tokens) (hts : ts <:+: tokens.dropLast) (line' : Int) :
    ∃ (again : List Token) (col : Int),
      tokenize (Expression.spell ts) line' = .ok (again ++ [⟨.eof, "", lineNumber line', col⟩])
        ∧ again.map (fun t => (t.kind, t.value)) = ts.map (fun t => (t.kind, t.value))
        ∧ Expression.ofTokens? again = Expression.ofTokens? ts
        ∧ ∀ e, Expression.ofTokens? ts = some e → e.source = Expression.spell ts
          ∧ ∃ tree, Expression.read? e.source = some tree
            ∧ Expression.Lexeme.ofChars? e.source.toList = some (again.map Expression.lexeme)
            ∧ e.pieces = again.map (Expression.Piece.ofToken tree.reads) := by
  obtain ⟨scanned, last, rfl, hscanned⟩ := exists_scanned h
  rw [List.dropLast_concat] at hts
  have hadmits : ∀ t ∈ ts, t.kind.Admits t.value := fun t ht => hscanned t (hts.subset ht)
  obtain ⟨again, col, hagain, hadmitsAgain, hsame⟩ := tokenize_spell hadmits line'
  have hexpression := ofTokens?_eq_of_map_unplaced hsame
  refine ⟨again, col, hagain, map_parts_eq hadmitsAgain hadmits hsame, hexpression, ?_⟩
  intro e he
  obtain ⟨-, -, hsource, -⟩ := Expression.exists_tree_of_ofTokens? he
  refine ⟨hsource, ?_⟩
  exact ofChars?_source (fun t ht => lexical_of_admits (hadmitsAgain t ht)) (hexpression.trans he)

/-- A condition with negation in its short form, a call, and signs that stand close together. -/
theorem tokenize_spell_infix_negation :
    ∃ (tokens ts again : List Token) (col : Int) (e : Expression),
    tokenizeBytes "a(X):-b(X),!c( X ,-1)<=not_2 .".toUTF8.toList 3 = .ok tokens
      ∧ ts <:+: tokens.dropLast
      ∧ tokenize "not c(X, - 1) <= not_2" 1 = .ok (again ++ [⟨.eof, "", 1, col⟩])
      ∧ again.map (fun t => (t.kind, t.value)) = [(.not, ""), (.ident, "c"), (.leftParen, ""),
        (.ident, "X"), (.comma, ""), (.op, "-"), (.int, "1"), (.rightParen, ""), (.op, "<="),
        (.ident, "not_2")]
      ∧ Expression.ofTokens? again = some e ∧ e.source = "not c(X, - 1) <= not_2" := by
  have hread : (tokenizeBytes "a(X):-b(X),!c( X ,-1)<=not_2 .".toUTF8.toList 3).toOption.map
      (fun tokens => decide (Expression.spell (tokens.dropLast.dropLast.drop 10)
          = "not c(X, - 1) <= not_2"
        ∧ (tokens.dropLast.dropLast.drop 10).map (fun t => (t.kind, t.value))
          = [(.not, ""), (.ident, "c"), (.leftParen, ""), (.ident, "X"), (.comma, ""), (.op, "-"),
            (.int, "1"), (.rightParen, ""), (.op, "<="), (.ident, "not_2")]
        ∧ (Expression.ofTokens? (tokens.dropLast.dropLast.drop 10)).isSome)) = some true := by
    decide +kernel
  obtain ⟨tokens, htokens, hreadings⟩ := Rule.map_toOption_eq_some_iff.1 hread
  obtain ⟨hspell, hparts, hsome⟩ := of_decide_eq_true hreadings
  have hinfix : tokens.dropLast.dropLast.drop 10 <:+: tokens.dropLast :=
    (List.drop_suffix 10 _).isInfix.trans (List.dropLast_prefix _).isInfix
  obtain ⟨again, col, hagain, hsame, hexpression, hreading⟩ :=
    tokenize_spell_infix htokens hinfix 1
  obtain ⟨e, he⟩ := Option.isSome_iff_exists.1 hsome
  rw [hspell] at hagain hreading
  exact ⟨tokens, _, again, col, e, htokens, hinfix, hagain, hsame.trans hparts,
    hexpression.trans he, (hreading e he).1⟩

end Token

end RulePlan
