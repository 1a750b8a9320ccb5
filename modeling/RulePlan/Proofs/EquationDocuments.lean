import RulePlan.Document
import RulePlan.Proofs.LegibleRule
import RulePlan.Proofs.PlannedRules
import RulePlan.Proofs.RenderedTerms

/-!
# RulePlan.Proofs.EquationDocuments — the document of an equation determines it

The document flattens terms, selections and negated atoms to one line each, leaves out the driving
arguments, and has the consulted ones in view order only. Nothing is lost by this but the pieces of
condition and assignment. One-line forms can be read back, because variables and predicates have
names of the language. Each driving column is described exactly once, as the place of a variable, or
by a selection to a constant or to the place of a variable, and either tells the argument. The terms
of a view with their combination are the consulted terms with their places, in another order.
-/

namespace RulePlan

open Grammar

/-! ## Names in rules -/

namespace Grammar

theorem namedAtom_of_mem_denoteBody {es : List ElementForm} (h : ∀ e ∈ es, IsScanned e.tokens)
    (n : Nat) : ∀ l : Literal, .literal l ∈ denoteBody n es → NamedAtom l.atom := by
  induction es generalizing n with
  | nil => exact fun _ hl => absurd hl List.not_mem_nil
  | cons e es ih =>
    obtain ⟨he, hes⟩ := List.forall_mem_cons.1 h
    intro l hl
    rcases List.mem_cons.1 hl with hfirst | hrest
    · cases e with
      | literal negated atom =>
        obtain rfl := Element.literal.inj hfirst
        exact namedAtom_denote (he.mono fun t ht => List.mem_append_right _ ht) n
      | assign target value => cases hfirst
      | test condition => cases hfirst
    · exact ih hes _ l hrest

end Grammar

/-- The atoms of a rule that is read from a line have names of the language. -/
theorem SourceLine.Reads.namedAtoms {l : SourceLine} {r : Rule} (h : l.Reads r) :
    ∀ a ∈ r.atoms, NamedAtom a := by
  obtain ⟨form, ⟨tokens, htokens, hform, -⟩, rfl⟩ := Rule.read_eq_ok_iff.1 h
  have hscanned : IsScanned form.tokens := hform ▸ Rule.isScanned_of_tokenize htokens
  intro a ha
  rcases List.mem_cons.1 ha with rfl | ha
  · exact namedAtom_denote hscanned.head 0
  · obtain ⟨l, hl, rfl⟩ := List.mem_map.1 ha
    exact namedAtom_of_mem_denoteBody hscanned.element 0 l (Rule.mem_body_of_mem_literals hl)

/-! ## Driving columns -/

namespace Equation.Columns

/-- An argument is a term with a name of the language, be it a column or not. -/
theorem named_term (c : Columns) {arg : Argument} (h : Grammar.Named arg) :
    (c.term arg).Named := by
  rintro arg' heq x rfl
  obtain ⟨rfl, -⟩ := term_eq_var_iff.1 heq
  exact h x rfl

theorem named_terms (c : Columns) {a : Atom} (h : NamedAtom a) :
    ∀ t ∈ a.args.map c.term, t.Named :=
  List.forall_mem_map.2 fun arg harg => c.named_term (h.args arg harg)

/-- Each column is the place of a variable or has a selection, and not both. -/
theorem columns_perm (args : List Argument) :
    ((ofArgs args).positions.map Placement.column
      ++ (ofArgs args).selections.map Selection.column).Perm (List.range args.length) := by
  induction args using List.reverseRecOn with
  | nil => exact List.Perm.nil
  | append_singleton args arg ih =>
    rw [ofArgs_append_singleton, List.length_append, List.length_singleton, List.range_succ]
    cases arg with
    | const v =>
      rw [selections_add_const, List.map_append, ← List.append_assoc]
      exact ih.append_right _
    | var y =>
      rw [selections_add_var, positions_add_var]
      cases (ofArgs args).find? y with
      | some first =>
        simp only [Option.isSome_some, if_true, List.append_nil, Option.map_some,
          Option.toList_some, List.map_append, ← List.append_assoc]
        exact ih.append_right _
      | none =>
        simp only [Option.isSome_none, Bool.false_eq_true, if_false, Option.map_none,
          Option.toList_none, List.append_nil, List.map_append, List.append_assoc]
        -- the new place stands between the old places and the selections
        refine (List.perm_append_comm.append_left _).trans ?_
        rw [← List.append_assoc]
        exact ih.append_right _

/-- What the places and selections say about the argument at a column: it is a variable that is
placed there, a constant that is selected, or a variable that is selected to equal its place. -/
inductive Describes (c : Columns) : Nat → Argument → Prop
  | placed {x : String} {i : Nat} (h : ⟨x, i⟩ ∈ c.positions) : Describes c i (.var x)
  | constant {v : Int64} {i : Nat} (h : ⟨i, .argument (.const v)⟩ ∈ c.selections) :
      Describes c i (.const v)
  | repeated {x : String} {i first : Nat} (h : ⟨i, .column first⟩ ∈ c.selections)
      (hfirst : ⟨x, first⟩ ∈ c.positions) : Describes c i (.var x)

theorem getElem?_of_mem_positions {args : List Argument} {x : String} {i : Nat}
    (h : ⟨x, i⟩ ∈ (ofArgs args).positions) : args[i]? = some (.var x) := by
  rw [mem_positions_ofArgs_iff, ← find?_ofArgs] at h
  exact getElem?_of_find?_ofArgs h

/-- Places and selections describe exactly the arguments. -/
theorem describes_ofArgs_iff {args : List Argument} {i : Nat} {arg : Argument} :
    (ofArgs args).Describes i arg ↔ args[i]? = some arg := by
  constructor
  · intro h
    cases h with
    | placed h => exact getElem?_of_mem_positions h
    | constant h =>
      rcases selection_cases h with ⟨v, hi, hequals⟩ | ⟨x, first, -, -, hequals⟩
      · rw [hi, ← Term.argument.inj hequals]
      · cases hequals
    | @repeated x i first h hfirst =>
      rcases selection_cases h with ⟨v, -, hequals⟩ | ⟨y, first', hi, hy, hequals⟩
      · cases hequals
      · obtain rfl : first = first' := Int.ofNat.inj (Term.column.inj hequals)
        rw [getElem?_of_mem_positions hfirst] at hy
        rw [hi, hy]
  · intro hi
    cases arg with
    | const v => exact .constant (mem_selections_of_const hi)
    | var x =>
      have hmem : Argument.var x ∈ args := List.mem_of_getElem? hi
      obtain ⟨first, hfirst⟩ := Option.isSome_iff_exists.1 (List.isSome_idxOf?.2 hmem)
      have hplaced : ⟨x, first⟩ ∈ (ofArgs args).positions := mem_positions_ofArgs_iff.2 hfirst
      obtain ⟨hlt, -, hbefore⟩ := List.idxOf?_eq_some_iff.1 hfirst
      obtain ⟨hilt, hx⟩ := List.getElem?_eq_some_iff.1 hi
      -- the variable has its first place there, or was placed before
      rcases Nat.lt_trichotomy first i with hrepeated | rfl | hearly
      · exact .repeated (mem_selections_of_repeated hi hfirst hrepeated) hplaced
      · exact .placed hplaced
      · exact absurd hx (hbefore i hearly)

theorem ofArgs_injective : Function.Injective ofArgs := by
  intro args args' h
  refine List.ext_getElem? fun i => Option.ext fun arg => ?_
  rw [← describes_ofArgs_iff, ← describes_ofArgs_iff, h]

end Equation.Columns

/-! ## View columns -/

/-- The terms of a view and their places are the terms that were arranged. -/
theorem Arrangement.ofTerms_injective : Function.Injective ofTerms := by
  intro terms terms' h
  have hcolumns : viewOrder terms.zipIdx = viewOrder terms'.zipIdx := by
    rw [← zip_ofTerms, ← zip_ofTerms, h]
  refine List.ext_getElem? fun i => Option.ext fun t => ?_
  rw [← List.mk_mem_zipIdx_iff_getElem?, ← List.mk_mem_zipIdx_iff_getElem?,
    ← (viewOrder_perm terms.zipIdx).mem_iff, hcolumns, (viewOrder_perm terms'.zipIdx).mem_iff]

/-! ## Equations -/

theorem Orientation.label_injective : Function.Injective Orientation.label := by
  intro o o'
  cases o <;> cases o' <;> decide

theorem Document.ofPlacement_injective : Function.Injective ofPlacement := by
  rintro ⟨name, column⟩ ⟨name', column'⟩ h
  obtain ⟨rfl, hcolumn⟩ := PositionDoc.mk.inj h
  obtain rfl := Int.ofNat.inj hcolumn
  rfl

/-- The consulted terms have names of the language, and the view is how they are arranged. -/
structure Consultation.Readable (c : Consultation) : Prop where
  args : ∀ t ∈ c.args, t.Named
  arranged : Arrangement.ofTerms c.args = ⟨c.view, c.combination, c.bound⟩

theorem Consultation.Readable.view {c : Consultation} (h : c.Readable) :
    ∀ t ∈ c.view, t.Named := by
  intro t ht
  refine h.args t (Arrangement.mem_terms_ofTerms.1 ?_)
  rwa [h.arranged]

namespace Equation

/-- What the document of an equation leaves out or writes as text can be read off the rest. -/
structure Readable (e : Equation) : Prop where
  headArgs : ∀ t ∈ e.headArgs, t.Named
  columns : Columns.ofArgs e.drivingArgs = ⟨e.positions, e.selections⟩
  consulting : ∀ c, e.consulting = some c → c.Readable
  negated : ∀ n ∈ e.negated, n.Named

theorem Readable.selections {e : Equation} (h : e.Readable) :
    ∀ s ∈ e.selections, s.equals.Named := by
  intro s hs
  have hselected : s ∈ (Columns.ofArgs e.drivingArgs).selections := by rwa [h.columns]
  exact Term.named_of_not_isFree (Columns.selection_bound hselected).2.1

theorem readable_ofRule {r : Rule} {a : Atom} {consulting : Option Consultation} {number : Nat}
    (hnamed : ∀ b ∈ r.atoms, NamedAtom b) (h : Lookup r a consulting) :
    (ofRule r number a consulting).Readable where
  headArgs := Columns.named_terms _ (hnamed r.head List.mem_cons_self)
  columns := rfl
  consulting := by
    rintro c hc
    cases h with
    | alone => cases hc
    | @joined b hpos orientation viewName viewAlias =>
      obtain rfl := Option.some.inj hc
      have hb : b ∈ r.positive := by rcases hpos with hpos | hpos <;> rw [hpos] <;> simp
      exact ⟨Columns.named_terms _ (hnamed b (Compilation.positive_subset_atoms hb)), rfl⟩
  negated := by
    intro n hn
    obtain ⟨b, hb, rfl⟩ := List.mem_map.1 hn
    have hatom := hnamed b (Rule.negative_subset_atoms hb)
    exact ⟨hatom.predicate, Columns.named_terms _ hatom⟩

section Documents

variable {e f : Equation}

theorem consulting_eq_of_document (he : e.Readable) (hf : f.Readable)
    (h : Document.ofEquation e = Document.ofEquation f) : e.consulting = f.consulting := by
  have hkind : e.kind = f.kind := congrArg EquationDoc.kind h
  unfold Document.ofEquation at h
  unfold kind at hkind
  cases hc : e.consulting with
  | none =>
    cases hd : f.consulting with
    | none => rfl
    | some d =>
      rw [hc, hd] at hkind
      exact absurd hkind (show kindLabel 1 ≠ kindLabel 2 by decide)
  | some c =>
    cases hd : f.consulting with
    | none =>
      rw [hc, hd] at hkind
      exact absurd hkind (show kindLabel 2 ≠ kindLabel 1 by decide)
    | some d =>
      have hreadable := he.consulting c hc
      have hreadable' := hf.consulting d hd
      simp only [hc, hd, Option.map_some, Option.getD_some, EquationDoc.mk.injEq] at h
      obtain ⟨-, horientation, -, -, -, -, -, -, -, hpredicate, hcommon, hview, hcombination,
        hbound, hviewName, hviewAlias, -⟩ := h
      have hview : c.view = d.view :=
        eq_of_map_eq Term.eq_of_render hreadable.view hreadable'.view hview
      have hcombination : c.combination = d.combination :=
        Int.ofNat_injective.list_map hcombination
      have hbound : c.bound = d.bound := Int.ofNat.inj hbound
      -- the consulted terms are not exported, but the view is how they are arranged
      have hargs : c.args = d.args := by
        refine Arrangement.ofTerms_injective ?_
        rw [hreadable.arranged, hreadable'.arranged, hview, hcombination, hbound]
      rw [Option.some.injEq]
      cases c
      cases d
      rw [Consultation.mk.injEq]
      exact ⟨Orientation.label_injective horientation, hpredicate, hargs,
        Document.ofPlacement_injective.list_map hcommon, hview, hcombination, hbound, hviewName,
        hviewAlias⟩

/-- Equations that can be read off their documents have one document only if they agree, condition
and assignment aside. -/
theorem eq_of_document (he : e.Readable) (hf : f.Readable)
    (h : Document.ofEquation e = Document.ofEquation f) :
    e = { f with condition := e.condition, assignment := e.assignment } := by
  have hconsulting := consulting_eq_of_document he hf h
  unfold Document.ofEquation at h
  rw [EquationDoc.mk.injEq] at h
  obtain ⟨-, -, hrule, hline, hhead, hheadArgs, hdriving, hpositions, hselections, -, -, -, -, -, -,
    -, -, -, hnegated⟩ := h
  have hheadArgs := eq_of_map_eq Term.eq_of_render he.headArgs hf.headArgs hheadArgs
  have hpositions := Document.ofPlacement_injective.list_map hpositions
  have hselections :=
    eq_of_map_eq Selection.eq_of_render he.selections hf.selections hselections
  have hnegated := eq_of_map_eq NegatedAtom.eq_of_render he.negated hf.negated hnegated
  -- the driving arguments are not exported, but places and selections describe them
  have hdrivingArgs : e.drivingArgs = f.drivingArgs := by
    refine Columns.ofArgs_injective ?_
    rw [he.columns, hf.columns, hpositions, hselections]
  cases e
  cases f
  rw [Equation.mk.injEq]
  exact ⟨Int.ofNat.inj hrule, hline, hhead, hheadArgs, hdriving, hdrivingArgs, hpositions,
    hselections, hconsulting, rfl, rfl, hnegated⟩

end Documents

end Equation

/-! ## Plans -/

namespace Plan

theorem readable_of_compile {request : Request} {plan : Plan}
    (h : (compile request).result = .ok plan) : ∀ e ∈ plan.equations, e.Readable := by
  intro e he
  obtain ⟨i, r, a, consulting, hi, hlookup, rfl⟩ := exists_lookup_of_compile h he
  obtain ⟨l, -, hreads⟩ := exists_of_mem_right
    (Program.interns_of_ofSource (source_of_compile h)).1 (List.mem_of_getElem? hi)
  exact Equation.readable_ofRule hreads.namedAtoms hlookup

/-- **The document of an equation determines it.** Take two equations of compiled plans. Their
documents are the same iff the equations agree in everything but the pieces of condition and
assignment, and these are written alike. In particular documents determine the driving arguments,
though these are not exported: each driving column is described once, by a place or by a
selection. -/
theorem document_eq_iff_of_compile {request request' : Request} {plan plan' : Plan}
    (h : (compile request).result = .ok plan) (h' : (compile request').result = .ok plan')
    {e f : Equation} (he : e ∈ plan.equations) (hf : f ∈ plan'.equations) :
    (e.positions.map Placement.column ++ e.selections.map Selection.column).Perm
        (List.range e.drivingArgs.length)
      ∧ (Document.ofEquation e = Document.ofEquation f ↔
        e = { f with condition := e.condition, assignment := e.assignment }
          ∧ (Document.ofEquation e).condition = (Document.ofEquation f).condition
          ∧ (Document.ofEquation e).assignment = (Document.ofEquation f).assignment) := by
  have hreadable := readable_of_compile h e he
  refine ⟨?_, ?_⟩
  · have hperm := Equation.Columns.columns_perm e.drivingArgs
    rwa [hreadable.columns] at hperm
  · constructor
    · intro heq
      exact ⟨Equation.eq_of_document hreadable (readable_of_compile h' f hf) heq, by rw [heq],
        by rw [heq]⟩
    · rintro ⟨heq, hcondition, hassignment⟩
      have hdocument : Document.ofEquation e = { Document.ofEquation f with
          condition := (Document.ofEquation e).condition
          assignment := (Document.ofEquation e).assignment } := by
        conv_lhs => rw [heq]
        rfl
      rw [hdocument, hcondition, hassignment]

/-- Loops that no cut ends, under one spelling of negation. -/
def loopRequest : Request :=
  ⟨"loop.dl", "loop(X) :- edge(X, 3, X), not cut(X, -2).", [], .failFast⟩

/-- The same under another one. -/
def tightRequest : Request :=
  ⟨"tight.dl", "loop(X):-edge(X,3,X),!cut(X,-2).", ["loop"], .accumulate⟩

/-- Different sources whose equations have one document: the equations agree. -/
theorem document_eq_iff_of_compile_loop : ∃ plan plan' e f,
    (compile loopRequest).result = .ok plan ∧ (compile tightRequest).result = .ok plan'
      ∧ e ∈ plan.equations ∧ f ∈ plan'.equations
      ∧ e.drivingArgs = [.var "X", .const 3, .var "X"]
      ∧ (e.positions.map Placement.column ++ e.selections.map Selection.column).Perm (List.range 3)
      ∧ Document.ofEquation e = Document.ofEquation f
      ∧ e = { f with condition := e.condition, assignment := e.assignment } := by
  let edge : Atom := ⟨"edge", [.var "X", .const 3, .var "X"]⟩
  let loop : String → Rule := fun text =>
    ⟨⟨"loop", [.var "X"]⟩, [.literal ⟨false, edge⟩,
      .literal ⟨true, ⟨"cut", [.var "X", .const (-2)]⟩⟩], 1, text⟩
  have hmem : ∀ {request : Request} {plan : Plan}, (compile request).result = .ok plan →
      SourceLine.rules (SourceLine.ofSource request.source) = [loop request.source] →
      Equation.ofRule (loop request.source) 1 edge none ∈ plan.equations := by
    intro request plan h hrules
    rw [← Program.rules_of_ofSource (source_of_compile h)] at hrules
    have harranged := (arranged_of_compile h (i := 0) (by rw [hrules]; rfl)).eq_singleton rfl
    exact (List.mem_filter.1 (harranged ▸ List.mem_singleton_self _)).1
  obtain ⟨plan, hplan⟩ := compile_isOk_of_negatesLast (r := loopRequest) (by decide +kernel)
  obtain ⟨plan', hplan'⟩ := compile_isOk_of_negatesLast (r := tightRequest) (by decide +kernel)
  have he := hmem hplan (by decide +kernel)
  have hf := hmem hplan' (by decide +kernel)
  obtain ⟨hperm, hiff⟩ := document_eq_iff_of_compile hplan hplan' he hf
  exact ⟨plan, plan', _, _, hplan, hplan', he, hf, rfl, hperm, rfl, (hiff.1 rfl).1⟩

end Plan

end RulePlan
