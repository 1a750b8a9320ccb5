import RulePlan.Proofs.PlannedRules

/-!
# RulePlan.Proofs.AssignedVariable — when the value of an assignment reaches the head

A safe rule has its assigned variable in the head, but nothing keeps the variable out of the
positive atoms. What becomes of it then depends on the atom that drives. A variable of the driving
atom is a column, in the head as everywhere else, so the head takes the old value and the new one is
lost; a variable of the consulted atom is bound by the lookup as well as by the assignment. Only a
variable that no positive atom has is left to the assignment alone.
-/

namespace RulePlan

namespace Equation

/-- The head of an equation takes the value of an assigned variable: where the rule has the variable
in its head, so has the equation, and no column of the driving tuple or of the lookup is called
so. -/
structure Delivers (e : Equation) (r : Rule) (target : String) : Prop where
  head : ∀ i : Nat, r.head.args[i]? = some (.var target) →
    e.headArgs[i]? = some (.argument (.var target))
  positions : ∀ q ∈ e.positions, q.name ≠ target
  view : ∀ c, e.consulting = some c → .argument (.var target) ∉ c.view

section OfRule

variable {r : Rule} {a : Atom} {consulting : Option Consultation} {number : Nat} {target : String}

/-- A variable in the head becomes the first column where the driving atom has it, and else
stays. -/
theorem headArgs_of_var {i : Nat} (hi : r.head.args[i]? = some (.var target)) :
    (ofRule r number a consulting).headArgs[i]?
      = some (match a.args.idxOf? (.var target) with
        | some j => .column j
        | none => .argument (.var target)) := by
  show (r.head.args.map (Columns.ofArgs a.args).term)[i]? = _
  rw [List.getElem?_map, hi, Option.map_some, ← Columns.find?_ofArgs]
  cases hfind : (Columns.ofArgs a.args).find? target with
  | some j => rw [Columns.term_var_of_find? hfind]
  | none => rw [Columns.term_var_of_find?_none hfind]

theorem Lookup.mem_positive (h : Lookup r a consulting) : a ∈ r.positive := by
  cases h with
  | alone hpos => rw [hpos]; exact List.mem_cons_self
  | joined hpos => rcases hpos with hpos | hpos <;> rw [hpos] <;> simp

/-- A variable that no positive atom has is no column of the view. -/
theorem Lookup.not_mem_view (h : Lookup r a consulting) (hfresh : target ∉ r.positiveVariables)
    {c : Consultation} (hc : consulting = some c) : .argument (.var target) ∉ c.view := by
  intro hview
  cases h with
  | alone => cases hc
  | @joined b hpos =>
    obtain rfl := Option.some.inj hc
    obtain ⟨arg, harg, hterm⟩ := List.mem_map.1 (Arrangement.mem_terms_ofTerms.1 hview)
    obtain ⟨rfl, -⟩ := Columns.term_eq_var_iff.1 hterm
    have hb : b ∈ r.positive := by rcases hpos with hpos | hpos <;> rw [hpos] <;> simp
    exact hfresh (Rule.mem_positiveVariables.2 ⟨b, hb, Atom.mem_vars.2 harg⟩)

/-- The value of an assigned variable reaches the head iff no positive atom has the variable,
whichever atom drives. -/
theorem Lookup.delivers_iff (h : Lookup r a consulting) :
    (ofRule r number a consulting).Delivers r target ↔ target ∉ r.positiveVariables := by
  constructor
  · intro hdelivers hbound
    cases hfind : (Columns.ofArgs a.args).find? target with
    | some j =>
      rw [Columns.find?_ofArgs] at hfind
      exact hdelivers.positions ⟨target, j⟩ (Columns.mem_positions_ofArgs_iff.2 hfind) rfl
    | none =>
      obtain ⟨c, hc, hview⟩ := h.mem_view hbound hfind
      exact hdelivers.view c hc hview
  · intro hfresh
    have hdriving : a.args.idxOf? (.var target) = none := by
      rw [List.idxOf?_eq_none_iff]
      intro harg
      exact hfresh (Rule.mem_positiveVariables.2 ⟨a, h.mem_positive, Atom.mem_vars.2 harg⟩)
    refine ⟨?_, ?_, fun c hc => h.not_mem_view hfresh hc⟩
    · intro i hi
      rw [headArgs_of_var hi, hdriving]
    · rintro q hq rfl
      rw [Columns.mem_positions_ofArgs_iff.1 hq] at hdriving
      cases hdriving

end OfRule

end Equation

namespace Compilation

theorem Arranged.ne_nil {r : Rule} {number : Nat} {equations : List Equation}
    (h : Arranged r number equations) : equations ≠ [] := by
  cases h <;> exact List.cons_ne_nil _ _

/-- **An assignment reaches the head iff nothing else binds its variable.** An accepted rule with an
assignment compiles, whatever views exist already, and each of its equations carries the assignment.
In each of them the assigned value reaches the head, and no column has its variable, iff no positive
atom of the rule has it. In any case a place of the variable in the head becomes the first column
where the driving atom has it, and keeps the variable if that atom does not have it. -/
theorem delivers_iff_of_accepted {file source : String} {mode : Mode} {p : Program}
    (hp : Program.ofSource file source mode = .ok p) {r : Rule} (hr : r ∈ p.rules)
    {target : String} {value : Expression} (hassign : (target, value) ∈ r.assignments)
    (registry : ViewRegistry) (number : Nat) :
    ∃ equations, (ofRule p registry r number).result = .ok equations ∧ equations ≠ []
      ∧ ∀ e ∈ equations, e.Assigns target
        ∧ (e.Delivers r target ↔ target ∉ r.positiveVariables)
        ∧ ∀ i : Nat, r.head.args[i]? = some (.var target) →
          e.headArgs[i]? = some (match e.drivingArgs.idxOf? (.var target) with
            | some j => .column j
            | none => .argument (.var target)) := by
  have hacc := Program.accepted_of_ofSource hp
  obtain ⟨equations, hresult, harranged⟩ := ofRule_arranged hacc hr registry number
  refine ⟨equations, hresult, harranged.ne_nil, ?_⟩
  intro e he
  obtain ⟨a, consulting, hlookup, rfl⟩ := harranged.exists_lookup e he
  have hfirst := (Rule.assignment?_eq_some_iff (hacc.safe r hr).assignments_le).2 hassign
  exact ⟨⟨_, congrArg (Option.map _) hfirst⟩, hlookup.delivers_iff,
    fun i hi => Equation.headArgs_of_var hi⟩

/-- A successor, in a variable of its own. -/
theorem delivers_of_accepted_successor : ∃ p r value,
    Program.ofSource "next.dl" "next(X, Y) :- edge(X, Z), Y = Z + 1." .failFast = .ok p
      ∧ r ∈ p.rules ∧ ("Y", value) ∈ r.assignments
      ∧ ∃ equations, (ofRule p .empty r 1).result = .ok equations ∧ equations ≠ []
        ∧ ∀ e ∈ equations, e.Assigns "Y" ∧ e.Delivers r "Y" := by
  have hread : (match Program.ofSource "next.dl" "next(X, Y) :- edge(X, Z), Y = Z + 1." .failFast
      with
      | .ok p => p.rules.any fun r => r.assignments.any fun te =>
          te.1 == "Y" && decide ("Y" ∉ r.positiveVariables)
      | .error _ => false) = true := by
    decide +kernel
  split at hread
  case h_2 => cases hread
  case h_1 p hp =>
    obtain ⟨r, hr, hany⟩ := List.any_eq_true.1 hread
    obtain ⟨⟨target, value⟩, hassign, hcheck⟩ := List.any_eq_true.1 hany
    simp only [Bool.and_eq_true, beq_iff_eq, decide_eq_true_eq] at hcheck
    obtain ⟨rfl, hfresh⟩ := hcheck
    obtain ⟨equations, hresult, hne, hall⟩ := delivers_iff_of_accepted hp hr hassign .empty 1
    exact ⟨p, r, value, hp, hr, hassign, equations, hresult, hne,
      fun e he => ⟨(hall e he).1, (hall e he).2.1.2 hfresh⟩⟩

/-- A successor that is written to a variable of the only positive atom. The rule is accepted, and
its equation has the old value of the variable in its head. -/
theorem not_delivers_of_accepted_bound : ∃ p r value e,
    Program.ofSource "a.dl" "next(X, Y) :- edge(X, Y), Y = X + 1." .failFast = .ok p
      ∧ r ∈ p.rules ∧ ("Y", value) ∈ r.assignments
      ∧ (ofRule p .empty r 1).result = .ok [e] ∧ e.Assigns "Y"
      ∧ r.head.args[1]? = some (.var "Y") ∧ e.headArgs[1]? = some (.column 1)
      ∧ ¬e.Delivers r "Y" := by
  have hread : (match Program.ofSource "a.dl" "next(X, Y) :- edge(X, Y), Y = X + 1." .failFast with
      | .ok p => p.rules.any fun r => r.assignments.any fun te =>
          te.1 == "Y" && r.head.args[1]? == some (.var "Y")
            && r.positive == [⟨"edge", [.var "X", .var "Y"]⟩]
      | .error _ => false) = true := by
    decide +kernel
  split at hread
  case h_2 => cases hread
  case h_1 p hp =>
    obtain ⟨r, hr, hany⟩ := List.any_eq_true.1 hread
    obtain ⟨⟨target, value⟩, hassign, hcheck⟩ := List.any_eq_true.1 hany
    simp only [Bool.and_eq_true, beq_iff_eq] at hcheck
    obtain ⟨⟨rfl, hhead⟩, hpos⟩ := hcheck
    have hacc := Program.accepted_of_ofSource hp
    have hfirst := (Rule.assignment?_eq_some_iff (hacc.safe r hr).assignments_le).2 hassign
    have hcolumn : (Equation.ofRule r 1 ⟨"edge", [.var "X", .var "Y"]⟩ none).headArgs[1]?
        = some (.column 1) := Equation.headArgs_of_var hhead
    refine ⟨p, r, value, _, hp, hr, hassign, by rw [ofRule_unary hacc hr hpos],
      ⟨_, congrArg (Option.map _) hfirst⟩, hhead, hcolumn, ?_⟩
    intro hdelivers
    exact nomatch (hdelivers.head 1 hhead).symm.trans hcolumn

end Compilation

end RulePlan
