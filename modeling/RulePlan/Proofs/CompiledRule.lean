import RulePlan.Proofs.EquationMeaning

/-!
# RulePlan.Proofs.CompiledRule — the equations of an accepted rule

For a rule of an accepted program the consistency checks of compilation never fire: all arities are
recorded, the rule has one positive atom or two, and a view has as many columns as its predicate. So
compilation gives one equation for each positive atom, in order, and each derives what the rule
derives.
-/

namespace RulePlan

theorem Database.length_eq {p : Program} (D : Database p) {a : Atom}
    (ha : p.arity? a.predicate = some (a.arity : Int)) :
    ∀ t ∈ D.rows a.predicate, t.length = a.arity := by
  intro t ht
  have h := D.arity_eq ht
  rw [ha] at h
  exact Int.ofNat.inj (Option.some.inj h.symm)

/-- The lookup of one atom from the tuples of another, through a view with a name and an alias. -/
def Consultation.between (orientation : Orientation) (driving consulting : Atom)
    (viewName viewAlias : String) : Consultation :=
  let columns := Equation.Columns.ofArgs driving.args
  let arrangement := Arrangement.ofTerms (consulting.args.map columns.term)
  { orientation
    predicate := consulting.predicate
    args := consulting.args.map columns.term
    common := columns.common consulting.args
    view := arrangement.terms
    combination := arrangement.combination
    bound := arrangement.bound
    viewName
    viewAlias }

namespace Compilation

/-! ## Steps in sequence -/

section Sequence

variable {c : Compilation} {equations : List Equation}

/-- After a success the next step starts with the registry that was left. -/
theorem andThen_of_ok (h : c.result = .ok equations) (next : ViewRegistry → Compilation) :
    c.andThen next = ⟨(next c.registry).registry, c.notices ++ (next c.registry).notices,
      (next c.registry).result.map (equations ++ ·)⟩ := by
  unfold andThen
  rw [h]

/-- A failure is the last step. -/
theorem andThen_of_error {d : Diagnostic} (h : c.result = .error d)
    (next : ViewRegistry → Compilation) : c.andThen next = ⟨c.registry, c.notices, .error d⟩ := by
  unfold andThen
  rw [h]

/-- The equations of two steps that succeed stand one after the other. -/
theorem result_andThen {next : ViewRegistry → Compilation} {more : List Equation}
    (h : c.result = .ok equations) (hnext : (next c.registry).result = .ok more) :
    (c.andThen next).result = .ok (equations ++ more) := by
  rw [andThen_of_ok h, hnext]
  rfl

end Sequence

/-! ## Rules that pass the checks -/

theorem checkArities_eq_ok {p : Program} {atoms : List Atom}
    (h : ∀ a ∈ atoms, p.arity? a.predicate = some (a.arity : Int)) :
    checkArities p atoms = .ok () := by
  induction atoms with
  | nil => rfl
  | cons a atoms ih =>
    unfold checkArities
    rw [h a List.mem_cons_self]
    simp only [if_true]
    exact ih fun b hb => h b (List.mem_cons_of_mem a hb)

/-- The equation, the registry and the names that come out of a lookup. -/
theorem binary_eq {p : Program} {consulting : Atom}
    (harity : p.arity? consulting.predicate = some (consulting.arity : Int))
    (registry : ViewRegistry) (r : Rule) (number : Nat) (orientation : Orientation)
    (driving : Atom) :
    let arrangement :=
      Arrangement.ofTerms (consulting.args.map (Equation.Columns.ofArgs driving.args).term)
    let resolved := registry.resolve consulting.predicate
      (arrangement.combination.map Int.ofNat) arrangement.bound
    let named := resolved.2.1.assignAlias resolved.1 consulting.args number
    (binary p registry r number orientation driving consulting).registry = named.2.1
      ∧ (binary p registry r number orientation driving consulting).result
        = .ok [.ofRule r number driving
          (some (.between orientation driving consulting resolved.1.name named.1))] := by
  have hwidth : ¬((Arrangement.ofTerms (consulting.args.map
      (Equation.Columns.ofArgs driving.args).term)).combination.length : Int)
        ≠ (p.arity? consulting.predicate).getD 0 := by
    rw [harity, Arrangement.length_combination, List.length_map]
    exact not_not.2 rfl
  unfold binary
  simp only [hwidth, if_false]
  exact ⟨trivial, rfl⟩

/-- Consulting an atom with its recorded arity succeeds, and the consultation is about that atom. -/
theorem binary_result {p : Program} {consulting : Atom}
    (harity : p.arity? consulting.predicate = some (consulting.arity : Int))
    (registry : ViewRegistry) (r : Rule) (number : Nat) (orientation : Orientation)
    (driving : Atom) :
    ∃ c : Consultation, c.Consults driving consulting ∧ c.orientation = orientation
      ∧ (binary p registry r number orientation driving consulting).result
        = .ok [.ofRule r number driving (some c)] :=
  ⟨_, ⟨rfl, rfl⟩, rfl, (binary_eq harity registry r number orientation driving).2⟩

theorem positive_subset_atoms {r : Rule} {a : Atom} (h : a ∈ r.positive) : a ∈ r.atoms := by
  obtain ⟨l, hl, rfl⟩ := List.mem_map.1 h
  exact List.mem_cons_of_mem _ (List.mem_map.2 ⟨l, (List.mem_filter.1 hl).1, rfl⟩)

section Accepted

variable {p : Program} {r : Rule}

theorem ofRule_unary (hp : p.Accepted) (hr : r ∈ p.rules) {a : Atom} (hpos : r.positive = [a])
    (registry : ViewRegistry) (number : Nat) :
    ofRule p registry r number = ⟨registry, [], .ok [.ofRule r number a none]⟩ := by
  unfold ofRule
  simp only [checkArities_eq_ok (hp.arity r hr), hpos]

/-- With two positive atoms each drives an equation that consults the other. -/
theorem ofRule_joined (hp : p.Accepted) (hr : r ∈ p.rules) {a b : Atom}
    (hpos : r.positive = [a, b]) (registry : ViewRegistry) (number : Nat) :
    ofRule p registry r number
      = (binary p registry r number .firstDrives a b).andThen fun registry' =>
        binary p registry' r number .secondDrives b a := by
  unfold ofRule
  simp only [checkArities_eq_ok (hp.arity r hr), hpos]

/-- The arities of both positive atoms are recorded. -/
theorem arity_pair (hp : p.Accepted) (hr : r ∈ p.rules) {a b : Atom} (hpos : r.positive = [a, b]) :
    p.arity? a.predicate = some (a.arity : Int) ∧ p.arity? b.predicate = some (b.arity : Int) :=
  ⟨hp.arity r hr a (positive_subset_atoms (by simp [hpos])),
    hp.arity r hr b (positive_subset_atoms (by simp [hpos]))⟩

theorem ofRule_binary (hp : p.Accepted) (hr : r ∈ p.rules) {a b : Atom}
    (hpos : r.positive = [a, b]) (registry : ViewRegistry) (number : Nat) :
    ∃ c₁ c₂ : Consultation, c₁.Consults a b ∧ c₁.orientation = .firstDrives
      ∧ c₂.Consults b a ∧ c₂.orientation = .secondDrives
      ∧ (ofRule p registry r number).result
        = .ok [.ofRule r number a (some c₁), .ofRule r number b (some c₂)] := by
  obtain ⟨ha, hb⟩ := arity_pair hp hr hpos
  obtain ⟨c₁, hc₁, ho₁, h₁⟩ := binary_result hb registry r number .firstDrives a
  obtain ⟨c₂, hc₂, ho₂, h₂⟩ := binary_result ha
    (binary p registry r number .firstDrives a b).registry r number .secondDrives b
  refine ⟨c₁, c₂, hc₁, ho₁, hc₂, ho₂, ?_⟩
  rw [ofRule_joined hp hr hpos]
  exact result_andThen h₁ h₂

/-- A safe rule has one positive atom or two. -/
theorem positive_cases (hr : r.Safe) :
    (∃ a, r.positive = [a]) ∨ ∃ a b, r.positive = [a, b] := by
  have hle : r.positive.length ≤ 2 := by
    unfold Rule.positive
    rw [List.length_map]
    exact (List.length_filter_le _ _).trans hr.literals_le
  match hpos : r.positive with
  | [] => exact absurd hpos hr.positive_ne
  | [a] => exact Or.inl ⟨a, rfl⟩
  | [a, b] => exact Or.inr ⟨a, b, rfl⟩
  | _ :: _ :: _ :: _ => simp [hpos] at hle

/-! ## Meaning -/

/-- An equation stands for a rule driven by one of its positive atoms: restricted to some of the
driving tuples it derives what the rule derives by the valuations that put the atom among them. -/
structure StandsFor (p : Program) (r : Rule) (a : Atom) (e : Equation) : Prop where
  head : e.head = r.head.predicate
  driving : e.driving = a.predicate
  mem_derivedFrom : r.FreshTargets → ∀ (E : Evaluator) (D : Database p) (S : Set Tuple),
    S ⊆ D.rows a.predicate → ∀ h, h ∈ e.derivedFrom E S D ↔
      ∃ σ, (∀ b ∈ r.positive, b.under σ ∈ D.rows b.predicate) ∧ a.under σ ∈ S
        ∧ r.Concludes E D σ h

theorem standsFor_unary (hp : p.Accepted) (hr : r ∈ p.rules) {a : Atom} (hpos : r.positive = [a])
    (number : Nat) : StandsFor p r a (.ofRule r number a none) where
  head := rfl
  driving := rfl
  mem_derivedFrom := by
    intro hfresh E D S hS h
    have ha := hp.arity r hr a (positive_subset_atoms (by rw [hpos]; simp))
    have hmem : ∀ b, b ∈ r.positive ↔ b = a := by
      intro b
      rw [hpos, List.mem_singleton]
    rw [Equation.mem_derivedFrom_unary_iff (hp.safe r hr) (hp.flagged r hr) hfresh hmem
      fun t ht => D.length_eq ha t (hS ht)]
    refine exists_congr fun σ => (and_iff_right_of_imp ?_).symm
    rintro ⟨haS, -⟩ b hb
    rw [(hmem b).1 hb]
    exact hS haS

theorem standsFor_binary (hp : p.Accepted) (hr : r ∈ p.rules) {a b : Atom}
    (hpos : ∀ x, x ∈ r.positive ↔ x = a ∨ x = b) {c : Consultation} (hc : c.Consults a b)
    (number : Nat) : StandsFor p r a (.ofRule r number a (some c)) where
  head := rfl
  driving := rfl
  mem_derivedFrom := by
    intro hfresh E D S hS h
    have ha := hp.arity r hr a (positive_subset_atoms ((hpos a).2 (Or.inl rfl)))
    have hb := hp.arity r hr b (positive_subset_atoms ((hpos b).2 (Or.inr rfl)))
    rw [Equation.mem_derivedFrom_binary_iff (hp.safe r hr) (hp.flagged r hr) hfresh hpos hc
      (fun t ht => D.length_eq ha t (hS ht)) (D.length_eq hb)]
    refine exists_congr fun σ => ⟨?_, ?_⟩
    · rintro ⟨haS, hbD, hconcludes⟩
      refine ⟨fun x hx => ?_, haS, hconcludes⟩
      rcases (hpos x).1 hx with rfl | rfl
      · exact hS haS
      · exact hbD
    · rintro ⟨hall, haS, hconcludes⟩
      exact ⟨haS, hall b ((hpos b).2 (Or.inr rfl)), hconcludes⟩

/-- A rule with two positive atoms gives two equations: each atom drives one of them and is
consulted by the other. -/
theorem ofRule_pair (hp : p.Accepted) (hr : r ∈ p.rules) {a b : Atom} (hpos : r.positive = [a, b])
    (registry : ViewRegistry) (number : Nat) :
    ∃ e₁ e₂ c₁ c₂, (ofRule p registry r number).result = .ok [e₁, e₂]
      ∧ (StandsFor p r a e₁ ∧ e₁.consulting = some c₁ ∧ c₁.orientation = .firstDrives
        ∧ c₁.predicate = b.predicate)
      ∧ (StandsFor p r b e₂ ∧ e₂.consulting = some c₂ ∧ c₂.orientation = .secondDrives
        ∧ c₂.predicate = a.predicate) := by
  obtain ⟨c₁, c₂, hc₁, ho₁, hc₂, ho₂, hresult⟩ := ofRule_binary hp hr hpos registry number
  have hmem : ∀ x, x ∈ r.positive ↔ x = a ∨ x = b := by
    intro x
    rw [hpos, List.mem_cons, List.mem_singleton]
  have hstands₁ := standsFor_binary hp hr hmem hc₁ number
  have hstands₂ := standsFor_binary hp hr (fun x => (hmem x).trans or_comm) hc₂ number
  exact ⟨_, _, c₁, c₂, hresult, ⟨hstands₁, rfl, ho₁, hc₁.predicate⟩,
    ⟨hstands₂, rfl, ho₂, hc₂.predicate⟩⟩

/-- Driven by all tuples, an equation derives what its rule derives. -/
theorem StandsFor.derived_eq {a : Atom} {e : Equation} (h : StandsFor p r a e) (hp : p.Accepted)
    (hr : r ∈ p.rules) (hfresh : r.FreshTargets) (ha : a ∈ r.positive) (E : Evaluator)
    (D : Database p) : e.derived E D = r.derived E D := by
  ext t
  unfold Equation.derived
  rw [h.driving, h.mem_derivedFrom hfresh E D _ (Set.Subset.refl _) t,
    Rule.mem_derived_iff (hp.safe r hr) (hp.flagged r hr) hfresh]
  refine exists_congr fun σ => and_congr_right fun hall => ?_
  exact and_iff_right (hall a ha)

/-- The equations of a rule: each positive atom drives one, and nothing else drives any. -/
structure Covers (p : Program) (r : Rule) (equations : List Equation) : Prop where
  complete : ∀ a ∈ r.positive, ∃ e ∈ equations, StandsFor p r a e
  sound : ∀ e ∈ equations, ∃ a ∈ r.positive, StandsFor p r a e

/-- Every accepted rule compiles, whatever views exist already, and its equations cover it. -/
theorem ofRule_covers (hp : p.Accepted) (hr : r ∈ p.rules) (registry : ViewRegistry)
    (number : Nat) :
    ∃ equations, (ofRule p registry r number).result = .ok equations ∧ Covers p r equations := by
  rcases positive_cases (hp.safe r hr) with ⟨a, hpos⟩ | ⟨a, b, hpos⟩
  · refine ⟨_, by rw [ofRule_unary hp hr hpos registry number], ?_⟩
    have hstands := standsFor_unary hp hr hpos number
    constructor
    · intro x hx
      rw [hpos, List.mem_singleton] at hx
      exact ⟨_, List.mem_singleton.2 rfl, hx ▸ hstands⟩
    · intro e he
      rw [List.mem_singleton.1 he]
      exact ⟨a, by rw [hpos]; exact List.mem_cons_self, hstands⟩
  · obtain ⟨e₁, e₂, -, -, hresult, ⟨hstands₁, -⟩, hstands₂, -⟩ :=
      ofRule_pair hp hr hpos registry number
    refine ⟨[e₁, e₂], hresult, ?_, ?_⟩
    · intro x hx
      rw [hpos, List.mem_cons, List.mem_singleton] at hx
      rcases hx with rfl | rfl
      · exact ⟨e₁, List.mem_cons_self, hstands₁⟩
      · exact ⟨e₂, List.mem_cons_of_mem _ List.mem_cons_self, hstands₂⟩
    · intro e he
      rw [hpos]
      rcases List.mem_cons.1 he with rfl | he
      · exact ⟨a, List.mem_cons_self, hstands₁⟩
      · rw [List.mem_singleton.1 he]
        exact ⟨b, List.mem_cons_of_mem _ List.mem_cons_self, hstands₂⟩

/-- **Compilation keeps the meaning of rules.** An accepted rule whose assigned variable stands in
no positive atom compiles, whatever views exist already. With one positive atom it becomes one
equation without a lookup; with two it becomes two, the first atom driving in one and the second in
the other. Over every database and for every meaning of expressions, each of these equations derives
exactly the head tuples that the rule derives. -/
theorem derived_eq_of_accepted {file source : String} {mode : Mode}
    (hp : Program.ofSource file source mode = .ok p) (hr : r ∈ p.rules)
    (hfresh : r.FreshTargets) (E : Evaluator) (D : Database p) (registry : ViewRegistry)
    (number : Nat) :
    (∃ a e, r.positive = [a] ∧ (ofRule p registry r number).result = .ok [e]
      ∧ e.driving = a.predicate ∧ e.consulting = none ∧ e.derived E D = r.derived E D)
    ∨ ∃ a b e₁ e₂ c₁ c₂, r.positive = [a, b]
      ∧ (ofRule p registry r number).result = .ok [e₁, e₂]
      ∧ (e₁.driving = a.predicate ∧ e₁.consulting = some c₁ ∧ c₁.orientation = .firstDrives
        ∧ c₁.predicate = b.predicate ∧ e₁.derived E D = r.derived E D)
      ∧ (e₂.driving = b.predicate ∧ e₂.consulting = some c₂ ∧ c₂.orientation = .secondDrives
        ∧ c₂.predicate = a.predicate ∧ e₂.derived E D = r.derived E D) := by
  have hacc := Program.accepted_of_ofSource hp
  rcases positive_cases (hacc.safe r hr) with ⟨a, hpos⟩ | ⟨a, b, hpos⟩
  · left
    have ha : a ∈ r.positive := by rw [hpos]; exact List.mem_cons_self
    refine ⟨a, .ofRule r number a none, hpos, ?_, rfl, rfl, ?_⟩
    · rw [ofRule_unary hacc hr hpos registry number]
    · exact (standsFor_unary hacc hr hpos number).derived_eq hacc hr hfresh ha E D
  · right
    obtain ⟨e₁, e₂, c₁, c₂, hresult, ⟨hstands₁, hc₁⟩, hstands₂, hc₂⟩ :=
      ofRule_pair hacc hr hpos registry number
    have ha : a ∈ r.positive := by rw [hpos]; exact List.mem_cons_self
    have hb : b ∈ r.positive := by rw [hpos]; exact List.mem_cons_of_mem _ List.mem_cons_self
    have hderived₁ := hstands₁.derived_eq hacc hr hfresh ha E D
    have hderived₂ := hstands₂.derived_eq hacc hr hfresh hb E D
    exact ⟨a, b, e₁, e₂, c₁, c₂, hpos, hresult,
      ⟨hstands₁.driving, hc₁.1, hc₁.2.1, hc₁.2.2, hderived₁⟩,
      ⟨hstands₂.driving, hc₂.1, hc₂.2.1, hc₂.2.2, hderived₂⟩⟩

/-- A join of a predicate with itself, with a constant, repeated variables and an assignment. -/
theorem derived_eq_self_join :
    ∃ p r, Program.ofSource "pairs.dl"
        "pair(X, S) :- edge(X, X, 3), edge(X, Z, Z), S = X + Z." .failFast = .ok p
      ∧ r ∈ p.rules ∧ r.FreshTargets ∧ ∀ (E : Evaluator) (D : Database p),
        ∃ e₁ e₂, (ofRule p .empty r 1).result = .ok [e₁, e₂]
          ∧ e₁.derived E D = r.derived E D ∧ e₂.derived E D = r.derived E D := by
  have hread : (match Program.ofSource "pairs.dl"
        "pair(X, S) :- edge(X, X, 3), edge(X, Z, Z), S = X + Z." .failFast with
      | .ok p => p.rules.any fun r => r.positive.length == 2 && decide r.FreshTargets
      | .error _ => false) = true := by
    decide +kernel
  split at hread
  case h_2 => cases hread
  case h_1 p hp =>
    obtain ⟨r, hr, hcheck⟩ := List.any_eq_true.1 hread
    simp only [Bool.and_eq_true, beq_iff_eq, decide_eq_true_eq] at hcheck
    obtain ⟨htwo, hfresh⟩ := hcheck
    refine ⟨p, r, hp, hr, hfresh, ?_⟩
    intro E D
    rcases derived_eq_of_accepted hp hr hfresh E D .empty 1 with
      ⟨a, e, hpos, -⟩ | ⟨a, b, e₁, e₂, c₁, c₂, -, hresult, h₁, h₂⟩
    · simp [hpos] at htwo
    · exact ⟨e₁, e₂, hresult, h₁.2.2.2.2, h₂.2.2.2.2⟩

end Accepted

end Compilation

end RulePlan
