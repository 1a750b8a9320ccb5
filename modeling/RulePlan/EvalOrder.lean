import RulePlan.Graph.Reach

/-!
# RulePlan.EvalOrder — the order in which predicates are evaluated

Predicates fall into three blocks. Seeds have no producers. Derived predicates are those that can be
peeled off round by round, each once all its producers are gone; they are listed by round. What
remains lies on a cycle or behind one, and is ranked by the number of producers it keeps once the
other blocks are gone, then by the number it keeps without the seeds, higher first. Names decide
between equals. Seeds from which a derived predicate can be reached stand before the other seeds.
-/

namespace RulePlan

/-- The three blocks of predicates. -/
structure EvalOrder where
  seeds : List String
  derived : List String
  cyclic : List String
deriving DecidableEq, Repr

namespace EvalOrder

/-- The blocks one after the other. -/
def all (o : EvalOrder) : List String := o.seeds ++ o.derived ++ o.cyclic

/-- The members of a set, in the same blocks and order. -/
def restrict (o : EvalOrder) (names : Names) : EvalOrder :=
  ⟨o.seeds.filter (· ∈ names), o.derived.filter (· ∈ names), o.cyclic.filter (· ∈ names)⟩

/-- The producers that `x` keeps once some nodes are gone. -/
def inDegree (g : Graph) (removed : Names) (x : String) : Nat :=
  ((g.producers x).filter (· ∉ removed)).length

/-- The nodes of `remaining` whose producers are all gone. -/
def ready (g : Graph) (removed remaining : Names) : Names :=
  remaining.filter fun x => inDegree g removed x == 0

/-- The other nodes of `remaining`. -/
def waiting (g : Graph) (removed remaining : Names) : Names :=
  remaining.filter fun x => inDegree g removed x != 0

/-- If some nodes are ready, fewer are waiting than there were. -/
theorem length_waiting_lt {g : Graph} {removed remaining : Names}
    (h : ready g removed remaining ≠ []) :
    (waiting g removed remaining).length < remaining.length := by
  obtain ⟨x, hx⟩ := List.exists_mem_of_ne_nil _ h
  obtain ⟨hm, hd⟩ := List.mem_filter.1 hx
  exact List.length_filter_lt_length_iff_exists.2 ⟨x, hm, by simpa using hd⟩

/-- Peels off nodes round by round, with the round in which each leaves. -/
def peel (g : Graph) (round : Nat) (removed remaining : Names) : List (String × Nat) :=
  if _h : ready g removed remaining = [] then []
  else
    (ready g removed remaining).map (·, round)
      ++ peel g (round + 1) (removed ++ ready g removed remaining) (waiting g removed remaining)
termination_by remaining.length
decreasing_by exact length_waiting_lt _h

/-- Sorts by a number, the higher first if `down`, and leaves equals in place. -/
def sortByNumber (down : Bool) (key : String → Nat) (l : List String) : List String :=
  l.mergeSort fun a b => if down then key b ≤ key a else key a ≤ key b

/-- The order of the members of graph, intensional and negated predicates. -/
def ofGraph (g : Graph) (intensional negated : Names) : EvalOrder :=
  let nodes := Names.sorted (Names.addAll (Names.addAll g.keys intensional) negated)
  let rounds := peel g 0 [] nodes
  let peeled := nodes.filter fun x => (rounds.lookup x).isSome
  let seeds := peeled.filter fun x => inDegree g [] x == 0
  let derived := sortByNumber false (fun x => (rounds.lookup x).getD 0)
    (peeled.filter fun x => inDegree g [] x != 0)
  let preceding := g.predecessorTable
  let feeding := derived.flatMap fun x => (preceding.lookup x).getD []
  let rest := nodes.filter (· ∉ peeled)
  { seeds := seeds.filter (· ∈ feeding) ++ seeds.filter (· ∉ feeding)
    derived
    cyclic := sortByNumber true (inDegree g peeled) (sortByNumber true (inDegree g seeds) rest) }

end EvalOrder

end RulePlan
