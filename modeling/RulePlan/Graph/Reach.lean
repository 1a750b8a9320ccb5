import RulePlan.Graph

/-!
# RulePlan.Graph.Reach — what leads to a node

`closure` collects everything that a worklist reaches: each round either drops an element that is
known or takes in a new one, so it ends. From it come the strict predecessors of a node, and the
table of the predecessors of all nodes.
-/

namespace RulePlan

/-- Taking a new element of `domain` into `seen` leaves fewer elements outside. -/
theorem length_outside_cons_lt {domain seen : List String} {x : String} (hu : x ∈ domain)
    (hs : x ∉ seen) :
    (domain.filter (· ∉ x :: seen)).length < (domain.filter (· ∉ seen)).length := by
  have sub : domain.filter (· ∉ x :: seen) = (domain.filter (· ∉ seen)).filter (· ≠ x) := by
    rw [List.filter_filter]
    congr 1
    funext y
    simp [List.mem_cons, not_or]
  rw [sub]
  refine List.length_filter_lt_length_iff_exists.2 ⟨x, ?_, by simp⟩
  exact List.mem_filter.2 ⟨hu, by simpa using hs⟩

/-- Everything that the worklist `todo` reaches by `next` within `domain`, added to `seen`. -/
def closure (next : String → List String) (domain : List String) :
    (todo seen : List String) → List String
  | [], seen => seen
  | x :: todo, seen =>
    if _h : x ∈ domain ∧ x ∉ seen then closure next domain (todo ++ next x) (x :: seen)
    else closure next domain todo seen
termination_by todo seen => ((domain.filter (· ∉ seen)).length, todo.length)
decreasing_by
  · exact Prod.Lex.left _ _ (length_outside_cons_lt _h.1 _h.2)
  · exact Prod.Lex.right _ (by simp)

namespace Graph

/-- The number of nodes that are not among those found. -/
def unfound (g : Graph) (found : Names) : Nat := (g.nodes.filter (· ∉ found)).length

theorem unfound_le {g : Graph} {found more : Names} (h : found ⊆ more) :
    g.unfound more ≤ g.unfound found := by
  unfold unfound
  rw [← List.countP_eq_length_filter, ← List.countP_eq_length_filter]
  refine List.countP_mono_left fun x _ hx => ?_
  rw [decide_eq_true_eq] at hx ⊢
  exact fun hfound => hx (h hfound)

/-- What reaches `x` within some nodes in one or more steps, without `x`. -/
def predecessorsIn (g : Graph) (nodes : Names) (x : String) : Names :=
  (closure g.producers nodes (g.producers x) [x]).filter (· ≠ x)

/-- The nodes other than `x` that reach `x` in one or more steps. -/
def predecessors (g : Graph) (x : String) : Names := g.predecessorsIn g.nodes x

/-- The nodes, each with its predecessors. -/
def predecessorTable (g : Graph) : List (String × Names) :=
  let nodes := g.nodes
  nodes.map fun x => (x, g.predecessorsIn nodes x)

end Graph

end RulePlan
