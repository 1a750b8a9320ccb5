import RulePlan.Graph.Reach

/-!
# RulePlan.Graph.Components — what belongs together

The strongly connected components, by Tarjan's depth-first walk. Every node gets a number when the
walk enters it, and is put on a stack. Its low number starts as its own number and is lowered to the
number of any node on the stack that an edge leads to, and to the low number of any node that the
walk entered from it. If the low number is still its own when all consumers have been followed, the
node and all that stands above it on the stack are a component. The walk ends because it enters a
node once, and a name that is no node has no consumers to follow.
-/

namespace RulePlan

/-- What a walk has noted: the numbers of the nodes it has entered, the latest first, and their low
numbers, of which the latest counts; the nodes that are in no component yet, the last on top; the
next number; and the components found, in order. -/
structure Walk where
  index : List (String × Nat)
  low : List (String × Nat)
  stack : List String
  next : Nat
  components : List Names

namespace Walk

/-- A walk that has entered no node. -/
def start : Walk := ⟨[], [], [], 0, []⟩

/-- The nodes that the walk has entered. -/
def entered (s : Walk) : List String := s.index.map Prod.fst

/-- The number of a node. -/
def indexOf (s : Walk) (x : String) : Nat := (s.index.lookup x).getD 0

/-- The low number of a node. -/
def lowOf (s : Walk) (x : String) : Nat := (s.low.lookup x).getD 0

/-- Numbers a node and puts it on the stack. -/
def enter (s : Walk) (v : String) : Walk :=
  { s with
    index := (v, s.next) :: s.index
    low := (v, s.next) :: s.low
    stack := v :: s.stack
    next := s.next + 1 }

/-- Lowers the low number of a node to `n` unless it is as low already. -/
def lower (s : Walk) (v : String) (n : Nat) : Walk :=
  { s with low := if n < s.lowOf v then (v, n) :: s.low else s.low }

/-- Takes note of an edge to a node that has been entered before. -/
def glance (s : Walk) (v w : String) : Walk :=
  if w ∈ s.stack then s.lower v (s.indexOf w) else s

/-- Takes note of what was found behind an edge to a node that was entered along it. -/
def back (s : Walk) (v w : String) : Walk := s.lower v (s.lowOf w)

/-- Leaves a node after all its consumers have been followed. If it leads to nothing below it on the
stack, it is taken off with all that stands above it, and these nodes are a component. -/
def leave (s : Walk) (v : String) : Walk :=
  if s.lowOf v = s.indexOf v then
    { s with
      stack := (s.stack.dropWhile (· ≠ v)).drop 1
      components := s.components ++ [s.stack.takeWhile (· ≠ v) ++ [v]] }
  else s

theorem entered_glance (s : Walk) (v w : String) : (s.glance v w).entered = s.entered := by
  unfold glance
  split <;> rfl

theorem entered_leave (s : Walk) (v : String) : (s.leave v).entered = s.entered := by
  unfold leave
  split <;> rfl

theorem entered_leave_back (s : Walk) (v w : String) :
    ((s.leave w).back v w).entered = s.entered := s.entered_leave w

/-- A later state of a walk: what was entered remains so. -/
def Later (s : Walk) : Type := {t : Walk // s.entered ⊆ t.entered}

/-- What is later than a later state is later. -/
def Later.since {s u : Walk} (t : u.Later) (h : s.entered ⊆ u.entered) : s.Later :=
  ⟨t.1, fun _ hx => t.2 (h hx)⟩

end Walk

namespace Graph

theorem consumers_eq_nil {g : Graph} {x : String} (hx : x ∉ g.nodes) : g.consumers x = [] := by
  unfold consumers
  rw [List.lookup_eq_none_iff.2 fun e he => ?_, Option.getD_none]
  rw [bne_iff_ne]
  rintro rfl
  exact hx (mem_nodes_iff.2 (.inl (List.mem_map.2 ⟨e, he, rfl⟩)))

/-- Follows the edges from a node that has been entered to some of its consumers: a consumer that
has not been entered is walked to the end first. -/
def follow (g : Graph) (v : String) (ws : List String) (s : Walk) : s.Later :=
  match ws with
  | [] => ⟨s, List.Subset.refl _⟩
  | w :: ws =>
    if _h : w ∈ s.entered then
      (follow g v ws (s.glance v w)).since (s.entered_glance v w ▸ List.Subset.refl _)
    else
      let t := follow g w (Names.sorted (g.consumers w)) (s.enter w)
      (follow g v ws ((t.1.leave w).back v w)).since fun _ hx =>
        t.1.entered_leave_back v w ▸ t.2 (List.mem_cons_of_mem w hx)
termination_by (g.unfound s.entered, ws.length)
decreasing_by
  · rw [s.entered_glance]
    exact Prod.Lex.right _ (Nat.lt_succ_self _)
  · by_cases hw : w ∈ g.nodes
    · exact Prod.Lex.left _ _ (length_outside_cons_lt hw _h)
    · rw [consumers_eq_nil hw]
      exact Prod.Lex.right' _ (unfound_le (List.subset_cons_self _ _)) (by simp [Names.sorted])
  · refine Prod.Lex.right' _ (unfound_le fun x hx => ?_) (Nat.lt_succ_self _)
    rw [Walk.entered_leave_back]
    exact t.2 (List.mem_cons_of_mem w hx)

/-- Walks from a node to the end of all that it leads to. -/
def visit (g : Graph) (v : String) (s : Walk) : Walk :=
  (g.follow v (Names.sorted (g.consumers v)) (s.enter v)).1.leave v

/-- Walks from a node unless it has been entered. -/
def visitNew (g : Graph) (s : Walk) (v : String) : Walk :=
  if v ∈ s.entered then s else g.visit v s

/-- The walk from all listed producers, in order of name. -/
def walk (g : Graph) : Walk := (Names.sorted g.keys).foldl g.visitNew .start

/-- The strongly connected components, in the order in which the walk finds them. -/
def components (g : Graph) : List Names := g.walk.components

/-- The number of the component of a node. -/
def component? (g : Graph) (x : String) : Option Nat := g.components.findIdx? (·.contains x)

end Graph

end RulePlan
