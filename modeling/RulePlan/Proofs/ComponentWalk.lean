import Mathlib.Data.List.Basic
import Mathlib.Order.Nat
import RulePlan.Graph.Components
import RulePlan.Proofs.Reachability

/-!
# RulePlan.Proofs.ComponentWalk — the walk takes off exactly the components

The invariant speaks of the nodes on the stack and of the path, those that have been entered and not
left. From bottom to top the stack is in order of numbers, every node on it reaches all that stand
above it, and every node reaches a node of the path that is not above it. What has been taken off
leads only to what has been taken off before, and what has been left only to what has been entered.

Low numbers matter while a node is on the path. At each moment of following its consumers, the low
number of a node is a bound on all edges that lead below it, from itself or from what was pushed
since it was entered, and it is the number of a node that it reaches. When all consumers have been
followed, a low number below its own leads to a node further down, and through it to the path. If
the low number is still its own, no edge leads below, so the node and what stands above it are
closed but for what was taken off: they are one class of mutual reachability.
-/

namespace RulePlan

namespace Walk

open Relation

variable {g : Graph} {s t : Walk} {path base : List String} {v w x : String}

/-! ## What the steps change -/

theorem indexOf_enter_self (s : Walk) (v : String) : (s.enter v).indexOf v = s.next := by
  unfold indexOf enter
  rw [List.lookup_cons_self, Option.getD_some]

theorem indexOf_enter_of_ne (h : x ≠ v) : (s.enter v).indexOf x = s.indexOf x := by
  unfold indexOf enter
  rw [List.lookup_cons, beq_false_of_ne h]

theorem lowOf_enter_self (s : Walk) (v : String) : (s.enter v).lowOf v = s.next := by
  unfold lowOf enter
  rw [List.lookup_cons_self, Option.getD_some]

theorem lowOf_enter_of_ne (h : x ≠ v) : (s.enter v).lowOf x = s.lowOf x := by
  unfold lowOf enter
  rw [List.lookup_cons, beq_false_of_ne h]

theorem lowOf_lower_self (s : Walk) (v : String) (n : Nat) :
    (s.lower v n).lowOf v = min (s.lowOf v) n := by
  show ((if n < s.lowOf v then (v, n) :: s.low else s.low).lookup v).getD 0 = _
  split
  case isTrue h => rw [List.lookup_cons_self, Option.getD_some, Nat.min_eq_right (Nat.le_of_lt h)]
  case isFalse h => rw [Nat.min_eq_left (Nat.le_of_not_lt h), lowOf]

theorem lowOf_lower_of_ne (n : Nat) (h : x ≠ v) : (s.lower v n).lowOf x = s.lowOf x := by
  show ((if n < s.lowOf v then (v, n) :: s.low else s.low).lookup x).getD 0 = _
  split
  case isTrue => rw [List.lookup_cons, beq_false_of_ne h, lowOf]
  case isFalse => rw [lowOf]

theorem indexOf_leave (s : Walk) (v x : String) : (s.leave v).indexOf x = s.indexOf x := by
  unfold leave
  split <;> rfl

theorem lowOf_leave (s : Walk) (v x : String) : (s.leave v).lowOf x = s.lowOf x := by
  unfold leave
  split <;> rfl

/-- Two states agree on the nodes that the first has entered, low number of `v` aside, and all of
these are entered in the second. -/
structure Extends (v : String) (s t : Walk) : Prop where
  entered : s.entered ⊆ t.entered
  index : ∀ x ∈ s.entered, t.indexOf x = s.indexOf x
  low : ∀ x ∈ s.entered, x ≠ v → t.lowOf x = s.lowOf x

theorem Extends.refl (v : String) (s : Walk) : s.Extends v s :=
  ⟨List.Subset.refl _, fun _ _ => rfl, fun _ _ _ => rfl⟩

theorem Extends.trans {u : Walk} (h : s.Extends v t) (h' : t.Extends v u) : s.Extends v u where
  entered := List.Subset.trans h.entered h'.entered
  index x hx := (h'.index x (h.entered hx)).trans (h.index x hx)
  low x hx hne := (h'.low x (h.entered hx) hne).trans (h.low x hx hne)

theorem extends_lower (s : Walk) (v : String) (n : Nat) : s.Extends v (s.lower v n) where
  entered := List.Subset.refl _
  index _ _ := rfl
  low _ _ hne := lowOf_lower_of_ne n hne

theorem extends_glance (s : Walk) (v w : String) : s.Extends v (s.glance v w) := by
  unfold glance
  split
  · exact extends_lower s v _
  · exact .refl v s

theorem extends_leave (s : Walk) (v : String) : s.Extends v (s.leave v) where
  entered := s.entered_leave v ▸ List.Subset.refl _
  index x _ := s.indexOf_leave v x
  low x _ _ := s.lowOf_leave v x

theorem extends_enter (h : v ∉ s.entered) : s.Extends v (s.enter v) where
  entered := List.subset_cons_self _ _
  index _ hx := indexOf_enter_of_ne fun heq => h (heq ▸ hx)
  low _ _ hne := lowOf_enter_of_ne hne

/-! ## The invariant -/

/-- The node is in a component that has been taken off. -/
def Settled (s : Walk) (x : String) : Prop := ∃ c ∈ s.components, x ∈ c

/-- What holds whenever the nodes of the path have been entered and not left. -/
structure Sound (g : Graph) (path : List String) (s : Walk) : Prop where
  nodes : ∀ x ∈ s.entered, x ∈ g.nodes
  entered_iff : ∀ x, x ∈ s.entered ↔ x ∈ s.stack ∨ s.Settled x
  index_lt : ∀ x ∈ s.stack, s.indexOf x < s.next
  sorted : s.stack.Pairwise fun x y => s.indexOf y < s.indexOf x
  waiting : ∀ x ∈ path, x ∈ s.stack
  up : ∀ x ∈ s.stack, ∀ y ∈ s.stack, s.indexOf x ≤ s.indexOf y → g.Reaches x y
  down : ∀ y ∈ s.stack, ∃ x ∈ path, s.indexOf x ≤ s.indexOf y ∧ g.Reaches y x
  left : ∀ x ∈ s.entered, x ∉ path → ∀ y, g.Edge x y → y ∈ s.entered
  settled : ∀ x, s.Settled x → x ∉ s.stack ∧ ∀ y, g.Edge x y → s.Settled y
  classes : ∀ c ∈ s.components, ∃ x, ∀ y, y ∈ c ↔ g.Reaches x y ∧ g.Reaches y x
  apart : s.components.Pairwise List.Disjoint

theorem sound_start (g : Graph) : start.Sound g [] where
  nodes _ hx := absurd hx List.not_mem_nil
  entered_iff x := by simp [start, entered, Settled]
  index_lt _ hx := absurd hx List.not_mem_nil
  sorted := List.Pairwise.nil
  waiting _ hx := absurd hx List.not_mem_nil
  up _ hx := absurd hx List.not_mem_nil
  down _ hy := absurd hy List.not_mem_nil
  left _ hx := absurd hx List.not_mem_nil
  settled := by
    rintro x ⟨c, hc, -⟩
    exact absurd hc List.not_mem_nil
  classes _ hc := absurd hc List.not_mem_nil
  apart := List.Pairwise.nil

/-- No number on the path or elsewhere depends on low numbers. -/
theorem Sound.lower (h : s.Sound g path) (v : String) (n : Nat) : (s.lower v n).Sound g path :=
  { h with }

theorem Sound.entered_of_mem_stack (h : s.Sound g path) (hx : x ∈ s.stack) : x ∈ s.entered :=
  (h.entered_iff x).2 (.inl hx)

/-- What has been taken off leads nowhere else. -/
theorem Sound.settled_of_reaches (h : s.Sound g path) {x y : String} (hx : s.Settled x)
    (hxy : g.Reaches x y) : s.Settled y := by
  induction hxy with
  | refl => exact hx
  | tail _ hedge ih => exact (h.settled _ ih).2 _ hedge

/-- Nodes above a node on the stack have larger numbers, nodes below it smaller ones. -/
theorem Sound.index_split (h : s.Sound g path) {top : List String}
    (hstack : s.stack = top ++ v :: base) :
    (∀ y ∈ top, s.indexOf v < s.indexOf y) ∧ ∀ z ∈ base, s.indexOf z < s.indexOf v := by
  have hsorted := h.sorted
  rw [hstack, List.pairwise_append] at hsorted
  obtain ⟨-, hbase, hcross⟩ := hsorted
  exact ⟨fun y hy => hcross y hy v List.mem_cons_self, (List.pairwise_cons.1 hbase).1⟩

/-- Entering a node that the whole stack reaches makes it the end of the path. -/
theorem Sound.enter (h : s.Sound g path) (hnode : v ∈ g.nodes) (hv : v ∉ s.entered)
    (hreach : ∀ x ∈ s.stack, g.Reaches x v) : (s.enter v).Sound g (v :: path) := by
  have hindex : ∀ {x}, x ∈ s.stack → (s.enter v).indexOf x = s.indexOf x := fun hx =>
    (extends_enter hv).index _ (h.entered_of_mem_stack hx)
  have hself := s.indexOf_enter_self v
  exact
    { nodes := List.forall_mem_cons.2 ⟨hnode, h.nodes⟩
      entered_iff := by
        intro x
        show x ∈ v :: s.entered ↔ x ∈ v :: s.stack ∨ s.Settled x
        rw [List.mem_cons, List.mem_cons, h.entered_iff x, or_assoc]
      index_lt := by
        refine List.forall_mem_cons.2 ⟨hself ▸ Nat.lt_succ_self _, fun x hx => ?_⟩
        rw [hindex hx]
        exact Nat.lt_succ_of_lt (h.index_lt x hx)
      sorted := by
        refine List.pairwise_cons.2 ⟨fun y hy => ?_, h.sorted.imp_of_mem fun hx hy hlt => ?_⟩
        · rw [hself, hindex hy]
          exact h.index_lt y hy
        · rwa [hindex hx, hindex hy]
      waiting := by
        refine List.forall_mem_cons.2 ⟨List.mem_cons_self, fun x hx => ?_⟩
        exact List.mem_cons_of_mem v (h.waiting x hx)
      up := by
        intro x hx y hy hle
        -- the new node has the largest number, so nothing on the stack is above it
        rcases List.mem_cons.1 hx with hxv | hx <;> rcases List.mem_cons.1 hy with hyv | hy
        · rw [hxv, hyv]
          exact .refl
        · rw [hxv, hself, hindex hy] at hle
          exact absurd (h.index_lt y hy) (Nat.not_lt.2 hle)
        · rw [hyv]
          exact hreach x hx
        · rw [hindex hx, hindex hy] at hle
          exact h.up x hx y hy hle
      down := by
        refine List.forall_mem_cons.2 ⟨⟨v, List.mem_cons_self, Nat.le_refl _, .refl⟩, ?_⟩
        intro y hy
        obtain ⟨x, hx, hle, hyx⟩ := h.down y hy
        refine ⟨x, List.mem_cons_of_mem v hx, ?_, hyx⟩
        rwa [hindex (h.waiting x hx), hindex hy]
      left := by
        intro x hx hpath y hedge
        rw [List.mem_cons, not_or] at hpath
        have hx' := (List.mem_cons.1 hx).resolve_left hpath.1
        exact List.mem_cons_of_mem v (h.left x hx' hpath.2 y hedge)
      settled := by
        intro x hx
        refine ⟨fun hstack => ?_, (h.settled x hx).2⟩
        rcases List.mem_cons.1 hstack with rfl | hstack
        · exact hv ((h.entered_iff x).2 (.inr hx))
        · exact (h.settled x hx).1 hstack
      classes := h.classes
      apart := h.apart }

/-! ## Following the consumers of a node -/

/-- The consumers of `v` have been followed but for `ws`. `base` is the stack on which `v` was put,
and the path in front of `v` lies in it. -/
structure Following (g : Graph) (path base : List String) (v : String) (ws : List String)
    (s : Walk) : Prop where
  sound : s.Sound g (v :: path)
  below : ∀ x ∈ path, x ∈ base
  stack : ∃ top, s.stack = top ++ v :: base
    ∧ ∀ y ∈ top, ∀ z ∈ base, g.Edge y z → s.lowOf v ≤ s.indexOf z
  todo : ∀ w ∈ ws, g.Edge v w
  done : ∀ z, g.Edge v z → z ∈ ws ∨ z ∈ s.entered ∧ (z ∈ base → s.lowOf v ≤ s.indexOf z)
  low : s.lowOf v = s.indexOf v ∨ ∃ z ∈ base, s.indexOf z = s.lowOf v ∧ g.Reaches v z

/-- `w` has been walked to the end: it has been entered, and its low number is a bound on all edges
from what was pushed since to what had been on the stack, unless it is the number that `w` got, the
number of such a node that `w` reaches. -/
structure Visited (g : Graph) (path : List String) (w : String) (s t : Walk) : Prop where
  sound : t.Sound g path
  extend : s.Extends w t
  entered : w ∈ t.entered
  stack : ∃ top, t.stack = top ++ s.stack
    ∧ ∀ y ∈ top, ∀ z ∈ s.stack, g.Edge y z → t.lowOf w ≤ s.indexOf z
  low : t.lowOf w = s.next ∨ ∃ z ∈ s.stack, s.indexOf z = t.lowOf w ∧ g.Reaches w z

section Following

variable {ws : List String} (h : s.Following g path base v ws)

include h

theorem Following.mem_stack : v ∈ s.stack := h.sound.waiting v List.mem_cons_self

theorem Following.mem_stack_of_base (hx : x ∈ base) : x ∈ s.stack := by
  obtain ⟨top, hstack, -⟩ := h.stack
  rw [hstack]
  exact List.mem_append_right _ (List.mem_cons_of_mem v hx)

theorem Following.index_lt (hx : x ∈ base) : s.indexOf x < s.indexOf v := by
  obtain ⟨top, hstack, -⟩ := h.stack
  exact (h.sound.index_split hstack).2 x hx

theorem Following.low_le : s.lowOf v ≤ s.indexOf v := by
  rcases h.low with hlow | ⟨z, hz, hlow, -⟩
  · exact hlow.le
  · exact hlow ▸ (h.index_lt hz).le

/-- A number on the stack below the low number is that of a node in the base. -/
theorem Following.mem_base (hx : x ∈ s.stack) (hlt : s.indexOf x < s.lowOf v) : x ∈ base := by
  obtain ⟨top, hstack, -⟩ := h.stack
  have hbelow : s.indexOf x < s.indexOf v := Nat.lt_of_lt_of_le hlt h.low_le
  rw [hstack] at hx
  rcases List.mem_append.1 hx with hx | hx
  · exact absurd ((h.sound.index_split hstack).1 x hx) (Nat.lt_asymm hbelow)
  · rcases List.mem_cons.1 hx with rfl | hx
    · exact absurd hbelow (Nat.lt_irrefl _)
    · exact hx

/-- Everything on the stack reaches the node whose consumers are followed. -/
theorem Following.reaches (hx : x ∈ s.stack) : g.Reaches x v := by
  obtain ⟨y, hy, -, hxy⟩ := h.sound.down x hx
  rcases List.mem_cons.1 hy with rfl | hy
  · exact hxy
  · have hbase := h.below y hy
    exact hxy.trans
      (h.sound.up y (h.mem_stack_of_base hbase) v h.mem_stack (h.index_lt hbase).le)

end Following

/-- Following starts when the node is entered. -/
theorem Sound.following (h : s.Sound g path) (hg : g.keys.Nodup) (hnode : v ∈ g.nodes)
    (hv : v ∉ s.entered) (hreach : ∀ x ∈ s.stack, g.Reaches x v) :
    (s.enter v).Following g path s.stack v (Names.sorted (g.consumers v)) where
  sound := h.enter hnode hv hreach
  below := h.waiting
  stack := ⟨[], rfl, fun _ hy => absurd hy List.not_mem_nil⟩
  todo _ hw := (Graph.mem_consumers_iff hg).1 (Names.mem_sorted.1 hw)
  done _ hz := .inl (Names.mem_sorted.2 ((Graph.mem_consumers_iff hg).2 hz))
  low := .inl (by rw [lowOf_enter_self, indexOf_enter_self])

/-- A consumer that was entered before is followed by a glance. -/
theorem Following.glance {ws : List String} (h : s.Following g path base v (w :: ws))
    (hw : w ∈ s.entered) : (s.glance v w).Following g path base v ws := by
  have htodo : ∀ u ∈ ws, g.Edge v u := fun u hu => h.todo u (List.mem_cons_of_mem w hu)
  have hdone : ∀ z, g.Edge v z →
      z = w ∨ z ∈ ws ∨ z ∈ s.entered ∧ (z ∈ base → s.lowOf v ≤ s.indexOf z) := by
    intro z hz
    rw [← or_assoc, ← List.mem_cons]
    exact h.done z hz
  by_cases hstack : w ∈ s.stack
  case neg =>
    -- what has been taken off is in no base
    rw [Walk.glance, if_neg hstack]
    refine { h with todo := htodo, done := fun z hz => ?_ }
    rcases hdone z hz with rfl | hz
    · exact .inr ⟨hw, fun hbase => absurd (h.mem_stack_of_base hbase) hstack⟩
    · exact hz
  case pos =>
    rw [Walk.glance, if_pos hstack]
    have hlow := s.lowOf_lower_self v (s.indexOf w)
    obtain ⟨top, hsplit, hcross⟩ := h.stack
    refine
      { sound := h.sound.lower v _
        below := h.below
        stack := ⟨top, hsplit, fun y hy z hz hedge => ?_⟩
        todo := htodo
        done := fun z hz => ?_
        low := ?_ }
    · rw [hlow]
      exact (Nat.min_le_left _ _).trans (hcross y hy z hz hedge)
    · rw [hlow]
      rcases hdone z hz with rfl | hz | ⟨hz, hbound⟩
      · exact .inr ⟨hw, fun _ => Nat.min_le_right _ _⟩
      · exact .inl hz
      · exact .inr ⟨hz, fun hbase => (Nat.min_le_left _ _).trans (hbound hbase)⟩
    · rw [hlow]
      rcases Nat.lt_or_ge (s.indexOf w) (s.lowOf v) with hlt | hge
      · rw [Nat.min_eq_right hlt.le]
        exact .inr ⟨w, h.mem_base hstack hlt, rfl, .single (h.todo w List.mem_cons_self)⟩
      · rw [Nat.min_eq_left hge]
        exact h.low

/-- A consumer that was new is followed by walking it to the end and going back. -/
theorem Following.back {ws : List String} (h : s.Following g path base v (w :: ws))
    (hw : w ∉ s.entered) (ht : Visited g (v :: path) w s t) :
    (t.back v w).Following g path base v ws := by
  have hlow : (t.back v w).lowOf v = min (s.lowOf v) (t.lowOf w) := by
    have hv := h.sound.entered_of_mem_stack h.mem_stack
    have hne : v ≠ w := fun heq => hw (heq ▸ hv)
    rw [Walk.back, lowOf_lower_self, ht.extend.low v hv hne]
  have hindex : ∀ {x}, x ∈ s.stack → (t.back v w).indexOf x = s.indexOf x := fun hx =>
    ht.extend.index _ (h.sound.entered_of_mem_stack hx)
  obtain ⟨top, hsplit, hcross⟩ := h.stack
  obtain ⟨more, hmore, hbeyond⟩ := ht.stack
  refine
    { sound := ht.sound.lower v _
      below := h.below
      stack := ⟨more ++ top, ?_, fun y hy z hz hedge => ?_⟩
      todo := fun u hu => h.todo u (List.mem_cons_of_mem w hu)
      done := fun z hz => ?_
      low := ?_ }
  · rw [List.append_assoc, ← hsplit]
    exact hmore
  · have hzstack := h.mem_stack_of_base hz
    rw [hlow, hindex hzstack]
    rcases List.mem_append.1 hy with hy | hy
    · exact (Nat.min_le_right _ _).trans (hbeyond y hy z hzstack hedge)
    · exact (Nat.min_le_left _ _).trans (hcross y hy z hz hedge)
  · rcases h.done z hz with hz | ⟨hz, hbound⟩
    · rcases List.mem_cons.1 hz with rfl | hz
      · -- a node in the base had been entered before
        refine .inr ⟨ht.entered, fun hbase => absurd ?_ hw⟩
        exact h.sound.entered_of_mem_stack (h.mem_stack_of_base hbase)
      · exact .inl hz
    · refine .inr ⟨ht.extend.entered hz, fun hbase => ?_⟩
      rw [hlow, hindex (h.mem_stack_of_base hbase)]
      exact (Nat.min_le_left _ _).trans (hbound hbase)
  · rw [hlow, hindex h.mem_stack]
    rcases Nat.lt_or_ge (t.lowOf w) (s.lowOf v) with hlt | hge
    · rw [Nat.min_eq_right hlt.le]
      rcases ht.low with hnext | ⟨z, hz, hzlow, hwz⟩
      · -- the number that `w` got is larger than all on the stack
        have hlast := h.sound.index_lt v h.mem_stack
        exact absurd (hnext ▸ hlt) (Nat.not_lt.2 (h.low_le.trans hlast.le))
      · have hbase : z ∈ base := h.mem_base hz (hzlow ▸ hlt)
        refine .inr ⟨z, hbase, (hindex hz).trans hzlow, ?_⟩
        exact ReflTransGen.head (h.todo w List.mem_cons_self) hwz
    · rw [Nat.min_eq_left hge]
      refine h.low.imp_right fun ⟨z, hz, hzlow, hvz⟩ => ⟨z, hz, ?_, hvz⟩
      rw [hindex (h.mem_stack_of_base hz), hzlow]

/-! ## Leaving a node -/

theorem leave_of_ne (h : s.lowOf v ≠ s.indexOf v) : s.leave v = s := if_neg h

/-- A node with its own low number takes all that stands above it off the stack. -/
theorem leave_of_eq {top : List String} (h : s.lowOf v = s.indexOf v)
    (hstack : s.stack = top ++ v :: base) (hv : v ∉ top) :
    s.leave v = { s with stack := base, components := s.components ++ [top ++ [v]] } := by
  have htop : ∀ x ∈ top, decide (x ≠ v) = true := by
    intro x hx
    exact decide_eq_true fun heq => hv (heq ▸ hx)
  rw [leave, if_pos h, hstack, List.takeWhile_append_of_pos htop, List.dropWhile_append_of_pos htop]
  simp

/-- What was pushed on the base, `v` included, is on the stack. -/
theorem mem_stack_of_pushed {top : List String} (hstack : s.stack = top ++ v :: base) :
    ∀ y ∈ top ++ [v], y ∈ s.stack := by
  intro y hy
  rw [hstack, List.append_cons]
  exact List.mem_append_left _ hy

section Leaving

variable (h : s.Following g path base v [])

include h

/-- What is no longer on the path has been left with all its consumers entered. -/
theorem Following.left : ∀ x ∈ s.entered, x ∉ path → ∀ y, g.Edge x y → y ∈ s.entered := by
  intro x hx hpath y hedge
  by_cases hxv : x = v
  · subst hxv
    exact ((h.done y hedge).resolve_left List.not_mem_nil).1
  · exact h.sound.left x hx (fun hmem => (List.mem_cons.1 hmem).elim hxv hpath) y hedge

/-- The low number is a bound on the edges to the base from all that was pushed on it. -/
theorem Following.bound : ∃ top, s.stack = top ++ v :: base
    ∧ ∀ y ∈ top ++ [v], ∀ z ∈ base, g.Edge y z → s.lowOf v ≤ s.indexOf z := by
  obtain ⟨top, hstack, hcross⟩ := h.stack
  refine ⟨top, hstack, fun y hy z hz hedge => ?_⟩
  rcases List.mem_append.1 hy with hy | hy
  · exact hcross y hy z hz hedge
  · rw [List.mem_singleton.1 hy] at hedge
    exact ((h.done z hedge).resolve_left List.not_mem_nil).2 hz

variable {top : List String} (hstack : s.stack = top ++ v :: base)

include hstack

theorem Following.index_le : ∀ y ∈ top ++ [v], s.indexOf v ≤ s.indexOf y := by
  intro y hy
  rcases List.mem_append.1 hy with hy | hy
  · exact ((h.sound.index_split hstack).1 y hy).le
  · rw [List.mem_singleton.1 hy]

/-- A node without an edge to the base among all that was pushed leads only to these and to what
has been taken off. -/
theorem Following.closed (hbound : ∀ y ∈ top ++ [v], ∀ z ∈ base, ¬g.Edge y z) :
    ∀ y ∈ top ++ [v], ∀ z, g.Edge y z → z ∈ top ++ [v] ∨ s.Settled z := by
  intro y hy z hedge
  have hpath : y ∉ path := by
    intro hpath
    exact absurd (h.index_lt (h.below y hpath)) (Nat.not_lt.2 (h.index_le hstack y hy))
  have hentered := h.sound.entered_of_mem_stack (mem_stack_of_pushed hstack y hy)
  rcases (h.sound.entered_iff z).1 (h.left y hentered hpath z hedge) with hz | hz
  · rw [hstack, List.append_cons] at hz
    exact .inl ((List.mem_append.1 hz).resolve_right fun hbase => hbound y hy z hbase hedge)
  · exact .inr hz

/-- All that was pushed is one class, if no edge leads from it to the base. -/
theorem Following.class (hbound : ∀ y ∈ top ++ [v], ∀ z ∈ base, ¬g.Edge y z) (y : String) :
    y ∈ top ++ [v] ↔ g.Reaches v y ∧ g.Reaches y v := by
  constructor
  · intro hy
    have hystack := mem_stack_of_pushed hstack y hy
    exact ⟨h.sound.up v h.mem_stack y hystack (h.index_le hstack y hy), h.reaches hystack⟩
  · rintro ⟨hvy, hyv⟩
    have hout : y ∈ top ++ [v] ∨ s.Settled y := by
      clear hyv
      induction hvy with
      | refl => exact .inl List.mem_concat_self
      | tail _ hedge ih =>
        rcases ih with hz | hz
        · exact h.closed hstack hbound _ hz _ hedge
        · exact .inr ((h.sound.settled _ hz).2 _ hedge)
    -- nothing leads back from what has been taken off
    refine hout.resolve_right fun hy => ?_
    exact (h.sound.settled v (h.sound.settled_of_reaches hy hyv)).1 h.mem_stack

/-- A class that no edge leads out of may be taken off. -/
theorem Following.sound_taken (hbound : ∀ y ∈ top ++ [v], ∀ z ∈ base, ¬g.Edge y z) :
    Sound g path { s with stack := base, components := s.components ++ [top ++ [v]] } := by
  have hsettled : ∀ x,
      Settled { s with stack := base, components := s.components ++ [top ++ [v]] } x
        ↔ s.Settled x ∨ x ∈ top ++ [v] := by
    intro x
    simp only [Settled, List.mem_append, List.mem_singleton, or_and_right, exists_or,
      exists_eq_left]
  have hsub : base.Sublist s.stack := by
    rw [hstack, List.append_cons]
    exact List.sublist_append_right _ _
  have hmem : ∀ x ∈ base, x ∈ s.stack := fun x hx => hsub.subset hx
  exact
    { nodes := h.sound.nodes
      entered_iff := by
        intro x
        rw [hsettled, or_left_comm, or_comm (a := x ∈ base), ← List.mem_append, List.append_assoc,
          List.singleton_append, ← hstack, or_comm]
        exact h.sound.entered_iff x
      index_lt := fun x hx => h.sound.index_lt x (hmem x hx)
      sorted := h.sound.sorted.sublist hsub
      waiting := h.below
      up := fun x hx y hy => h.sound.up x (hmem x hx) y (hmem y hy)
      down := by
        intro y hy
        obtain ⟨x, hx, hle, hyx⟩ := h.sound.down y (hmem y hy)
        refine ⟨x, (List.mem_cons.1 hx).resolve_left ?_, hle, hyx⟩
        rintro rfl
        exact absurd hle (Nat.not_le.2 (h.index_lt hy))
      left := h.left
      settled := by
        intro x hx
        rcases (hsettled x).1 hx with hx | hx
        · obtain ⟨hoff, hedges⟩ := h.sound.settled x hx
          exact ⟨fun hbase => hoff (hmem x hbase), fun y hy => (hsettled y).2 (.inl (hedges y hy))⟩
        · refine ⟨fun hbase => ?_, fun y hy => (hsettled y).2 ?_⟩
          · exact absurd (h.index_lt hbase) (Nat.not_lt.2 (h.index_le hstack x hx))
          · exact (h.closed hstack hbound x hx y hy).symm
      classes := by
        intro c hc
        rcases List.mem_append.1 hc with hc | hc
        · exact h.sound.classes c hc
        · rw [List.mem_singleton.1 hc]
          exact ⟨v, h.class hstack hbound⟩
      apart := by
        refine List.pairwise_append.2 ⟨h.sound.apart, List.pairwise_singleton _ _, ?_⟩
        intro c hc d hd x hxc hxd
        rw [List.mem_singleton.1 hd] at hxd
        exact (h.sound.settled x ⟨c, hc, hxc⟩).1 (mem_stack_of_pushed hstack x hxd) }

omit hstack

/-- A node that reaches a node further down may be left on the stack. -/
theorem Following.sound_kept {z : String} (hz : z ∈ base) (hvz : g.Reaches v z) :
    s.Sound g path where
  nodes := h.sound.nodes
  entered_iff := h.sound.entered_iff
  index_lt := h.sound.index_lt
  sorted := h.sound.sorted
  waiting x hx := h.mem_stack_of_base (h.below x hx)
  up := h.sound.up
  down := by
    intro y hy
    obtain ⟨x, hx, hle, hyx⟩ := h.sound.down y hy
    rcases List.mem_cons.1 hx with rfl | hx
    · -- what ended its way at `v` goes on through `z`
      obtain ⟨u, hu, hule, hzu⟩ := h.sound.down z (h.mem_stack_of_base hz)
      have hlt := Nat.lt_of_le_of_lt hule (h.index_lt hz)
      refine ⟨u, (List.mem_cons.1 hu).resolve_left ?_, hlt.le.trans hle,
        hyx.trans (hvz.trans hzu)⟩
      rintro rfl
      exact Nat.lt_irrefl _ hlt
    · exact ⟨x, hx, hle, hyx⟩
  left := h.left
  settled := h.sound.settled
  classes := h.sound.classes
  apart := h.sound.apart

end Leaving

/-- A node whose consumers have all been followed is left, taken off or not. -/
theorem Following.visited {u : Walk} (hs : s.Sound g path) (hv : v ∉ s.entered)
    (h : u.Following g path s.stack v []) (hext : (s.enter v).Extends v u) :
    Visited g path v s (u.leave v) := by
  have hextend : s.Extends v u := (extends_enter hv).trans hext
  have hindex : ∀ z ∈ s.stack, u.indexOf z = s.indexOf z := fun z hz =>
    hextend.index z (hs.entered_of_mem_stack hz)
  have hentered : v ∈ (u.leave v).entered := by
    rw [entered_leave]
    exact hext.entered List.mem_cons_self
  have hnumber : u.indexOf v = s.next := by
    rw [hext.index v List.mem_cons_self, indexOf_enter_self]
  have hlow : (u.leave v).lowOf v = s.next
      ∨ ∃ z ∈ s.stack, s.indexOf z = (u.leave v).lowOf v ∧ g.Reaches v z := by
    rw [lowOf_leave, ← hnumber]
    refine h.low.imp_right fun ⟨z, hz, hzlow, hvz⟩ => ⟨z, hz, ?_, hvz⟩
    rw [← hindex z hz, hzlow]
  obtain ⟨top, hstack, hbound⟩ := h.bound
  by_cases hroot : u.lowOf v = u.indexOf v
  case pos =>
    have hnone : ∀ y ∈ top ++ [v], ∀ z ∈ s.stack, ¬g.Edge y z := by
      intro y hy z hz hedge
      exact absurd (h.index_lt hz) (Nat.not_lt.2 (hroot ▸ hbound y hy z hz hedge))
    have htop : v ∉ top := fun hmem =>
      Nat.lt_irrefl _ ((h.sound.index_split hstack).1 v hmem)
    have hleave := leave_of_eq hroot hstack htop
    refine ⟨?_, hextend.trans (extends_leave u v), hentered, ⟨[], ?_, ?_⟩, hlow⟩
    · rw [hleave]
      exact h.sound_taken hstack hnone
    · rw [hleave]
      rfl
    · exact fun y hy => absurd hy List.not_mem_nil
  case neg =>
    obtain ⟨z, hz, -, hvz⟩ := h.low.resolve_left hroot
    refine ⟨?_, hextend.trans (extends_leave u v), hentered, ⟨top ++ [v], ?_, ?_⟩, hlow⟩
    · rw [leave_of_ne hroot]
      exact h.sound_kept hz hvz
    · rw [leave_of_ne hroot, hstack, List.append_assoc]
      rfl
    · intro y hy w hw hedge
      rw [lowOf_leave, ← hindex w hw]
      exact hbound y hy w hw hedge

/-! ## The whole walk -/

theorem Extends.of_new (h : s.Extends w t) (hw : w ∉ s.entered) : s.Extends v t where
  entered := h.entered
  index := h.index
  low x hx _ := h.low x hx fun heq => hw (heq ▸ hx)

/-- Following keeps the invariant until no consumer is left, and changes nothing that the caller
knows but the low number of the node itself. -/
theorem following_follow (hg : g.keys.Nodup) {ws : List String}
    (h : s.Following g path base v ws) :
    (g.follow v ws s).1.Following g path base v [] ∧ s.Extends v (g.follow v ws s).1 := by
  fun_induction Graph.follow g v ws s generalizing path base with
  | case1 v s =>
    exact ⟨h, .refl v s⟩
  | case2 v s w ws hw ih =>
    obtain ⟨hfollow, hext⟩ := ih (h.glance hw)
    exact ⟨hfollow, (extends_glance s v w).trans hext⟩
  | case3 v s w ws hw t ihInner =>
    rename_i ihRest
    -- `w` is entered on the present stack, followed to the end and left, before `ws` is followed
    have hedge : g.Edge v w := h.todo w List.mem_cons_self
    have hreach : ∀ x ∈ s.stack, g.Reaches x w := fun x hx => (h.reaches hx).tail hedge
    have hstart := h.sound.following hg (Graph.mem_nodes_right hedge) hw hreach
    obtain ⟨hinner, hinnerExt⟩ := ihInner hstart
    have hvisited := hinner.visited h.sound hw hinnerExt
    obtain ⟨hfollow, hext⟩ := ihRest (h.back hw hvisited)
    exact ⟨hfollow, (hvisited.extend.of_new hw).trans ((extends_lower _ v _).trans hext)⟩

/-- With an empty path the stack is empty. -/
theorem Sound.stack_eq_nil (h : s.Sound g []) : s.stack = [] := by
  refine List.eq_nil_iff_forall_not_mem.2 fun x hx => ?_
  obtain ⟨y, hy, -⟩ := h.down x hx
  exact absurd hy List.not_mem_nil

theorem Sound.visitNew (h : s.Sound g []) (hg : g.keys.Nodup) (hv : v ∈ g.nodes) :
    (g.visitNew s v).Sound g [] ∧ s.entered ⊆ (g.visitNew s v).entered
      ∧ v ∈ (g.visitNew s v).entered := by
  unfold Graph.visitNew
  split
  case isTrue hentered => exact ⟨h, List.Subset.refl _, hentered⟩
  case isFalse hnew =>
    have hreach : ∀ x ∈ s.stack, g.Reaches x v := by
      rw [h.stack_eq_nil]
      exact fun x hx => absurd hx List.not_mem_nil
    obtain ⟨hfollow, hext⟩ := following_follow hg (h.following hg hv hnew hreach)
    have hvisited := hfollow.visited h hnew hext
    exact ⟨hvisited.sound, hvisited.extend.entered, hvisited.entered⟩

theorem Sound.foldl_visitNew (h : s.Sound g []) (hg : g.keys.Nodup) (vs : List String)
    (hvs : ∀ v ∈ vs, v ∈ g.nodes) :
    (vs.foldl g.visitNew s).Sound g [] ∧ s.entered ⊆ (vs.foldl g.visitNew s).entered
      ∧ ∀ v ∈ vs, v ∈ (vs.foldl g.visitNew s).entered := by
  induction vs generalizing s with
  | nil => exact ⟨h, List.Subset.refl _, fun v hv => absurd hv List.not_mem_nil⟩
  | cons v vs ih =>
    obtain ⟨hv, hvs⟩ := List.forall_mem_cons.1 hvs
    obtain ⟨hsound, hmono, hmem⟩ := h.visitNew hg hv
    obtain ⟨hfinal, hrest, hall⟩ := ih hsound hvs
    exact ⟨hfinal, List.Subset.trans hmono hrest, List.forall_mem_cons.2 ⟨hrest hmem, hall⟩⟩

/-- The walk from all producers keeps the invariant and enters every one of them. -/
theorem sound_walk (hg : g.keys.Nodup) : g.walk.Sound g [] ∧ ∀ x ∈ g.keys, x ∈ g.walk.entered := by
  obtain ⟨hsound, -, hkeys⟩ := (sound_start g).foldl_visitNew hg (Names.sorted g.keys)
    fun x hx => Graph.mem_nodes_iff.2 (.inl (Names.mem_sorted.1 hx))
  exact ⟨hsound, fun x hx => hkeys x (Names.mem_sorted.2 hx)⟩

/-- In the end the nodes have been taken off, all of them and no others. -/
theorem settled_walk_iff (hg : g.keys.Nodup) {x : String} : g.walk.Settled x ↔ x ∈ g.nodes := by
  obtain ⟨hsound, hkeys⟩ := sound_walk hg
  have hentered : x ∈ g.walk.entered ↔ g.walk.Settled x := by
    refine (hsound.entered_iff x).trans (or_iff_right ?_)
    rw [hsound.stack_eq_nil]
    exact List.not_mem_nil
  rw [← hentered]
  refine ⟨hsound.nodes x, fun hx => ?_⟩
  rcases Graph.mem_nodes_iff.1 hx with hkey | ⟨y, hedge⟩
  · exact hkeys x hkey
  · exact hsound.left y (hkeys y (Graph.mem_keys_of_edge hedge)) List.not_mem_nil x hedge

end Walk

end RulePlan
