import Mathlib
import RulePlan.Proofs.ComponentWalk
import RulePlan.Stratum

/-!
# RulePlan.Proofs.Components — components are classes of mutual reachability

The walk takes all nodes off its stack, each time a whole class of nodes that reach each other. Two
nodes then have the same component number iff each reaches the other.
-/

namespace RulePlan

namespace Graph

variable {g : Graph}

theorem findIdx?_congr {components : List Names} {f h : Names → Bool}
    (hfh : ∀ c ∈ components, f c = h c) : components.findIdx? f = components.findIdx? h := by
  induction components with
  | nil => rfl
  | cons c components ih =>
    rw [List.findIdx?_cons, List.findIdx?_cons, hfh c List.mem_cons_self,
      ih fun d hd => hfh d (List.mem_cons_of_mem c hd)]

section Components

variable (hg : g.keys.Nodup)

include hg

/-- A component is the class of one of its nodes. -/
theorem mem_components {c : Names} (hc : c ∈ g.components) :
    ∃ x, ∀ y, y ∈ c ↔ g.Reaches x y ∧ g.Reaches y x :=
  (Walk.sound_walk hg).1.classes c hc

theorem exists_mem_components {x : String} (hx : x ∈ g.nodes) : ∃ c ∈ g.components, x ∈ c :=
  (Walk.settled_walk_iff hg).2 hx

/-- The number of a node is the place of the only component that holds it. -/
theorem component?_eq_some_iff {x : String} {n : Nat} :
    g.component? x = some n ↔ ∃ c, g.components[n]? = some c ∧ x ∈ c := by
  unfold component?
  constructor
  · intro h
    obtain ⟨hlt, hcontains, -⟩ := List.findIdx?_eq_some_iff_getElem.1 h
    exact ⟨_, List.getElem?_eq_getElem hlt, List.contains_iff_mem.1 hcontains⟩
  · rintro ⟨c, hc, hxc⟩
    obtain ⟨hlt, rfl⟩ := List.getElem?_eq_some_iff.1 hc
    refine List.findIdx?_eq_some_iff_getElem.2 ⟨hlt, List.contains_iff_mem.2 hxc, ?_⟩
    intro j hj hcontains
    -- an earlier component with the node would share it with this one
    have hapart :=
      List.pairwise_iff_getElem.1 (Walk.sound_walk hg).1.apart j n (hj.trans hlt) hlt hj
    exact hapart (List.contains_iff_mem.1 hcontains) hxc

theorem exists_component? {x : String} (hx : x ∈ g.nodes) :
    ∃ i c, g.component? x = some i ∧ g.components[i]? = some c ∧ x ∈ c := by
  obtain ⟨c, hc, hxc⟩ := exists_mem_components hg hx
  obtain ⟨i, hi⟩ := List.mem_iff_getElem?.1 hc
  exact ⟨i, c, (component?_eq_some_iff hg).2 ⟨c, hi, hxc⟩, hi, hxc⟩

/-- Two nodes have the same component number iff each reaches the other. -/
theorem component?_eq_iff {x y : String} (hx : x ∈ g.nodes) (hy : y ∈ g.nodes) :
    g.component? x = g.component? y ↔ g.Reaches x y ∧ g.Reaches y x := by
  constructor
  · intro h
    obtain ⟨i, c, hi, hc, hxc⟩ := exists_component? hg hx
    obtain ⟨j, d, hj, hd, hyd⟩ := exists_component? hg hy
    obtain rfl : i = j := Option.some.inj (hi.symm.trans (h.trans hj))
    obtain rfl : c = d := Option.some.inj (hc.symm.trans hd)
    obtain ⟨w, hclass⟩ := mem_components hg (List.mem_of_getElem? hc)
    obtain ⟨hwx, hxw⟩ := (hclass x).1 hxc
    obtain ⟨hwy, hyw⟩ := (hclass y).1 hyd
    exact ⟨hxw.trans hwy, hyw.trans hwx⟩
  · rintro ⟨hxy, hyx⟩
    -- no component tells the two nodes apart, so the first that holds one holds the other
    unfold component?
    refine findIdx?_congr fun c hc => ?_
    obtain ⟨w, hclass⟩ := mem_components hg hc
    rw [Bool.eq_iff_iff, List.contains_iff_mem, List.contains_iff_mem, hclass x, hclass y]
    constructor
    · rintro ⟨hwx, hxw⟩
      exact ⟨hwx.trans hxy, hyx.trans hxw⟩
    · rintro ⟨hwy, hyw⟩
      exact ⟨hwy.trans hyx, hxy.trans hyw⟩

theorem componentNumber_eq_iff {x y : String} (hx : x ∈ g.nodes) (hy : y ∈ g.nodes) :
    Layering.componentNumber g.components x = Layering.componentNumber g.components y
      ↔ g.Reaches x y ∧ g.Reaches y x := by
  rw [← component?_eq_iff hg hx hy]
  show (g.component? x).getD 0 = (g.component? y).getD 0 ↔ _
  obtain ⟨i, -, hi, -⟩ := exists_component? hg hx
  obtain ⟨j, -, hj, -⟩ := exists_component? hg hy
  rw [hi, hj, Option.getD_some, Option.getD_some, Option.some_inj]

/-- Only nodes have a component number. -/
theorem mem_nodes_of_component? {x : String} {n : Nat} (h : g.component? x = some n) :
    x ∈ g.nodes := by
  obtain ⟨c, hc, hxc⟩ := (component?_eq_some_iff hg).1 h
  exact (Walk.settled_walk_iff hg).1 ⟨c, List.mem_of_getElem? hc, hxc⟩

end Components

/-- **The walk numbers the classes of mutual reachability.** On every graph, self loops and
consumers that are not listed as producers included, the nodes that get a number are the producers
and the consumers; the number of a node is the place of the one component that holds it; and two
nodes get the same number iff each can be reached from the other. -/
theorem component?_numbers_classes (hg : g.keys.Nodup) :
    (∀ x, (∃ n, g.component? x = some n) ↔ x ∈ g.keys ∨ ∃ y, g.Edge y x)
      ∧ (∀ x n, g.component? x = some n ↔ ∃ c, g.components[n]? = some c ∧ x ∈ c)
      ∧ ∀ x y m n, g.component? x = some m → g.component? y = some n →
        (m = n ↔ g.Reaches x y ∧ g.Reaches y x) := by
  refine ⟨fun x => ?_, fun x n => component?_eq_some_iff hg, fun x y m n hm hn => ?_⟩
  · rw [← mem_nodes_iff]
    constructor
    · rintro ⟨n, hn⟩
      exact mem_nodes_of_component? hg hn
    · intro hx
      obtain ⟨n, -, hn, -⟩ := exists_component? hg hx
      exact ⟨n, hn⟩
  · rw [← component?_eq_iff hg (mem_nodes_of_component? hg hm) (mem_nodes_of_component? hg hn), hm,
      hn, Option.some_inj]

/-- A loop of three with a chord and a self loop, a predicate that feeds it, and two that hang on it
and are not listed. -/
def knotted : Graph :=
  ⟨[("start", ["a"]), ("a", ["b", "c"]), ("b", ["b", "c", "end"]), ("c", ["a", "other"])]⟩

/-- The loop is one component, and everything else stands alone. -/
theorem component?_knotted :
    knotted.keys.Nodup ∧ knotted.components = [["other"], ["end"], ["c", "b", "a"], ["start"]]
      ∧ (knotted.Reaches "c" "b" ∧ knotted.Reaches "b" "c")
      ∧ ¬(knotted.Reaches "start" "a" ∧ knotted.Reaches "a" "start")
      ∧ ∃ y, knotted.Edge y "end" := by
  have hkeys : knotted.keys.Nodup := by decide
  have hcomponents : knotted.components = [["other"], ["end"], ["c", "b", "a"], ["start"]] := by cbv
  obtain ⟨hnodes, hplaces, hclasses⟩ := component?_numbers_classes hkeys
  have hb : knotted.component? "b" = some 2 :=
    (hplaces "b" 2).2 ⟨["c", "b", "a"], by rw [hcomponents]; rfl, by decide⟩
  have hc : knotted.component? "c" = some 2 :=
    (hplaces "c" 2).2 ⟨["c", "b", "a"], by rw [hcomponents]; rfl, by decide⟩
  have ha : knotted.component? "a" = some 2 :=
    (hplaces "a" 2).2 ⟨["c", "b", "a"], by rw [hcomponents]; rfl, by decide⟩
  have hstart : knotted.component? "start" = some 3 :=
    (hplaces "start" 3).2 ⟨["start"], by rw [hcomponents]; rfl, by decide⟩
  have hend : knotted.component? "end" = some 1 :=
    (hplaces "end" 1).2 ⟨["end"], by rw [hcomponents]; rfl, by decide⟩
  refine ⟨hkeys, hcomponents, (hclasses "c" "b" 2 2 hc hb).1 rfl, fun h => ?_, ?_⟩
  · exact absurd ((hclasses "start" "a" 3 2 hstart ha).2 h) (by decide)
  · exact ((hnodes "end").1 ⟨1, hend⟩).resolve_left (by decide)

end Graph

end RulePlan
