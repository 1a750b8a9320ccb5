/-!
# RulePlan.Names — finite sets of names

A set of names is a list without repetitions in order of insertion. Where an order is shown it is
the order of the names' UTF-8 bytes, which for valid text is the order of their characters.
-/

namespace RulePlan

/-- A finite set of names, in order of insertion. -/
abbrev Names := List String

namespace Names

/-- Adds a name at the end unless it is there. -/
def add (s : Names) (name : String) : Names := if name ∈ s then s else s ++ [name]

/-- Adds names one after the other. -/
def addAll (s : Names) (names : List String) : Names := names.foldl add s

/-- The set of the names in a list. -/
def ofList (names : List String) : Names := addAll [] names

/-- Names in ascending order. -/
def sorted (names : List String) : List String := names.mergeSort (fun a b => decide (a ≤ b))

/-- The names of `a` that are not in `b`, in ascending order and each once. -/
def missing (a b : List String) : List String := sorted (ofList (a.filter (· ∉ b)))

theorem mem_add {s : Names} {x y : String} : x ∈ add s y ↔ x ∈ s ∨ x = y := by
  unfold add
  split
  · constructor
    · exact Or.inl
    · rintro (h | rfl)
      · exact h
      · assumption
  · simp

theorem mem_addAll {s : Names} {l : List String} {x : String} :
    x ∈ addAll s l ↔ x ∈ s ∨ x ∈ l := by
  induction l generalizing s with
  | nil => simp [addAll]
  | cons y l ih =>
    have step : addAll s (y :: l) = addAll (add s y) l := rfl
    rw [step, ih, mem_add, List.mem_cons, or_assoc]

theorem mem_ofList {l : List String} {x : String} : x ∈ ofList l ↔ x ∈ l := by
  simp [ofList, mem_addAll]

theorem mem_sorted {l : List String} {x : String} : x ∈ sorted l ↔ x ∈ l := List.mem_mergeSort

end Names

end RulePlan
