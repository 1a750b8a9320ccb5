/-!
# RulePlan.Text.Ranges — sets of characters given by ranges of code points

A Unicode property is a list of closed ranges of code points in increasing order. Looking a
character up is a walk along the list.
-/

namespace RulePlan.Text

/-- A set of characters: closed ranges of code points. -/
abbrev Ranges := List (Nat × Nat)

namespace Ranges

/-- Whether a character lies in one of the ranges. -/
def has (ranges : Ranges) (c : Char) : Bool :=
  ranges.any fun (lo, hi) => lo ≤ c.toNat && c.toNat ≤ hi

theorem has_iff {ranges : Ranges} {c : Char} :
    ranges.has c = true ↔ ∃ r ∈ ranges, r.1 ≤ c.toNat ∧ c.toNat ≤ r.2 := by
  simp [has]

theorem has_append (r s : Ranges) (c : Char) : has (r ++ s) c = (has r c || has s c) := by
  simp [has, List.any_append]

end Ranges

end RulePlan.Text
