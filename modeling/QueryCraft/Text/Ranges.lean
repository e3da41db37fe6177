/-!
Sets of characters as ranges of their codes.
-/

namespace QueryCraft.Text

/-- Whether a code lies in one of the ranges, the ends included. -/
def inRanges (ranges : List (Nat × Nat)) (code : Nat) : Bool :=
  ranges.any fun r => r.1 ≤ code && code ≤ r.2

theorem inRanges_eq_true_iff {ranges : List (Nat × Nat)} {code : Nat} :
    inRanges ranges code = true ↔ ∃ r ∈ ranges, r.1 ≤ code ∧ code ≤ r.2 := by
  simp [inRanges, List.any_eq_true]

end QueryCraft.Text
