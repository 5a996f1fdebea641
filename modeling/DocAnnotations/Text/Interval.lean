/-!
Intervals of code points, the form in which character classes are tabulated.
-/

namespace DocAnnotations.Text

/-- The code points from the first component to the second, both included. -/
abbrev Interval := Nat × Nat

/-- Whether `n` lies in one of the intervals. -/
def Interval.contains (intervals : List Interval) (n : Nat) : Bool :=
  intervals.any fun i => i.1 ≤ n && n ≤ i.2

theorem Interval.contains_iff {intervals : List Interval} {n : Nat} :
    Interval.contains intervals n = true ↔ ∃ i ∈ intervals, i.1 ≤ n ∧ n ≤ i.2 := by
  simp [Interval.contains]

end DocAnnotations.Text
