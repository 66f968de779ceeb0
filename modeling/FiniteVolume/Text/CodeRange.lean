/-!
# Ranges of code points

A class of characters is a table of ranges in ascending order. In such a table the search for a
code point ends at the first range that begins after it (`covers_eq_any`).
-/

namespace FiniteVolume.Text

/-- A range of code points, ends included. -/
abbrev CodeRange := Nat × Nat

/-- Whether some range of an ascending table holds a code point. -/
def covers : List CodeRange → Nat → Bool
  | [], _ => false
  | range :: rest, code => range.1 ≤ code && (code ≤ range.2 || covers rest code)

/-- Whether every range of a table begins after the end of the one before it. -/
def ascending : List CodeRange → Bool
  | [] => true
  | [range] => range.1 ≤ range.2
  | range :: next :: rest => range.1 ≤ range.2 && range.2 < next.1 && ascending (next :: rest)

/-- All later ranges of an ascending table begin after the first one ends. -/
theorem le_of_ascending {range member : CodeRange} {rest : List CodeRange}
    (ordered : ascending (range :: rest)) (present : member ∈ rest) : range.2 < member.1 := by
  induction rest generalizing range with
  | nil => simp at present
  | cons next rest ih =>
    simp only [ascending, Bool.and_eq_true, decide_eq_true_eq] at ordered
    obtain ⟨⟨_, before⟩, tail⟩ := ordered
    rcases List.mem_cons.mp present with rfl | later
    · exact before
    · have after := ih tail later
      have wide : next.1 ≤ next.2 := by
        cases rest with
        | nil => simpa [ascending] using tail
        | cons => simp only [ascending, Bool.and_eq_true, decide_eq_true_eq] at tail; exact tail.1.1
      omega

/-- What follows the first range of an ascending table is ascending. -/
theorem ascending_tail {range : CodeRange} {rest : List CodeRange}
    (ordered : ascending (range :: rest)) : ascending rest := by
  cases rest with
  | nil => rfl
  | cons =>
    simp only [ascending, Bool.and_eq_true] at ordered
    exact ordered.2

/-- In an ascending table the early end of the search misses nothing. -/
theorem covers_eq_any {table : List CodeRange} (ordered : ascending table) (code : Nat) :
    covers table code = table.any fun range => range.1 ≤ code && code ≤ range.2 := by
  induction table with
  | nil => rfl
  | cons range rest ih =>
    rw [covers, List.any_cons, ih (ascending_tail ordered)]
    by_cases begun : range.1 ≤ code
    · simp [begun]
    · have wide : range.1 ≤ range.2 := by
        cases rest with
        | nil => simpa [ascending] using ordered
        | cons =>
          simp only [ascending, Bool.and_eq_true, decide_eq_true_eq] at ordered
          exact ordered.1.1
      simp only [begun, decide_false, Bool.false_and, Bool.false_or]
      symm
      rw [List.any_eq_false]
      intro member present
      have later := le_of_ascending ordered present
      simp only [Bool.and_eq_true, decide_eq_true_eq]
      omega

end FiniteVolume.Text
