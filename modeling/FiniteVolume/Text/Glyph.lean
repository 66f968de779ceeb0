import FiniteVolume.Text.Combining
import FiniteVolume.Text.Unassigned

/-!
# Characters with a glyph of their own

Control, format, blank and private characters and fillers show nothing, a combining mark shows only
on the character before it, and an unassigned code point has no shape. All other characters have a
glyph (`hasGlyph_iff`), among them every visible character of the basic alphabet
(`hasGlyph_of_visible`).
-/

namespace FiniteVolume.Text

/-- Control, format and private characters, fillers, and blanks other than the space. -/
def invisible : List CodeRange :=
  [(0x0, 0x1f), (0x7f, 0xa0), (0xad, 0xad), (0x600, 0x605), (0x61c, 0x61c), (0x6dd, 0x6dd),
   (0x70f, 0x70f), (0x890, 0x891), (0x8e2, 0x8e2), (0x115f, 0x1160), (0x1680, 0x1680),
   (0x180e, 0x180e), (0x2000, 0x200f), (0x2028, 0x202f), (0x205f, 0x2064), (0x2066, 0x206f),
   (0x3000, 0x3000), (0x3164, 0x3164), (0xe000, 0xf8ff), (0xfeff, 0xfeff), (0xffa0, 0xffa0),
   (0xfff9, 0xfffb), (0x110bd, 0x110bd), (0x110cd, 0x110cd), (0x13430, 0x1343f), (0x1bca0, 0x1bca3),
   (0x1d173, 0x1d17a), (0xe0001, 0xe0001), (0xe0020, 0xe007f), (0xf0000, 0xffffd),
   (0x100000, 0x10fffd)]

/-- The ranges of invisible characters are in order. -/
theorem invisible_ascending : ascending invisible := by
  decide +kernel

/-- Whether a character shows a glyph of its own. -/
def hasGlyph (c : Char) : Bool :=
  !(covers invisible c.toNat || covers combining c.toNat || covers unassigned c.toNat)

/-- A character has a glyph exactly when it is outside all ranges of the three tables. -/
theorem hasGlyph_iff {c : Char} :
    hasGlyph c ↔
      ∀ range ∈ invisible ++ combining ++ unassigned, range.1 ≤ c.toNat → range.2 < c.toNat := by
  rw [hasGlyph, covers_eq_any invisible_ascending, covers_eq_any combining_ascending,
    covers_eq_any unassigned_ascending, ← List.any_append, ← List.any_append, Bool.not_eq_true',
    List.any_eq_false]
  simp only [Bool.and_eq_true, decide_eq_true_eq, not_and, Nat.not_le]

/-- Every character from the space to the tilde has a glyph. -/
theorem hasGlyph_of_visible {c : Char} (low : 0x20 ≤ c.toNat) (high : c.toNat ≤ 0x7e) :
    hasGlyph c := by
  have apart : (invisible ++ combining ++ unassigned).all fun range =>
      range.2 < 0x20 || 0x7e < range.1 := by
    decide +kernel
  refine hasGlyph_iff.mpr fun range member begun => ?_
  have outside := List.all_eq_true.mp apart range member
  simp only [Bool.or_eq_true, decide_eq_true_eq] at outside
  omega

end FiniteVolume.Text
