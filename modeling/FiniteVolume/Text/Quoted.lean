import FiniteVolume.Text.Glyph

/-!
# Quoted text

A name inside a description stands between double quotes. Quotes, backslashes, line breaks, tabs
and the null character are escaped by a backslash, and a character without a glyph is written by
its code point. A name of the basic alphabet needs no escapes (`quote_of_visible`).
-/

namespace FiniteVolume.Text

/-- One character of a quoted text. -/
def quoteChar (c : Char) : String :=
  if c = '"' then "\\\""
  else if c = '\\' then "\\\\"
  else if c = '\n' then "\\n"
  else if c = '\r' then "\\r"
  else if c = '\t' then "\\t"
  else if c.toNat = 0 then "\\0"
  else if hasGlyph c then c.toString
  else "\\u\x7b" ++ String.ofList (Nat.toDigits 16 c.toNat) ++ "\x7d"

/-- A text between double quotes. -/
def quote (text : String) : String :=
  "\"" ++ String.join (text.toList.map quoteChar) ++ "\""

/-- Visible characters of the basic alphabet stand for themselves, unless they escape others. -/
theorem quoteChar_of_visible {c : Char} (low : 0x20 ≤ c.toNat) (high : c.toNat ≤ 0x7e)
    (notQuote : c ≠ '"') (notBackslash : c ≠ '\\') : quoteChar c = c.toString := by
  have notBreak : c ≠ '\n' := by rintro rfl; exact absurd low (by decide)
  have notReturn : c ≠ '\r' := by rintro rfl; exact absurd low (by decide)
  have notTab : c ≠ '\t' := by rintro rfl; exact absurd low (by decide)
  have notNull : c.toNat ≠ 0 := by omega
  rw [quoteChar, if_neg notQuote, if_neg notBackslash, if_neg notBreak, if_neg notReturn,
    if_neg notTab, if_neg notNull, if_pos (hasGlyph_of_visible low high)]

/-- A text of visible characters that escapes nothing is quoted as it is. -/
theorem quote_of_visible {text : String}
    (visible : ∀ c ∈ text.toList, 0x20 ≤ c.toNat ∧ c.toNat ≤ 0x7e)
    (plain : ∀ c ∈ text.toList, c ≠ '"' ∧ c ≠ '\\') : quote text = "\"" ++ text ++ "\"" := by
  have themselves : text.toList.map quoteChar = text.toList.map Char.toString :=
    List.map_congr_left fun c member => quoteChar_of_visible (visible c member).1
      (visible c member).2 (plain c member).1 (plain c member).2
  have joined : String.join (text.toList.map Char.toString) = text := by
    rw [← String.toList_inj, String.toList_join, List.flatMap_map]
    simp
  rw [quote, themselves, joined]

end FiniteVolume.Text
