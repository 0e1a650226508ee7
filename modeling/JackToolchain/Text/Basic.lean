/-!
# Blanks and digits

Words of both languages end at a blank, which is any character with the Unicode
property `White_Space`. Numbers in both are unsigned and written with ASCII digits. In what
is printed, columns line up by blanks, and widths count characters.

* `isBlank`: membership in the property.
* `decimal?`: the value of a non-empty run of digits.
* `isBlank_of_isDigit`: no digit is blank.
* `padRight`: a text that fills a column.
-/

namespace JackToolchain.Text

/-- The ranges of the Unicode property `White_Space`, both ends included. -/
def blankRanges : List (Nat × Nat) :=
  [(0x09, 0x0D), (0x20, 0x20), (0x85, 0x85), (0xA0, 0xA0), (0x1680, 0x1680), (0x2000, 0x200A),
   (0x2028, 0x2029), (0x202F, 0x202F), (0x205F, 0x205F), (0x3000, 0x3000)]

/-- Whether a character separates words. -/
def isBlank (c : Char) : Bool :=
  blankRanges.any fun r => r.1 ≤ c.toNat && c.toNat ≤ r.2

/-- The property has 25 members. -/
example : (blankRanges.map fun r => r.2 + 1 - r.1).sum = 25 := rfl

/-- The value of a run of ASCII digits read after the digits of `acc`. -/
def decimalValue (acc : Nat) (digits : List Char) : Nat :=
  digits.foldl (fun n d => 10 * n + (d.toNat - '0'.toNat)) acc

/-- The number that a non-empty run of ASCII digits writes. -/
def decimal? (digits : List Char) : Option Nat :=
  if digits ≠ [] ∧ digits.all Char.isDigit then some (decimalValue 0 digits) else none

theorem isBlank_of_isDigit {c : Char} (hc : c.isDigit = true) : isBlank c = false := by
  have hrange : 48 ≤ c.toNat ∧ c.toNat ≤ 57 := by
    simpa [Char.isDigit, UInt32.le_iff_toNat_le] using hc
  simp only [isBlank, blankRanges, List.any_cons, List.any_nil, Bool.or_false,
    Bool.or_eq_false_iff, Bool.and_eq_false_iff, decide_eq_false_iff_not]
  omega

/-- As many blanks as asked for. -/
def blanks (n : Nat) : String :=
  String.ofList (List.replicate n ' ')

/-- Pads a text on its right to a width. A longer text stays as it is. -/
def padRight (width : Nat) (s : String) : String :=
  s ++ blanks (width - s.length)

end JackToolchain.Text
