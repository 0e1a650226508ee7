import JackToolchain.Text.Basic
import JackToolchain.Text.Position

/-!
# Lines and fields

The line format of VM code is read in two cuts: a text into lines, a line into the
fields between its blanks. Both keep the byte offset at which a piece starts.

* `unixNewlines`: a text with every `\r\n` written `\n`.
* `lines`: the lines of a text.
* `fields`: the maximal blank-free runs of a line.
-/

namespace JackToolchain.Text

/-- Writes every carriage return and line feed pair as a single line feed. -/
def unixNewlines : List Char → List Char
  | '\r' :: '\n' :: cs => '\n' :: unixNewlines cs
  | c :: cs => c :: unixNewlines cs
  | [] => []

/-- The text up to the first line feed, and the text behind it if there is one. -/
def splitLine : List Char → List Char × Option (List Char)
  | [] => ([], none)
  | '\n' :: cs => ([], some cs)
  | c :: cs =>
    let (line, rest) := splitLine cs
    (c :: line, rest)

theorem length_lt_of_splitLine {cs line rest : List Char}
    (h : splitLine cs = (line, some rest)) : rest.length < cs.length := by
  induction cs generalizing line with
  | nil => simp [splitLine] at h
  | cons c cs ih =>
    by_cases hc : c = '\n'
    · subst hc
      simp only [splitLine, Prod.mk.injEq, Option.some.injEq] at h
      simp [← h.2]
    · simp only [splitLine, Prod.mk.injEq] at h
      have hrest : splitLine cs = ((splitLine cs).1, some rest) := by rw [← h.2]
      have := ih hrest
      simp only [List.length_cons]
      omega

/-- A line that ends in a line feed loses one carriage return before it. -/
def withoutCarriageReturn (line : List Char) : List Char :=
  if line.getLast? = some '\r' then line.dropLast else line

/-- The lines of a text. A line feed ends a line, so none follows the last one. -/
def lines (cs : List Char) : List (List Char) :=
  match _ : splitLine cs with
  | ([], none) => []
  | (line, none) => [line]
  | (line, some rest) => withoutCarriageReturn line :: lines rest
termination_by cs.length
decreasing_by exact length_lt_of_splitLine ‹_›

/-- The part of a line before the first `//`. -/
def beforeComment : List Char → List Char
  | '/' :: '/' :: _ => []
  | c :: cs => c :: beforeComment cs
  | [] => []

/-- A piece of a line with the byte offset of its first character. -/
structure TextField where
  offset : Nat
  text : String
deriving DecidableEq, Repr

/-- The byte offset behind a field. -/
def TextField.stop (f : TextField) : Nat :=
  f.offset + f.text.utf8ByteSize

/-- The maximal blank-free runs of a line whose first character has the given offset. -/
def fields (offset : Nat) (line : List Char) : List TextField :=
  match line with
  | [] => []
  | c :: cs =>
    if isBlank c then
      fields (offset + c.utf8Size) cs
    else
      let word := c :: cs.takeWhile (!isBlank ·)
      ⟨offset, String.ofList word⟩ ::
        fields (offset + byteSize word) (cs.dropWhile (!isBlank ·))
termination_by line.length
decreasing_by
  · simp
  · have := (List.dropWhile_suffix (!isBlank ·) (l := cs)).length_le
    simp only [List.length_cons]
    omega

end JackToolchain.Text
