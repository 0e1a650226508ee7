/-!
# Positions in a text

Offsets into a text count bytes of its UTF-8 form; people count lines and
characters. A position is what people read.

* `byteSize`: the number of bytes a list of characters takes.
* `splitAtByte`: the characters before and after a byte offset.
* `Position.at`: the line and column of a byte offset.
-/

namespace JackToolchain.Text

/-- The number of bytes that characters take in UTF-8. -/
def byteSize : List Char → Nat
  | [] => 0
  | c :: cs => c.utf8Size + byteSize cs

@[simp] theorem byteSize_nil : byteSize [] = 0 := rfl

@[simp] theorem byteSize_cons (c : Char) (cs : List Char) :
    byteSize (c :: cs) = c.utf8Size + byteSize cs := rfl

@[simp] theorem byteSize_append (cs ds : List Char) :
    byteSize (cs ++ ds) = byteSize cs + byteSize ds := by
  induction cs with
  | nil => simp
  | cons c cs ih => simp [ih, Nat.add_assoc]

theorem byteSize_toList (s : String) : byteSize s.toList = s.utf8ByteSize := by
  have hofList (cs : List Char) : byteSize cs = (String.ofList cs).utf8ByteSize := by
    induction cs with
    | nil => simp
    | cons c cs ih => simp [ih]
  rw [hofList, String.ofList_toList]

/-- Splits a text at a byte offset. The first part is the longest that takes at most
`offset` bytes, so an offset inside a character falls back to its start and one past
the end of the text is its end. -/
def splitAtByte : Nat → List Char → List Char × List Char
  | _, [] => ([], [])
  | offset, c :: cs =>
    if c.utf8Size ≤ offset then
      let (before, after) := splitAtByte (offset - c.utf8Size) cs
      (c :: before, after)
    else
      ([], c :: cs)

theorem splitAtByte_append (offset : Nat) (cs : List Char) :
    (splitAtByte offset cs).1 ++ (splitAtByte offset cs).2 = cs := by
  induction cs generalizing offset with
  | nil => rfl
  | cons c cs ih =>
    by_cases h : c.utf8Size ≤ offset
    · simp [splitAtByte, h, ih]
    · simp [splitAtByte, h]

/-- The last `n` characters that all satisfy `p`, for the greatest such `n`. -/
def takeWhileEnd (p : Char → Bool) (cs : List Char) : List Char :=
  (cs.reverse.takeWhile p).reverse

/-- What is left of a text without the characters that `takeWhileEnd` takes. -/
def dropWhileEnd (p : Char → Bool) (cs : List Char) : List Char :=
  (cs.reverse.dropWhile p).reverse

theorem dropWhileEnd_append_takeWhileEnd (p : Char → Bool) (cs : List Char) :
    dropWhileEnd p cs ++ takeWhileEnd p cs = cs := by
  simp only [dropWhileEnd, takeWhileEnd, ← List.reverse_append, List.takeWhile_append_dropWhile,
    List.reverse_reverse]

/-- A place in a text as its readers name it. -/
structure Position where
  /-- The number of the line, counted from 1. -/
  line : Nat
  /-- The number of characters before the place on its line. -/
  column : Nat
  /-- The whole line, without the carriage returns at its end. -/
  lineContent : String
deriving DecidableEq, Repr

/-- The position of a byte offset in a text. -/
def Position.at (content : String) (offset : Nat) : Position :=
  let (before, after) := splitAtByte offset content.toList
  let lineBefore := takeWhileEnd (· != '\n') before
  let lineAfter := after.takeWhile (· != '\n')
  { line := before.count '\n' + 1
    column := lineBefore.length
    lineContent := String.ofList (dropWhileEnd (· == '\r') (lineBefore ++ lineAfter)) }

end JackToolchain.Text
