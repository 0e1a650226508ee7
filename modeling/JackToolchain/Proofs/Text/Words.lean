import JackToolchain.Proofs.Text.Lines

/-!
# The words of a line

The lines of a text are what stands between its line feeds, and the words of a line are what
stands between its blanks, up to the comment. This is how a reader sees the text; `lines` and
`fields` cut it up one character at a time.

* `wordsOf`: the words of a text.
* `IsCode`, `isCode_iff`: the part of a line before its first `//`.
* `map_text_fields`: the fields of a line are its words.
* `Line`, `linesIn`: the lines of a text, each with the lines before it.
* `lines_eq_linesOf`: lines are cut at line feeds. One that is ended loses a carriage return, and
  an empty last one is none.
* `fields_withoutCarriageReturn`: that carriage return is in no word.
-/

namespace JackToolchain.Text

variable {c : Char} {cs line rest word : List Char} {ls : List (List Char)}

/-! ## Words -/

/-- The runs of characters between the blanks of a text. -/
def wordsOf (cs : List Char) : List String :=
  ((cs.splitOnP isBlank).filter (!·.isEmpty)).map String.ofList

theorem wordsOf_nil : wordsOf [] = [] := by
  rw [wordsOf, List.splitOnP_nil]
  rfl

theorem wordsOf_blank (hc : isBlank c) (cs : List Char) : wordsOf (c :: cs) = wordsOf cs := by
  rw [wordsOf, List.splitOnP_cons_eq_if_modifyHead, if_pos hc]
  rfl

/-- A run of characters without blanks is a word where no more of it follows. -/
theorem wordsOf_append (hne : word ≠ []) (hword : ∀ c ∈ word, isBlank c = false)
    (hrest : ∀ c ∈ rest.head?, isBlank c) :
    wordsOf (word ++ rest) = String.ofList word :: wordsOf rest := by
  have hempty : word.isEmpty = false := List.isEmpty_eq_false_iff.2 hne
  cases rest with
  | nil =>
    have hsplit : word.splitOnP isBlank = [word] := List.splitOnP_eq_singleton hword
    rw [List.append_nil, wordsOf_nil, wordsOf, hsplit]
    simp [hempty]
  | cons c rest =>
    have hc : isBlank c := hrest c rfl
    have hsplit : (word ++ c :: rest).splitOnP isBlank = word :: rest.splitOnP isBlank :=
      List.splitOnP_append_cons_of_forall_mem hword c hc rest
    rw [wordsOf_blank hc, wordsOf, hsplit]
    simp [hempty, wordsOf]

/-- What follows a run of characters without blanks starts with a blank. -/
theorem isBlank_of_head?_dropWhile (cs : List Char) :
    ∀ c ∈ (cs.dropWhile (!isBlank ·)).head?, isBlank c := by
  intro c hc
  have hstop := List.head?_dropWhile_not (!isBlank ·) cs
  rw [hc] at hstop
  simpa using hstop

theorem not_isBlank_of_mem_takeWhile (hc : isBlank c = false) (cs : List Char) :
    ∀ d ∈ c :: cs.takeWhile (!isBlank ·), isBlank d = false := by
  intro d hd
  rcases List.mem_cons.1 hd with rfl | hd
  · exact hc
  · have hplain := List.all_eq_true.1 List.all_takeWhile d hd
    simpa using hplain

/-- A text that starts with no blank starts with a word. -/
theorem wordsOf_cons_of_plain (hc : isBlank c = false) (cs : List Char) :
    wordsOf (c :: cs) = String.ofList (c :: cs.takeWhile (!isBlank ·)) ::
      wordsOf (cs.dropWhile (!isBlank ·)) := by
  have hsplit : c :: cs = (c :: cs.takeWhile (!isBlank ·)) ++ cs.dropWhile (!isBlank ·) := by
    rw [List.cons_append, List.takeWhile_append_dropWhile]
  have hwords := wordsOf_append (List.cons_ne_nil _ _) (not_isBlank_of_mem_takeWhile hc cs)
    (isBlank_of_head?_dropWhile cs)
  rwa [← hsplit] at hwords

/-- **The fields of a text are its words**, wherever it starts. -/
theorem map_text_fields (offset : Nat) (cs : List Char) :
    (fields offset cs).map TextField.text = wordsOf cs := by
  fun_induction fields offset cs with
  | case1 offset => exact wordsOf_nil.symm
  | case2 offset c cs hc ih => rw [ih, wordsOf_blank hc]
  | case3 offset c cs hc word ih =>
    have hplain : isBlank c = false := by simpa using hc
    rw [wordsOf_cons_of_plain hplain, List.map_cons, ih]

/-- A text without words is blank. -/
theorem wordsOf_eq_nil_iff : wordsOf cs = [] ↔ cs.all isBlank := by
  induction cs with
  | nil => exact iff_of_true wordsOf_nil rfl
  | cons c cs ih =>
    by_cases hc : isBlank c
    · rw [wordsOf_blank hc, ih, List.all_cons, hc, Bool.true_and]
    · have hplain : isBlank c = false := by simpa using hc
      rw [wordsOf_cons_of_plain hplain, List.all_cons, hplain]
      simp

/-! ## Comments -/

/-- The part of a line before its first `//`, or the whole line if there is none. -/
inductive IsCode : List Char → List Char → Prop where
  | whole {line : List Char} (h : ¬ ['/', '/'] <:+: line) : IsCode line line
  | cut {code comment : List Char} (h : ¬ ['/', '/'] <:+: code ++ ['/']) :
    IsCode (code ++ '/' :: '/' :: comment) code

theorem isCode_beforeComment (line : List Char) : IsCode line (beforeComment line) := by
  fun_induction beforeComment line with
  | case1 comment => exact @IsCode.cut [] comment (by decide)
  | case2 c cs hstart ih =>
    -- no comment starts at `c`, whichever way the line is cut behind it
    have hcons {front more : List Char} (hcs : cs = front ++ more)
        (hlater : ¬ ['/', '/'] <:+: front) : ¬ ['/', '/'] <:+: c :: front := by
      intro h
      rcases List.infix_cons_iff.1 h with h | h
      · obtain ⟨hc, hsecond⟩ := List.cons_prefix_cons.1 h
        have hprefix : front <+: cs := ⟨more, hcs.symm⟩
        obtain ⟨others, rfl⟩ := hsecond.trans hprefix
        exact hstart others hc.symm rfl
      · exact hlater h
    generalize hcode : beforeComment cs = code at ih
    cases ih with
    | whole h => exact .whole (hcons (List.append_nil _).symm h)
    | @cut _ comment h =>
      have hcs : code ++ '/' :: '/' :: comment = (code ++ ['/']) ++ '/' :: comment := by simp
      exact @IsCode.cut (c :: code) comment (hcons hcs h)
  | case3 => exact .whole (by decide)

/-- The code of a line ends where the first `//` starts. -/
theorem beforeComment_append {code : List Char} (h : ¬ ['/', '/'] <:+: code ++ ['/'])
    (comment : List Char) : beforeComment (code ++ '/' :: '/' :: comment) = code := by
  induction code with
  | nil => rfl
  | cons c code ih =>
    have hlater : ¬ ['/', '/'] <:+: code ++ ['/'] := fun hi => h (List.infix_cons hi)
    rw [List.cons_append, beforeComment, ih hlater]
    rintro more rfl hmore
    cases code with
    | nil => exact h (List.infix_refl _)
    | cons d code =>
      obtain ⟨rfl, -⟩ := List.cons.inj hmore
      exact h ⟨[], code ++ ['/'], rfl⟩

/-- A line has one part before its first `//`. -/
theorem isCode_iff {code : List Char} : IsCode line code ↔ beforeComment line = code := by
  constructor
  · intro h
    cases h with
    | whole h => exact beforeComment_eq_self h
    | cut h => exact beforeComment_append h _
  · rintro rfl
    exact isCode_beforeComment line

/-! ## Lines -/

/-- A line of a text, with the lines before it. -/
structure Line where
  before : List (List Char)
  text : List Char

namespace Line

/-- The text before a line. -/
def textBefore (l : Line) : List Char :=
  l.before.flatMap (· ++ ['\n'])

/-- The byte offset at which a line starts. -/
def start (l : Line) : Nat :=
  byteSize l.textBefore

/-- The number of a line, counted from 1. -/
def number (l : Line) : Nat :=
  l.before.length + 1

/-- How many lines before a line end in a carriage return. -/
def returns (l : Line) : Nat :=
  l.before.countP (·.getLast? = some '\r')

/-- The part of a line before its comment. -/
def code (l : Line) : List Char :=
  beforeComment l.text

end Line

/-- Lines that stand behind others. -/
def linesBehind (before : List (List Char)) : List (List Char) → List Line
  | [] => []
  | line :: more => ⟨before, line⟩ :: linesBehind (before ++ [line]) more

/-- The lines of a text, which stand between its line feeds. -/
def linesIn (cs : List Char) : List Line :=
  linesBehind [] (cs.splitOn '\n')

theorem map_text_linesBehind (before ls : List (List Char)) :
    (linesBehind before ls).map Line.text = ls := by
  induction ls generalizing before with
  | nil => rfl
  | cons line ls ih => rw [linesBehind, List.map_cons, ih]

/-- The lines that are read of the pieces between the line feeds of a text: all but the last
were ended by one, and lose a carriage return before it. An empty last piece is no line. -/
def linesOf : List (List Char) → List (List Char)
  | [] => []
  | [last] => if last = [] then [] else [last]
  | line :: next :: more => withoutCarriageReturn line :: linesOf (next :: more)

theorem linesOf_cons (line : List Char) (hls : ls ≠ []) :
    linesOf (line :: ls) = withoutCarriageReturn line :: linesOf ls := by
  cases ls with
  | nil => exact absurd rfl hls
  | cons next more => rfl

/-- A text is a last line, or a line with more text behind its line feed. -/
@[elab_as_elim]
theorem lineInduction {motive : List Char → Prop} (last : ∀ cs, '\n' ∉ cs → motive cs)
    (ended : ∀ line rest, '\n' ∉ line → motive rest → motive (line ++ '\n' :: rest))
    (cs : List Char) : motive cs := by
  induction hn : cs.length using Nat.strongRecOn generalizing cs with
  | _ n ih =>
    subst hn
    by_cases h : '\n' ∈ cs
    · obtain ⟨line, rest, rfl, hline⟩ := List.eq_append_cons_of_mem h
      have hlength : rest.length < (line ++ '\n' :: rest).length := by
        rw [List.length_append, List.length_cons]
        omega
      exact ended line rest hline (ih _ hlength rest rfl)
    · exact last cs h

/-- No piece of a text has the character that the text was split at. -/
theorem not_mem_of_mem_splitOn {a : Char} (h : line ∈ cs.splitOn a) : a ∉ line := by
  induction cs generalizing line with
  | nil =>
    rw [List.splitOn_nil, List.mem_singleton] at h
    rw [h]
    exact List.not_mem_nil
  | cons c cs ih =>
    rw [List.splitOn_cons_eq_if_modifyHead] at h
    split at h
    · rcases List.mem_cons.1 h with rfl | h
      · exact List.not_mem_nil
      · exact ih h
    · next hne =>
      obtain ⟨first, more, hsplit⟩ := List.exists_cons_of_ne_nil (List.splitOn_ne_nil a cs)
      rw [hsplit] at h ih
      rcases List.mem_cons.1 h with rfl | h
      · have hfirst : a ∉ first := ih List.mem_cons_self
        have hc : a ≠ c := by
          rintro rfl
          exact hne (beq_self_eq_true a)
        exact fun hmem => (List.mem_cons.1 hmem).elim hc hfirst
      · exact ih (List.mem_cons_of_mem _ h)

theorem splitLine_eq_self (h : '\n' ∉ cs) : splitLine cs = (cs, none) := by
  induction cs with
  | nil => rfl
  | cons c cs ih =>
    have hne : c ≠ '\n' := fun hc => h (hc ▸ List.mem_cons_self)
    rw [splitLine, ih fun hc => h (List.mem_cons_of_mem _ hc)]
    exact hne

theorem lines_eq_self (h : '\n' ∉ cs) : lines cs = if cs = [] then [] else [cs] := by
  have hsplit : splitLine cs = (cs, none) := splitLine_eq_self h
  rw [lines]
  split
  · next heq =>
    rw [hsplit] at heq
    cases heq
    rfl
  · next hne heq =>
    rw [hsplit] at heq
    cases heq
    rw [if_neg hne]
  · next heq =>
    rw [hsplit] at heq
    cases heq

/-- **Lines are cut at line feeds.** -/
theorem lines_eq_linesOf (cs : List Char) : lines cs = linesOf (cs.splitOn '\n') := by
  induction cs using lineInduction with
  | last cs hcs => rw [lines_eq_self hcs, List.splitOn_eq_singleton hcs, linesOf]
  | ended line rest hline ih =>
    have hmore : rest.splitOn '\n' ≠ [] := List.splitOn_ne_nil _ _
    rw [lines_append hline, ih, List.splitOn_append_cons_self_of_not_mem hline rest,
      linesOf_cons line hmore]

/-! ## Carriage returns -/

/-- A line that loses a carriage return has it at its end. -/
theorem withoutCarriageReturn_cases (line : List Char) :
    (line.getLast? ≠ some '\r' ∧ withoutCarriageReturn line = line) ∨
      line.getLast? = some '\r' ∧ line = withoutCarriageReturn line ++ ['\r'] := by
  unfold withoutCarriageReturn
  by_cases h : line.getLast? = some '\r'
  · obtain ⟨front, rfl⟩ := List.getLast?_eq_some_iff.1 h
    refine .inr ⟨h, ?_⟩
    rw [if_pos h, List.dropLast_concat]
  · exact .inl ⟨h, if_neg h⟩

/-- A carriage return at the end of a line is in its comment, or it ends the code. -/
theorem beforeComment_append_return (cs : List Char) :
    beforeComment (cs ++ ['\r']) = beforeComment cs ∨
      beforeComment (cs ++ ['\r']) = beforeComment cs ++ ['\r'] := by
  fun_induction beforeComment cs with
  | case1 comment => exact .inl rfl
  | case2 c cs hstart ih =>
    have hcons : beforeComment (c :: cs ++ ['\r']) = c :: beforeComment (cs ++ ['\r']) := by
      rw [List.cons_append, beforeComment]
      rintro more rfl hmore
      cases cs with
      | nil => cases hmore
      | cons d cs => exact hstart cs rfl (congrArg (· :: cs) (List.cons.inj hmore).1)
    rw [hcons]
    rcases ih with ih | ih
    · exact .inl (congrArg (c :: ·) ih)
    · exact .inr (congrArg (c :: ·) ih)
  | case3 => exact .inr rfl

/-- A blank at the end of a text is in no field. -/
theorem fields_append_blank (hc : isBlank c) (offset : Nat) (cs : List Char) :
    fields offset (cs ++ [c]) = fields offset cs := by
  have hstop : (!isBlank c) = false := by rw [hc]; rfl
  fun_induction fields offset cs with
  | case1 offset => rw [List.nil_append, fields, if_pos hc, fields]
  | case2 offset d cs hd ih => rw [List.cons_append, fields, if_pos hd, ih]
  | case3 offset d cs hd word ih =>
    have htake : (cs ++ [c]).takeWhile (!isBlank ·) = cs.takeWhile (!isBlank ·) := by
      rw [List.takeWhile_append]
      split
      · next hall =>
        have heq : cs.takeWhile (!isBlank ·) = cs := (List.takeWhile_prefix _).eq_of_length hall
        simp [hstop, heq]
      · rfl
    have hdrop : fields (offset + byteSize word) ((cs ++ [c]).dropWhile (!isBlank ·)) =
        fields (offset + byteSize word) (cs.dropWhile (!isBlank ·)) := by
      rw [← ih, List.dropWhile_append]
      split
      · next hempty =>
        rw [List.isEmpty_iff.1 hempty]
        simp [hstop]
      · rfl
    rw [List.cons_append, fields, if_neg hd, htake]
    exact congrArg _ hdrop

/-- **The carriage return that a line loses is in none of its fields.** -/
theorem fields_withoutCarriageReturn (offset : Nat) (line : List Char) :
    fields offset (beforeComment (withoutCarriageReturn line)) =
      fields offset (beforeComment line) := by
  rcases withoutCarriageReturn_cases line with ⟨-, h⟩ | ⟨-, h⟩
  · rw [h]
  · have hline : fields offset (beforeComment line) =
        fields offset (beforeComment (withoutCarriageReturn line ++ ['\r'])) :=
      congrArg (fun l => fields offset (beforeComment l)) h
    rw [hline]
    rcases beforeComment_append_return (withoutCarriageReturn line) with hcode | hcode
    · rw [hcode]
    · rw [hcode, fields_append_blank (by decide)]

end JackToolchain.Text
