import JackToolchain.Proofs.Text.Words
import Mathlib.Data.Prod.Lex

/-!
# Places on the lines of a text

A byte offset into a text is where a beginning of the text ends. On a line it is the number of that
line and the number of characters before it there, and an offset that lies before it has an earlier
position.

* `eq_lines_of_mem_linesIn`: the text around a line.
* `Position.at_line`: **the position of a place on a line**.
* `Position.pair_at_lt`: **an earlier offset has an earlier position**.
* `returns_eq_zero`: no line loses a carriage return if no two of them stand before a line feed.
-/

namespace JackToolchain.Text

variable {p : Char → Bool} {cs before more front rest : List Char} {l : Line} {offset : Nat}

/-! ## The text around a line -/

/-- The lines behind a text, with a line feed before each of them. -/
theorem intercalate_feed (line : List Char) (later : List (List Char)) :
    ['\n'].intercalate (line :: later) = line ++ later.flatMap ('\n' :: ·) := by
  induction later generalizing line with
  | nil => simp
  | cons next later ih =>
    rw [List.intercalate_cons_cons, ih, List.flatMap_cons]
    simp

theorem intercalate_lines (ls : List (List Char)) (line : List Char) (later : List (List Char)) :
    ['\n'].intercalate (ls ++ line :: later) =
      ls.flatMap (· ++ ['\n']) ++ line ++ later.flatMap ('\n' :: ·) := by
  induction ls with
  | nil => exact intercalate_feed line later
  | cons first ls ih =>
    have hne : ls ++ line :: later ≠ [] := by simp
    rw [List.cons_append, List.intercalate_cons_of_ne_nil hne, ih, List.flatMap_cons]
    simp

theorem exists_later_of_mem_linesBehind {ls ms : List (List Char)} (h : l ∈ linesBehind ls ms) :
    ∃ later, ls ++ ms = l.before ++ l.text :: later := by
  induction ms generalizing ls with
  | nil => cases h
  | cons line ms ih =>
    rcases List.mem_cons.1 h with rfl | h
    · exact ⟨ms, rfl⟩
    · obtain ⟨later, hlater⟩ := ih h
      exact ⟨later, by rw [← hlater, List.append_assoc, List.singleton_append]⟩

/-- A line of a text stands behind the lines before it, and ends where the next one starts. -/
theorem eq_lines_of_mem_linesIn (h : l ∈ linesIn cs) :
    (∃ after, cs = l.textBefore ++ l.text ++ after ∧ ∀ c ∈ after.head?, c = '\n') ∧
      ∀ line ∈ l.before ++ [l.text], '\n' ∉ line := by
  obtain ⟨later, hsplit⟩ := exists_later_of_mem_linesBehind h
  rw [List.nil_append] at hsplit
  refine ⟨⟨later.flatMap ('\n' :: ·), ?_, ?_⟩, fun line hline => ?_⟩
  · have htext : ['\n'].intercalate (cs.splitOn '\n') = cs := List.intercalate_splitOn '\n'
    rw [hsplit, intercalate_lines] at htext
    exact htext.symm
  · cases later with
    | nil => nofun
    | cons next later =>
      intro c hc
      exact (Option.some.inj hc).symm
  · suffices hmem : line ∈ cs.splitOn '\n' from not_mem_of_mem_splitOn hmem
    rw [hsplit]
    rcases List.mem_append.1 hline with hline | hline
    · exact List.mem_append_left _ hline
    · obtain rfl := List.mem_singleton.1 hline
      exact List.mem_append_right _ List.mem_cons_self

/-- The lines before a line have a line feed each. -/
theorem count_textBefore (h : ∀ line ∈ l.before, '\n' ∉ line) :
    l.textBefore.count '\n' = l.before.length := by
  have hones : l.before.map (List.count '\n' ∘ (· ++ ['\n'])) = l.before.map fun _ => 1 := by
    refine List.map_congr_left fun line hmem => ?_
    have hzero : line.count '\n' = 0 := List.count_eq_zero.2 (h line hmem)
    rw [Function.comp_apply, List.count_append, hzero]
    rfl
  rw [Line.textBefore, List.count_flatMap, hones, List.map_const', List.sum_replicate_nat,
    Nat.mul_one]

/-- The lines before a line end in a line feed. -/
theorem getLast?_textBefore : ∀ c ∈ l.textBefore.getLast?, c = '\n' := by
  intro c hc
  rcases List.eq_nil_or_concat l.before with hnil | ⟨ls, line, hls⟩
  · rw [Line.textBefore, hnil] at hc
    cases hc
  · rw [Line.textBefore, hls, List.concat_eq_append, List.flatMap_append, List.flatMap_singleton,
      ← List.append_assoc, List.getLast?_concat] at hc
    exact (Option.some.inj hc).symm

/-! ## Cutting at an offset -/

/-- A text is cut where a beginning of it ends. -/
theorem splitAtByte_byteSize (front rest : List Char) :
    splitAtByte (byteSize front) (front ++ rest) = (front, rest) := by
  induction front with
  | nil =>
    cases rest with
    | nil => rfl
    | cons c rest =>
      have hc : ¬ c.utf8Size ≤ byteSize [] := Nat.not_le.2 c.utf8Size_pos
      rw [List.nil_append, splitAtByte, if_neg hc]
  | cons c front ih =>
    have hc : c.utf8Size ≤ byteSize (c :: front) := Nat.le_add_right _ _
    rw [List.cons_append, splitAtByte, if_pos hc, byteSize_cons, Nat.add_sub_cancel_left, ih]

theorem byteSize_splitAtByte_le (offset : Nat) (cs : List Char) :
    byteSize (splitAtByte offset cs).1 ≤ offset := by
  induction cs generalizing offset with
  | nil => exact Nat.zero_le _
  | cons c cs ih =>
    rw [splitAtByte]
    split
    · next hc =>
      have hrest := ih (offset - c.utf8Size)
      rw [byteSize_cons]
      omega
    · exact Nat.zero_le _

/-- A text is cut inside a beginning of it at every offset that lies there. -/
theorem exists_more_of_lt (h : offset < byteSize front) (rest : List Char) :
    ∃ more, more ≠ [] ∧ front = (splitAtByte offset (front ++ rest)).1 ++ more := by
  have hprefix : (splitAtByte offset (front ++ rest)).1 <+: front ++ rest :=
    ⟨_, splitAtByte_append offset _⟩
  have hsize := byteSize_splitAtByte_le offset (front ++ rest)
  rcases List.prefix_or_prefix_of_prefix hprefix (List.prefix_append front rest) with
    ⟨more, hmore⟩ | ⟨more, hmore⟩
  · refine ⟨more, ?_, hmore.symm⟩
    rintro rfl
    rw [List.append_nil] at hmore
    rw [hmore] at hsize
    omega
  · rw [← hmore, byteSize_append] at hsize
    omega

theorem takeWhileEnd_append (hmore : ∀ c ∈ more, p c) :
    takeWhileEnd p (before ++ more) = takeWhileEnd p before ++ more := by
  have hall : ∀ c ∈ more.reverse, p c := fun c hc => hmore c (List.mem_reverse.1 hc)
  rw [takeWhileEnd, List.reverse_append, List.takeWhile_append_of_pos hall, List.reverse_append,
    List.reverse_reverse, takeWhileEnd]

theorem takeWhileEnd_eq_nil (h : ∀ c ∈ before.getLast?, p c = false) :
    takeWhileEnd p before = [] := by
  rcases List.eq_nil_or_concat before with rfl | ⟨front, c, rfl⟩
  · rfl
  · have hc : p c = false := h c (by simp)
    simp [takeWhileEnd, hc]

/-! ## Positions -/

namespace Position

/-- **The position of a place on a line** is the number of the line and of the characters before
the place. -/
theorem at_line {content : String} (hl : l ∈ linesIn content.toList)
    (hline : l.text = front ++ rest) :
    Position.at content (byteSize (l.textBefore ++ front)) =
      ⟨l.number, front.length, String.ofList (dropWhileEnd (· == '\r') l.text)⟩ := by
  obtain ⟨⟨after, hcontent, hafter⟩, hlines⟩ := eq_lines_of_mem_linesIn hl
  have hfeed : ∀ c ∈ front ++ rest, (c != '\n') = true := by
    intro c hc
    have hnone : '\n' ∉ front ++ rest := hline ▸ hlines l.text (by simp)
    exact bne_iff_ne.2 fun heq => hnone (heq ▸ hc)
  have hfront : ∀ c ∈ front, (c != '\n') = true := fun c hc => hfeed c (List.mem_append_left _ hc)
  have hsplit : splitAtByte (byteSize (l.textBefore ++ front)) content.toList =
      (l.textBefore ++ front, rest ++ after) := by
    have hcut : content.toList = (l.textBefore ++ front) ++ (rest ++ after) := by
      rw [hcontent, hline]
      simp
    rw [hcut]
    exact splitAtByte_byteSize _ _
  have hcount : (l.textBefore ++ front).count '\n' = l.before.length := by
    have hnone : front.count '\n' = 0 := by
      rw [List.count_eq_zero]
      intro hmem
      exact absurd (hfront _ hmem) (by decide)
    have hbefore : ∀ line ∈ l.before, '\n' ∉ line :=
      fun line hmem => hlines line (List.mem_append_left _ hmem)
    rw [List.count_append, hnone, count_textBefore hbefore]
    rfl
  have hbefore : takeWhileEnd (· != '\n') (l.textBefore ++ front) = front := by
    have hlast : ∀ c ∈ l.textBefore.getLast?, (c != '\n') = false := by
      intro c hc
      rw [getLast?_textBefore c hc]
      rfl
    rw [takeWhileEnd_append hfront, takeWhileEnd_eq_nil hlast, List.nil_append]
  have hrest : (rest ++ after).takeWhile (· != '\n') = rest := by
    have hend : after.takeWhile (· != '\n') = [] := by
      cases after with
      | nil => rfl
      | cons c after =>
        obtain rfl := hafter c rfl
        rfl
    rw [List.takeWhile_append_of_pos fun c hc => hfeed c (List.mem_append_right _ hc), hend,
      List.append_nil]
  rw [Position.at, hsplit]
  simp only [hcount, hbefore, hrest, hline, Line.number]

theorem line_at (content : String) (offset : Nat) : (Position.at content offset).line =
    (splitAtByte offset content.toList).1.count '\n' + 1 :=
  rfl

theorem column_at (content : String) (offset : Nat) : (Position.at content offset).column =
    (takeWhileEnd (· != '\n') (splitAtByte offset content.toList).1).length :=
  rfl

/-- The line and the column of a position, which are compared in this order. -/
def pair (P : Position) : Nat ×ₗ Nat :=
  toLex (P.line, P.column)

/-- **An earlier offset has an earlier position.** -/
theorem pair_at_lt {content : String} (hcontent : content.toList = front ++ rest)
    (h : offset < byteSize front) :
    (Position.at content offset).pair < (Position.at content (byteSize front)).pair := by
  obtain ⟨more, hmore, hfront⟩ := exists_more_of_lt h rest
  rw [← hcontent] at hfront
  have hline : (Position.at content (byteSize front)).line =
      (Position.at content offset).line + more.count '\n' := by
    rw [line_at, line_at, hcontent, splitAtByte_byteSize, ← hcontent, Nat.add_right_comm,
      ← List.count_append, ← hfront]
  rw [pair, pair, Prod.Lex.toLex_lt_toLex]
  by_cases hfeed : '\n' ∈ more
  · have hcount : 0 < more.count '\n' := List.count_pos_iff.2 hfeed
    exact .inl (by dsimp only; omega)
  · -- on one line no line feed is in between, and then the column is greater
    have hplain : ∀ c ∈ more, (c != '\n') = true := by
      intro c hc
      exact bne_iff_ne.2 fun hc' => hfeed (hc' ▸ hc)
    have hcolumn : (Position.at content (byteSize front)).column =
        (Position.at content offset).column + more.length := by
      rw [column_at, column_at, hcontent, splitAtByte_byteSize, ← hcontent, ← List.length_append,
        ← takeWhileEnd_append hplain, ← hfront]
    have hlength : 0 < more.length := List.length_pos_iff.2 hmore
    have hnone : more.count '\n' = 0 := List.count_eq_zero.2 hfeed
    exact .inr ⟨by dsimp only; omega, by dsimp only; omega⟩

/-- An earlier offset has another position. -/
theorem at_ne {content : String} (hcontent : content.toList = front ++ rest)
    (h : offset < byteSize front) :
    Position.at content offset ≠ Position.at content (byteSize front) :=
  fun heq => (pair_at_lt hcontent h).ne (congrArg pair heq)

end Position

/-! ## Carriage returns that lines lose -/

/-- Only a pair is written as a line feed. -/
theorem eq_of_feed_prefix (h : ['\n'] <+: unixNewlines cs) :
    ∃ more, cs = '\n' :: more ∨ cs = '\r' :: '\n' :: more := by
  fun_cases unixNewlines cs with
  | case1 cs => exact ⟨cs, .inr rfl⟩
  | case2 c cs hpair =>
    rw [unixNewlines] at h
    · exact ⟨cs, .inl (by rw [← (List.cons_prefix_cons.1 h).1])⟩
    · exact hpair
  | case3 => cases List.prefix_nil.1 h

/-- A text whose pairs of a carriage return and a line feed were replaced has such a pair only where
another carriage return stood before one. -/
theorem return_pair_of_unixNewlines (h : ['\r', '\n'] <:+: unixNewlines cs) :
    ['\r', '\r', '\n'] <:+: cs := by
  fun_induction unixNewlines cs with
  | case1 cs ih =>
    rcases List.infix_cons_iff.1 h with h | h
    · exact absurd (List.cons_prefix_cons.1 h).1 (by decide)
    · exact List.infix_cons (List.infix_cons (ih h))
  | case2 c cs hpair ih =>
    rcases List.infix_cons_iff.1 h with h | h
    · obtain ⟨rfl, hfeed⟩ := List.cons_prefix_cons.1 h
      obtain ⟨more, rfl | rfl⟩ := eq_of_feed_prefix hfeed
      · exact absurd rfl (hpair more rfl)
      · exact ⟨[], more, rfl⟩
    · exact List.infix_cons (ih h)
  | case3 => cases List.infix_nil.1 h

/-- A line that ends in a carriage return ends in a pair. -/
theorem return_pair_of_mem_before {line : List Char} (h : line ∈ l.before)
    (hlast : line.getLast? = some '\r') : ['\r', '\n'] <:+: l.textBefore := by
  obtain ⟨front, rfl⟩ := List.getLast?_eq_some_iff.1 hlast
  obtain ⟨ls, later, hbefore⟩ := List.append_of_mem h
  refine ⟨ls.flatMap (· ++ ['\n']) ++ front, later.flatMap (· ++ ['\n']), ?_⟩
  rw [Line.textBefore, hbefore]
  simp

/-- No line of a text loses a carriage return if no two of them stood before a line feed. -/
theorem returns_eq_zero (h : ¬ ['\r', '\r', '\n'] <:+: cs) (hl : l ∈ linesIn (unixNewlines cs)) :
    l.returns = 0 := by
  obtain ⟨⟨after, htext, -⟩, -⟩ := eq_lines_of_mem_linesIn hl
  rw [Line.returns, List.countP_eq_zero]
  intro line hline hlast
  have hpair := return_pair_of_mem_before hline (of_decide_eq_true hlast)
  refine h (return_pair_of_unixNewlines ?_)
  rw [htext, List.append_assoc]
  exact hpair.trans (List.prefix_append _ _).isInfix

end JackToolchain.Text
