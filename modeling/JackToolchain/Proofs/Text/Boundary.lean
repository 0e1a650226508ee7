import JackToolchain.Proofs.Text.Position
import Mathlib.Order.Bounds.Basic

/-!
# Tracing positions back

An offset inside a character falls back to the start of the character, and one behind the text to
its end. The position of an offset says which line of the text that boundary lies on and how many
characters stand before it there, so the boundary can be found again.

* `IsBoundary`: where characters start, and where the text ends.
* `isGreatest_boundariesUpTo`: an offset falls back to the greatest boundary that is not behind it.
* `exists_line_of_append`: every beginning of a text ends on a line.
* `Position.Names`: when a position names a place on a line.
* `Position.at_traced_back`: **every position names the place of its offset, and the positions of
  boundaries are in the order of the text**.
-/

namespace JackToolchain.Text

variable {cs front rest head tail : List Char} {l : Line} {content : String} {offset p q : Nat}

/-! ## Boundaries -/

/-- Whether a character starts at an offset, or the text ends there. -/
def IsBoundary (content : String) (offset : Nat) : Prop :=
  String.Pos.Raw.IsValid content ⟨offset⟩

/-- The boundaries that are not behind an offset. -/
def boundariesUpTo (content : String) (offset : Nat) : Set Nat :=
  {p | IsBoundary content p ∧ p ≤ min offset content.utf8ByteSize}

/-- The boundaries of a text are where its beginnings end. -/
theorem isBoundary_iff : IsBoundary content p ↔
    ∃ front rest, content.toList = front ++ rest ∧ p = byteSize front := by
  rw [IsBoundary, String.Pos.Raw.isValid_iff_exists_append]
  constructor
  · rintro ⟨s, t, rfl, hp⟩
    refine ⟨s.toList, t.toList, String.toList_append, ?_⟩
    rw [byteSize_toList]
    exact congrArg String.Pos.Raw.byteIdx hp
  · rintro ⟨front, rest, hcontent, rfl⟩
    refine ⟨String.ofList front, String.ofList rest, ?_, ?_⟩
    · rw [← String.toList_inj, hcontent, String.toList_append, String.toList_ofList,
        String.toList_ofList]
    · rw [← String.toList_ofList (l := front), byteSize_toList, String.ofList_toList]
      rfl

theorem byteSize_splitAtByte_mono (h : p ≤ q) (cs : List Char) :
    byteSize (splitAtByte p cs).1 ≤ byteSize (splitAtByte q cs).1 := by
  induction cs generalizing p q with
  | nil => exact Nat.le_refl _
  | cons c cs ih =>
    by_cases hp : c.utf8Size ≤ p
    · have hq : c.utf8Size ≤ q := hp.trans h
      rw [splitAtByte, if_pos hp, splitAtByte, if_pos hq, byteSize_cons, byteSize_cons]
      exact Nat.add_le_add_left (ih (Nat.sub_le_sub_right h _)) _
    · rw [splitAtByte, if_neg hp]
      exact Nat.zero_le _

/-- An offset falls back to the greatest boundary that is not behind it. -/
theorem isGreatest_boundariesUpTo (content : String) (offset : Nat) :
    IsGreatest (boundariesUpTo content offset)
      (byteSize (splitAtByte offset content.toList).1) := by
  have hcut := splitAtByte_append offset content.toList
  refine ⟨⟨isBoundary_iff.2 ⟨_, _, hcut.symm, rfl⟩, le_min (byteSize_splitAtByte_le _ _) ?_⟩, ?_⟩
  · rw [← byteSize_toList]
    conv_rhs => rw [← hcut, byteSize_append]
    exact Nat.le_add_right _ _
  · rintro p ⟨hp, hle⟩
    obtain ⟨front, rest, hcontent, rfl⟩ := isBoundary_iff.1 hp
    -- at a boundary the text is cut just there, and a later cut leaves no less in front of it
    have hmono := byteSize_splitAtByte_mono (hle.trans (min_le_left _ _)) content.toList
    conv_lhs at hmono => rw [hcontent, splitAtByte_byteSize]
    exact hmono

/-! ## Lines -/

theorem mem_linesBehind (before ls : List (List Char)) (line : List Char)
    (later : List (List Char)) :
    Line.mk (before ++ ls) line ∈ linesBehind before (ls ++ line :: later) := by
  induction ls generalizing before with
  | nil =>
    rw [List.append_nil]
    exact List.mem_cons_self
  | cons first ls ih =>
    rw [List.append_cons before first ls]
    exact List.mem_cons_of_mem _ (ih (before ++ [first]))

/-- A beginning of a text has some of its lines, and the beginning of the next one. -/
theorem exists_splitOn_append (front rest : List Char) : ∃ ls head tail later,
    (front ++ rest).splitOn '\n' = ls ++ (head ++ tail) :: later ∧
      front = ls.flatMap (· ++ ['\n']) ++ head := by
  induction front using lineInduction with
  | last front hfront =>
    -- the line on which the beginning ends may end in the rest
    induction rest using lineInduction with
    | last rest hrest =>
      have hnone : '\n' ∉ front ++ rest := by
        rw [List.mem_append, not_or]
        exact ⟨hfront, hrest⟩
      exact ⟨[], front, rest, [], List.splitOn_eq_singleton hnone, rfl⟩
    | ended line rest hline =>
      have hnone : '\n' ∉ front ++ line := by
        rw [List.mem_append, not_or]
        exact ⟨hfront, hline⟩
      refine ⟨[], front, line, rest.splitOn '\n', ?_, rfl⟩
      rw [← List.append_assoc, List.splitOn_append_cons_self_of_not_mem hnone]
      rfl
  | ended line front hline ih =>
    obtain ⟨ls, head, tail, later, hsplit, hfront⟩ := ih
    refine ⟨line :: ls, head, tail, later, ?_, ?_⟩
    · rw [List.append_assoc, List.cons_append,
        List.splitOn_append_cons_self_of_not_mem hline, hsplit]
      rfl
    · rw [hfront, List.flatMap_cons]
      simp

/-- Every beginning of a text ends on a line. -/
theorem exists_line_of_append (hcs : cs = front ++ rest) : ∃ l ∈ linesIn cs, ∃ head tail,
    l.text = head ++ tail ∧ front = l.textBefore ++ head := by
  subst hcs
  obtain ⟨ls, head, tail, later, hsplit, hfront⟩ := exists_splitOn_append front rest
  refine ⟨⟨ls, head ++ tail⟩, ?_, head, tail, rfl, hfront⟩
  rw [linesIn, hsplit]
  exact mem_linesBehind [] ls (head ++ tail) later

/-! ## Carriage returns at the end -/

/-- A text is what is left of it with the characters behind that were dropped. -/
theorem exists_eq_dropWhileEnd_append (a : Char) (cs : List Char) :
    ∃ n, cs = dropWhileEnd (· == a) cs ++ List.replicate n a := by
  refine ⟨(takeWhileEnd (· == a) cs).length, ?_⟩
  have hall : ∀ c ∈ takeWhileEnd (· == a) cs, c = a := by
    intro c hc
    rw [takeWhileEnd, List.mem_reverse] at hc
    exact beq_iff_eq.1 (List.all_eq_true.1 List.all_takeWhile c hc)
  rw [← List.eq_replicate_of_mem hall, dropWhileEnd_append_takeWhileEnd]

theorem getLast?_dropWhileEnd (a : Char) (cs : List Char) :
    (dropWhileEnd (· == a) cs).getLast? ≠ some a := by
  intro hlast
  have hnot := List.head?_dropWhile_not (· == a) cs.reverse
  rw [dropWhileEnd, List.getLast?_reverse] at hlast
  rw [hlast] at hnot
  simp at hnot

/-! ## Positions -/

namespace Position

/-- When a position names a place on a line: where the place is, and what readers see of the
line. -/
structure Names (P : Position) (l : Line) (p : Nat) : Prop where
  line_eq : P.line = l.number
  /-- The line without the carriage returns at its end. -/
  content_eq : ∃ n, l.text = P.lineContent.toList ++ List.replicate n '\r'
  trimmed : P.lineContent.toList.getLast? ≠ some '\r'
  column_le : P.column ≤ l.text.length
  /-- The place is behind the lines before, each with its line feed, and behind as many characters of
  its own line as the column says. -/
  offset_eq : p = l.start + byteSize (l.text.take P.column)

theorem names_of_mem_linesIn (hl : l ∈ linesIn content.toList) (hline : l.text = head ++ tail) :
    (Position.at content (byteSize (l.textBefore ++ head))).Names l
      (byteSize (l.textBefore ++ head)) := by
  rw [at_line hl hline]
  refine ⟨rfl, ?_, ?_, ?_, ?_⟩
  · rw [String.toList_ofList]
    exact exists_eq_dropWhileEnd_append '\r' l.text
  · rw [String.toList_ofList]
    exact getLast?_dropWhileEnd '\r' l.text
  · rw [hline, List.length_append]
    exact Nat.le_add_right _ _
  · rw [hline, List.take_left, byteSize_append]
    rfl

/-- An offset has the position of the boundary that it falls back to. -/
theorem at_boundary (content : String) (offset : Nat) :
    Position.at content (byteSize (splitAtByte offset content.toList).1) =
      Position.at content offset := by
  have hcut := splitAtByte_byteSize (splitAtByte offset content.toList).1
    (splitAtByte offset content.toList).2
  rw [splitAtByte_append] at hcut
  rw [Position.at, hcut, Position.at]

/-- A position names the place of its offset. -/
theorem exists_names (content : String) (offset : Nat) : ∃ l ∈ linesIn content.toList,
    (Position.at content offset).Names l (byteSize (splitAtByte offset content.toList).1) := by
  obtain ⟨l, hl, head, tail, hline, hfront⟩ :=
    exists_line_of_append (splitAtByte_append offset content.toList).symm
  refine ⟨l, hl, ?_⟩
  rw [← at_boundary, hfront]
  exact names_of_mem_linesIn hl hline

/-- The positions of boundaries are in the order of the text. -/
theorem pair_at_lt_of_isBoundary (hq : IsBoundary content q) (h : p < q) :
    (Position.at content p).pair < (Position.at content q).pair := by
  obtain ⟨front, rest, hcontent, rfl⟩ := isBoundary_iff.1 hq
  exact pair_at_lt hcontent h

/-- The line and the column say which boundary an offset falls back to. -/
theorem eq_of_pair_at_eq {offset' p' : Nat} (hp : IsGreatest (boundariesUpTo content offset) p)
    (hp' : IsGreatest (boundariesUpTo content offset') p')
    (h : (Position.at content offset).pair = (Position.at content offset').pair) : p = p' := by
  rw [← at_boundary, ← hp.unique (isGreatest_boundariesUpTo content offset),
    ← at_boundary content offset', ← hp'.unique (isGreatest_boundariesUpTo content offset')] at h
  rcases Nat.lt_trichotomy p p' with hlt | heq | hlt
  · exact absurd h (pair_at_lt_of_isBoundary hp'.1.1 hlt).ne
  · exact heq
  · exact absurd h (pair_at_lt_of_isBoundary hp.1.1 hlt).ne'

/-- **Every position names the place of its offset**, which is the greatest boundary that is not
behind the offset. The line and the column determine it, and the positions of boundaries are in the
order of the text. -/
theorem at_traced_back (content : String) :
    (∀ offset, ∃ p, IsGreatest (boundariesUpTo content offset) p ∧
      ∃ l ∈ linesIn content.toList, (Position.at content offset).Names l p) ∧
    (∀ offset offset' p p', IsGreatest (boundariesUpTo content offset) p →
      IsGreatest (boundariesUpTo content offset') p' →
      (Position.at content offset).pair = (Position.at content offset').pair → p = p') ∧
    ∀ p q, IsBoundary content p → IsBoundary content q → p < q →
      (Position.at content p).pair < (Position.at content q).pair := by
  refine ⟨fun offset => ?_, fun _ _ _ _ hp hp' => eq_of_pair_at_eq hp hp',
    fun _ _ _ hq => pair_at_lt_of_isBoundary hq⟩
  exact ⟨_, isGreatest_boundariesUpTo content offset, exists_names content offset⟩

/-- An offset inside a character, a carriage return at the end of a line, and an empty line. -/
theorem at_traced_back_accent :
    (Position.at "aé\r\n\nb" 2 = ⟨1, 1, "aé"⟩ ∧ Position.at "aé\r\n\nb" 1 = ⟨1, 1, "aé"⟩ ∧
      ∃ p, IsGreatest (boundariesUpTo "aé\r\n\nb" 2) p ∧
        IsGreatest (boundariesUpTo "aé\r\n\nb" 1) p) ∧
    Position.at "aé\r\n\nb" 3 = ⟨1, 2, "aé"⟩ ∧ Position.at "aé\r\n\nb" 5 = ⟨2, 0, ""⟩ ∧
      IsBoundary "aé\r\n\nb" 3 ∧ IsBoundary "aé\r\n\nb" 5 ∧
      (Position.at "aé\r\n\nb" 3).pair < (Position.at "aé\r\n\nb" 5).pair := by
  obtain ⟨hnames, hdetermined, hordered⟩ := at_traced_back "aé\r\n\nb"
  have hinside : Position.at "aé\r\n\nb" 2 = ⟨1, 1, "aé"⟩ := by decide +kernel
  have hstart : Position.at "aé\r\n\nb" 1 = ⟨1, 1, "aé"⟩ := by decide +kernel
  have hreturn : IsBoundary "aé\r\n\nb" 3 :=
    isBoundary_iff.2 ⟨['a', 'é'], ['\r', '\n', '\n', 'b'], by decide, by decide⟩
  have hempty : IsBoundary "aé\r\n\nb" 5 :=
    isBoundary_iff.2 ⟨['a', 'é', '\r', '\n'], ['\n', 'b'], by decide, by decide⟩
  refine ⟨⟨hinside, hstart, ?_⟩, by decide +kernel, by decide +kernel, hreturn, hempty,
    hordered 3 5 hreturn hempty (by decide)⟩
  obtain ⟨p, hp, -⟩ := hnames 2
  obtain ⟨p', hp', -⟩ := hnames 1
  have heq : p = p' := hdetermined 2 1 p p' hp hp' (by rw [hinside, hstart])
  exact ⟨p, hp, heq ▸ hp'⟩

end Position

end JackToolchain.Text
