import Mathlib.Data.List.Forall2
import JackToolchain.Proofs.Text.Words
import JackToolchain.Proofs.Vm.Grammar

/-!
# Reading a text line by line

A text is read one line after the other. A line whose code is blank gives nothing, and every other
line gives one item, whatever stands on the lines around it.

* `ItemOf`: the item of a line, up to the carriage returns that the reader has not counted.
* `items_readLines`: each line that is not blank has its item, in the order of the lines.
* `Judged`: what an item is, told from the words of its line alone.
* `readText_judged`: **a text is read as its grammar says**, and a file as the text is.
-/

namespace JackToolchain.Vm

open Text Files

variable {item : Except Fault Instruction} {l : Line} {r : Row} {offset : Nat}
  {ls before : List (List Char)}

/-- The item of a line: what its fields are read as. The reader counts one byte for the end of each
line, so it is behind by the carriage returns that lines have lost. -/
def ItemOf (l : Line) (item : Except Fault Instruction) : Prop :=
  ∃ (offset : Nat) (r : Row), offset + l.returns = l.start ∧
    fields offset l.code = r.command :: r.operands ∧ item = r.read

/-! ## Items -/

theorem start_next (before : List (List Char)) (line : List Char) (text : List Char) :
    (Line.mk (before ++ [line]) text).start = (Line.mk before line).start + byteSize line + 1 := by
  have hfeed : '\n'.utf8Size = 1 := rfl
  simp [Line.start, Line.textBefore, hfeed, Nat.add_assoc]

theorem returns_next (before : List (List Char)) (line : List Char) (text : List Char) :
    (Line.mk (before ++ [line]) text).returns = (Line.mk before line).returns +
      (if line.getLast? = some '\r' then 1 else 0) := by
  simp [Line.returns, List.countP_cons]

/-- The reader falls behind by one where a line loses a carriage return. -/
theorem offset_next {line : List Char} (h : offset + (Line.mk before line).returns =
    (Line.mk before line).start) (text : List Char) :
    offset + byteSize (withoutCarriageReturn line) + 1 + (Line.mk (before ++ [line]) text).returns =
      (Line.mk (before ++ [line]) text).start := by
  have hreturn : '\r'.utf8Size = 1 := rfl
  rw [start_next, returns_next]
  rcases withoutCarriageReturn_cases line with ⟨hlast, hline⟩ | ⟨hlast, hline⟩
  · rw [if_neg hlast, hline]
    omega
  · have hsize : byteSize line = byteSize (withoutCarriageReturn line) + 1 := by
      have hsplit := congrArg byteSize hline
      rw [byteSize_append, byteSize_cons, byteSize_nil, hreturn] at hsplit
      exact hsplit
    rw [if_pos hlast, hsize]
    omega

/-- A line that is not blank has fields. -/
theorem exists_row {cs : List Char} (hcode : ¬ cs.all isBlank) (offset : Nat) :
    ∃ command operands, fields offset cs = command :: operands := by
  have hwords : wordsOf cs ≠ [] := fun h => hcode (wordsOf_eq_nil_iff.1 h)
  rw [← map_text_fields offset] at hwords
  cases hf : fields offset cs with
  | nil =>
    rw [hf] at hwords
    exact absurd rfl hwords
  | cons command operands => exact ⟨command, operands, rfl⟩

theorem fields_of_blank {cs : List Char} (hcode : cs.all isBlank) (offset : Nat) :
    fields offset cs = [] := by
  have hwords := map_text_fields offset cs
  rw [wordsOf_eq_nil_iff.2 hcode] at hwords
  exact List.map_eq_nil_iff.1 hwords

/-- What is read of a line and the lines behind it. -/
theorem readLines_cons (offset : Nat) (line : List Char) (more : List (List Char)) :
    readLines offset (line :: more) =
      (match fields offset (beforeComment line) with
        | [] => []
        | command :: operands => [Row.read ⟨command, operands⟩]) ++
      readLines (offset + byteSize line + 1) more := by
  rw [readLines]
  cases fields offset (beforeComment line) <;> rfl

/-- **Each line that is not blank has its item**, in the order of the lines. -/
theorem items_readLines (ls before : List (List Char)) (offset : Nat)
    (ho : ∀ text, offset + (Line.mk before text).returns = (Line.mk before text).start) :
    List.Forall₂ ItemOf ((linesBehind before ls).filter fun l => !l.code.all isBlank)
      (readLines offset (linesOf ls)) := by
  induction ls generalizing before offset with
  | nil => exact .nil
  | cons line ls ih =>
    -- the item of the line itself; the carriage return that it may lose is in none of its fields
    have hitem : ∀ read, read = line ∨ read = withoutCarriageReturn line →
        List.Forall₂ ItemOf ([Line.mk before line].filter fun l => !l.code.all isBlank)
          (match fields offset (beforeComment read) with
            | [] => []
            | command :: operands => [Row.read ⟨command, operands⟩]) := by
      intro read hread
      have hfields : fields offset (beforeComment read) = fields offset (beforeComment line) := by
        rcases hread with rfl | rfl
        · rfl
        · exact fields_withoutCarriageReturn offset line
      rw [hfields]
      by_cases hcode : (beforeComment line).all isBlank
      · rw [List.filter_cons_of_neg (by simpa [Line.code] using hcode), fields_of_blank hcode]
        exact .nil
      · obtain ⟨command, operands, hf⟩ := exists_row hcode offset
        rw [List.filter_cons_of_pos (by simpa [Line.code] using hcode), hf]
        exact .cons ⟨offset, ⟨command, operands⟩, ho line, hf, rfl⟩ .nil
    have hsplit : linesBehind before (line :: ls) =
        [Line.mk before line] ++ linesBehind (before ++ [line]) ls := rfl
    rw [hsplit, List.filter_append]
    by_cases hls : ls = []
    · subst hls
      by_cases hline : line = []
      · have hempty : linesOf [line] = [] := by rw [linesOf, if_pos hline]
        have hread := hitem line (.inl rfl)
        rw [hline, beforeComment, fields] at hread
        rw [hempty, readLines, hline]
        exact List.rel_append hread .nil
      · have hlast : linesOf [line] = [line] := by rw [linesOf, if_neg hline]
        rw [hlast, readLines_cons]
        exact List.rel_append (hitem line (.inl rfl)) .nil
    · rw [linesOf_cons line hls, readLines_cons]
      refine List.rel_append (hitem _ (.inr rfl)) (ih _ _ fun text => ?_)
      exact offset_next (ho line) text

theorem items_readText (content : String) :
    List.Forall₂ ItemOf ((linesIn content.toList).filter fun l => !l.code.all isBlank)
      (readText content) := by
  rw [readText, lines_eq_linesOf]
  exact items_readLines _ [] 0 fun _ => rfl

/-! ## Judgements -/

/-- The outcome of an item, whatever place a fault has. -/
def outcome (item : Except Fault Instruction) : Except Cause Instruction :=
  item.mapError Fault.cause

/-- What the item of a line is: the instruction that the words before its first `//` write, and
else the first flaw of these words. -/
def Judged (line : List Char) (item : Except Fault Instruction) : Prop :=
  ∃ code, IsCode line code ∧
    (∀ i, outcome item = .ok i ↔ Writes (wordsOf code) i) ∧
    ∀ cause, outcome item = .error cause ↔ ∃ k, Flaw (wordsOf code) cause k

theorem outcome_eq_ok_iff {i : Instruction} : outcome item = .ok i ↔ item = .ok i := by
  cases item <;> simp [outcome, Except.mapError]

theorem outcome_eq_error_iff {cause : Cause} :
    outcome item = .error cause ↔ ∃ fault, item = .error fault ∧ fault.cause = cause := by
  cases item <;> simp [outcome, Except.mapError]

/-- The words of a line are those of its fields. -/
theorem words_of_fields (h : fields offset l.code = r.command :: r.operands) :
    r.words = wordsOf l.code := by
  rw [← map_text_fields offset, h]
  rfl

theorem judged_of_itemOf (h : ItemOf l item) : Judged l.text item := by
  obtain ⟨offset, r, -, hfields, rfl⟩ := h
  have hwords : r.words = wordsOf l.code := words_of_fields hfields
  refine ⟨l.code, isCode_beforeComment l.text, fun i => ?_, fun cause => ?_⟩
  · rw [outcome_eq_ok_iff, r.read_eq_ok_iff, hwords]
  · rw [outcome_eq_error_iff, ← hwords]
    constructor
    · rintro ⟨fault, hread, rfl⟩
      obtain ⟨k, hflaw, -⟩ := r.read_eq_error_iff.1 hread
      exact ⟨k, hflaw⟩
    · rintro ⟨k, hflaw⟩
      exact ⟨⟨cause, r.place k⟩, r.read_eq_error_iff.2 ⟨k, hflaw, rfl⟩, rfl⟩

/-- A line has one outcome. -/
theorem outcome_eq_of_judged {line : List Char} {other : Except Fault Instruction}
    (h : Judged line item) (hother : Judged line other) : outcome item = outcome other := by
  obtain ⟨code, hcode, hok, herror⟩ := h
  obtain ⟨code', hcode', hok', herror'⟩ := hother
  obtain rfl : code = code' := (isCode_iff.1 hcode).symm.trans (isCode_iff.1 hcode')
  cases ho : outcome other with
  | ok i => exact (hok i).2 ((hok' i).1 ho)
  | error cause => exact (herror cause).2 ((herror' cause).1 ho)

/-- The lines of a text that are not blank up to their comments. -/
def codeLines (content : String) : List (List Char) :=
  (content.toList.splitOn '\n').filter fun line => !(beforeComment line).all isBlank

theorem judged_items (content : String) :
    List.Forall₂ Judged (codeLines content) (readText content) := by
  have hitems := (items_readText content).imp fun _ _ => judged_of_itemOf
  have htexts : ((linesIn content.toList).filter fun l => !l.code.all isBlank).map Line.text =
      codeLines content := by
    rw [codeLines, ← map_text_linesBehind [] (content.toList.splitOn '\n'), List.filter_map]
    rfl
  rw [← htexts, List.forall₂_map_left_iff]
  exact hitems

/-- A line that stands alone has the item that it has among others. -/
theorem outcomes_of_judged {ls : List (List Char)} {items : List (Except Fault Instruction)}
    (hls : ∀ line ∈ ls, '\n' ∉ line)
    (h : List.Forall₂ Judged (ls.filter fun line => !(beforeComment line).all isBlank) items) :
    items.map outcome = ls.flatMap fun line => (readText (String.ofList line)).map outcome := by
  induction ls generalizing items with
  | nil =>
    cases h
    rfl
  | cons line ls ih =>
    have hlater : ∀ line ∈ ls, '\n' ∉ line := fun line hl => hls line (List.mem_cons_of_mem _ hl)
    have halone : List.Forall₂ Judged
        ([line].filter fun line => !(beforeComment line).all isBlank)
        (readText (String.ofList line)) := by
      have hone : (String.ofList line).toList.splitOn '\n' = [line] := by
        rw [String.toList_ofList]
        exact List.splitOn_eq_singleton (hls line List.mem_cons_self)
      have hjudged := judged_items (String.ofList line)
      rwa [codeLines, hone] at hjudged
    rw [List.flatMap_cons]
    by_cases hblank : (beforeComment line).all isBlank
    · rw [List.filter_cons_of_neg (by simpa using hblank)] at h halone
      generalize readText (String.ofList line) = alone at halone
      cases halone
      exact ih hlater h
    · rw [List.filter_cons_of_pos (by simpa using hblank)] at h halone
      generalize readText (String.ofList line) = alone at halone
      cases h with
      | cons hitem h =>
        cases halone with
        | cons hother hnone =>
          cases hnone
          rw [List.map_cons, ih hlater h, outcome_eq_of_judged hitem hother]
          rfl

/-- **A text is read as its grammar says.** Every line with code gives one item, in the order of
the lines: the instruction that its words write, and else their first flaw. The line gives the same
one where it stands alone. A file is read exactly if every item is an instruction, as the
instructions in that order, and else its fault is the first one. -/
theorem readText_judged (source : Source) :
    List.Forall₂ Judged (codeLines source.content) (readText source.content) ∧
    (readText source.content).map outcome =
      ((source.content.toList.splitOn '\n').flatMap fun line =>
        (readText (String.ofList line)).map outcome) ∧
    (∀ file, File.read source = .ok file ↔ file.name = source.name ∧ file.stem = source.stem ∧
      readText source.content = file.instructions.map .ok) ∧
    ∀ fault, File.read source = .error fault ↔
      ∃ (program : List Instruction) (later : List (Except Fault Instruction)),
        readText source.content = program.map .ok ++ .error fault :: later := by
  have hjudged := judged_items source.content
  refine ⟨hjudged, ?_, fun file => read_eq_ok_iff, fun fault => ?_⟩
  · exact outcomes_of_judged (fun line hline => not_mem_of_mem_splitOn hline) hjudged
  · rw [← mapM_id_eq_error_iff, File.read]
    cases (readText source.content).mapM id <;> simp [bind, Except.bind, pure, Except.pure]

end JackToolchain.Vm
