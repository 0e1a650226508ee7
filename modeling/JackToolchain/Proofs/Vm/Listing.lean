import JackToolchain.Proofs.Text.Joined
import JackToolchain.Proofs.Text.Lines
import JackToolchain.Vm.Reader

/-!
# Reading back a listing

A line writes the words of an instruction, and reading finds the same words.

* `Instruction.words`: the words of an instruction.
* `Instruction.Writable`: its names stand as words, and its number can be written.
* `read_words`: the words of an instruction are read as it.
* `readText_listing`: **a listing is read as the program that it lists**.
-/

namespace JackToolchain.Vm

open Text Files

variable {i : Instruction} {n : Nat} {program : List Instruction}

/-! ## Numbers -/

/-- A number that can be written is read back. -/
theorem number?_toString (hn : n ≤ maxNumber) : number? (toString n) = some n := by
  have hplus : ∀ cs, (toString n).toList ≠ '+' :: cs := by
    intro cs hcs
    have hplus : '+' ∉ (toString n).toList := not_mem_toString (by decide) n
    exact hplus (hcs ▸ List.mem_cons_self)
  rw [number?]
  split
  · next cs heq => exact absurd heq (hplus cs)
  · rw [decimal?_toString]
    simp [hn]

theorem isField_toString (n : Nat) : IsField (toString n) := by
  refine .of_no_slash (toList_toString_ne_nil n) ?_ ?_
  · exact fun c hc => isBlank_of_isDigit (isDigit_of_mem_toString hc)
  · exact not_mem_toString (by decide) n

/-! ## Words -/

namespace Instruction

/-- The words of the line that writes an instruction. -/
def words : Instruction → List String
  | .push segment index => ["push", segment.text, toString index]
  | .pop segment index => ["pop", segment.text, toString index]
  | .operate operator => [operator.text]
  | .label name => ["label", name]
  | .goto name => ["goto", name]
  | .ifGoto name => ["if-goto", name]
  | .function name locals => ["function", name, toString locals]
  | .call name arguments => ["call", name, toString arguments]
  | .return => ["return"]

/-- The label or the function that an instruction names. -/
def name? : Instruction → Option String
  | .label name | .goto name | .ifGoto name | .function name _ | .call name _ => some name
  | _ => none

/-- Whether the name and the number of an instruction can be written. -/
structure Writable (i : Instruction) : Prop where
  name : ∀ name, i.name? = some name → IsField name
  number : i.IsEncodable

theorem toList_text (i : Instruction) : i.text.toList = spaced i.words := by
  cases i <;>
    simp only [text, words, spaced_cons_cons, spaced_singleton, String.toList_append] <;>
    simp

end Instruction

theorem isField_segment (s : Segment) : IsField s.text := by
  cases s <;> exact .of_isSimple (by decide)

theorem isField_operator (o : Operator) : IsField o.text := by
  cases o <;> exact .of_isSimple (by decide)

/-- The commands that are no operators. -/
def commands : List String :=
  ["push", "pop", "label", "goto", "if-goto", "function", "call", "return"]

theorem isField_command {command : String} (hc : command ∈ commands) : IsField command := by
  have hall : ∀ command ∈ commands, isSimple command := by decide
  exact .of_isSimple (hall command hc)

/-- Every word of an instruction that can be written stands as one. -/
theorem isField_words (hi : i.Writable) : ∀ word ∈ i.words, IsField word := by
  have hcommand {command : String} (hc : command ∈ commands) := isField_command hc
  cases i with
  | push segment index =>
    simp only [Instruction.words, List.forall_mem_cons]
    exact ⟨hcommand (by decide), isField_segment segment, isField_toString index,
      List.forall_mem_nil _⟩
  | pop segment index =>
    simp only [Instruction.words, List.forall_mem_cons]
    exact ⟨hcommand (by decide), isField_segment segment, isField_toString index,
      List.forall_mem_nil _⟩
  | operate operator => exact List.forall_mem_singleton.2 (isField_operator operator)
  | label name =>
    simp only [Instruction.words, List.forall_mem_cons]
    exact ⟨hcommand (by decide), hi.name name rfl, List.forall_mem_nil _⟩
  | goto name =>
    simp only [Instruction.words, List.forall_mem_cons]
    exact ⟨hcommand (by decide), hi.name name rfl, List.forall_mem_nil _⟩
  | ifGoto name =>
    simp only [Instruction.words, List.forall_mem_cons]
    exact ⟨hcommand (by decide), hi.name name rfl, List.forall_mem_nil _⟩
  | function name locals =>
    simp only [Instruction.words, List.forall_mem_cons]
    exact ⟨hcommand (by decide), hi.name name rfl, isField_toString locals, List.forall_mem_nil _⟩
  | call name arguments =>
    simp only [Instruction.words, List.forall_mem_cons]
    exact ⟨hcommand (by decide), hi.name name rfl, isField_toString arguments,
      List.forall_mem_nil _⟩
  | «return» => exact List.forall_mem_singleton.2 (hcommand (by decide))

/-! ## Reading -/

section row

variable {r : Row} {first : String} {more : List String}

theorem Row.name_eq (part : MissingPart) (hr : r.operands.map TextField.text = first :: more) :
    r.name part = .ok first := by
  obtain ⟨field, fields, hfields, rfl, -⟩ := List.map_eq_cons_iff.1 hr
  rw [Row.name, Row.operand, hfields]
  rfl

theorem Row.segment_eq {s : Segment} (hr : r.operands.map TextField.text = s.text :: more) :
    r.segment = .ok s := by
  obtain ⟨field, fields, hfields, htext, -⟩ := List.map_eq_cons_iff.1 hr
  have hsegment : Segment.ofText? field.text = some s := Segment.ofText?_eq_some_iff.2 htext.symm
  have hoperand : r.operand 0 .segment = .ok field := by
    rw [Row.operand, hfields]
    rfl
  rw [Row.segment, hoperand]
  simp only [bind, Except.bind, hsegment]

theorem Row.number_eq (part : MissingPart)
    (hr : r.operands.map TextField.text = first :: toString n :: more) (hn : n ≤ maxNumber) :
    r.number part = .ok n := by
  obtain ⟨field, fields, hfields, -, hrest⟩ := List.map_eq_cons_iff.1 hr
  obtain ⟨second, others, rfl, htext, -⟩ := List.map_eq_cons_iff.1 hrest
  have hnumber : number? second.text = some n := by rw [htext, number?_toString hn]
  have hoperand : r.operand 1 part = .ok second := by
    rw [Row.operand, hfields]
    rfl
  rw [Row.number, hoperand]
  simp only [bind, Except.bind, hnumber]

/-- An instruction that takes all operands is read. -/
theorem Row.read_eq {words : List String} (hr : r.operands.map TextField.text = words)
    (hi : r.instruction = .ok (i, words.length)) : r.read = .ok i := by
  have hlength : r.operands.length = words.length := by rw [← hr, List.length_map]
  have hnone : r.operands[words.length]? = none := by
    rw [← hlength]
    exact List.getElem?_eq_none (Nat.le_refl _)
  rw [Row.read, hi]
  simp only [bind, Except.bind, hnone]

/-- The words of an instruction are read as it, wherever they stand. -/
theorem read_words (hr : r.command.text :: r.operands.map TextField.text = i.words)
    (hn : i.IsEncodable) : r.read = .ok i := by
  cases i with
  | push segment index =>
    obtain ⟨hcommand, hoperands⟩ := List.cons.inj hr
    have hsegment := Row.segment_eq hoperands
    have hindex := Row.number_eq .index hoperands (hn index rfl)
    refine Row.read_eq hoperands ?_
    simp [Row.instruction, hcommand, hsegment, hindex, bind, Except.bind, pure, Except.pure]
  | pop segment index =>
    obtain ⟨hcommand, hoperands⟩ := List.cons.inj hr
    have hsegment := Row.segment_eq hoperands
    have hindex := Row.number_eq .index hoperands (hn index rfl)
    refine Row.read_eq hoperands ?_
    simp [Row.instruction, hcommand, hsegment, hindex, bind, Except.bind, pure, Except.pure]
  | operate operator =>
    obtain ⟨hcommand, hoperands⟩ := List.cons.inj hr
    refine Row.read_eq hoperands ?_
    rw [Row.instruction, hcommand]
    cases operator <;> rfl
  | label name =>
    obtain ⟨hcommand, hoperands⟩ := List.cons.inj hr
    have hname := Row.name_eq .labelName hoperands
    refine Row.read_eq hoperands ?_
    simp [Row.instruction, hcommand, hname, bind, Except.bind, pure, Except.pure]
  | goto name =>
    obtain ⟨hcommand, hoperands⟩ := List.cons.inj hr
    have hname := Row.name_eq .labelName hoperands
    refine Row.read_eq hoperands ?_
    simp [Row.instruction, hcommand, hname, bind, Except.bind, pure, Except.pure]
  | ifGoto name =>
    obtain ⟨hcommand, hoperands⟩ := List.cons.inj hr
    have hname := Row.name_eq .labelName hoperands
    refine Row.read_eq hoperands ?_
    simp [Row.instruction, hcommand, hname, bind, Except.bind, pure, Except.pure]
  | function name locals =>
    obtain ⟨hcommand, hoperands⟩ := List.cons.inj hr
    have hname := Row.name_eq .functionName hoperands
    have hcount := Row.number_eq .localCount hoperands (hn locals rfl)
    refine Row.read_eq hoperands ?_
    simp [Row.instruction, hcommand, hname, hcount, bind, Except.bind, pure, Except.pure]
  | call name arguments =>
    obtain ⟨hcommand, hoperands⟩ := List.cons.inj hr
    have hname := Row.name_eq .functionName hoperands
    have hcount := Row.number_eq .argumentCount hoperands (hn arguments rfl)
    refine Row.read_eq hoperands ?_
    simp [Row.instruction, hcommand, hname, hcount, bind, Except.bind, pure, Except.pure]
  | «return» =>
    obtain ⟨hcommand, hoperands⟩ := List.cons.inj hr
    refine Row.read_eq hoperands ?_
    rw [Row.instruction, hcommand]
    rfl

end row

/-! ## Listings -/

theorem toList_listing (program : List Instruction) :
    (listing program).toList = (program.map fun i => spaced i.words).flatMap (· ++ ['\n']) := by
  rw [listing, String.toList_join, List.flatMap_map, List.flatMap_map]
  refine congrArg (List.flatMap · program) (funext fun i => ?_)
  rw [String.toList_append, Instruction.toList_text]
  rfl

/-- A line has no other blanks than the spaces between its words. -/
theorem not_mem_spaced (hi : i.Writable) {c : Char} (hb : isBlank c) (hc : c ≠ ' ') :
    c ∉ spaced i.words :=
  fun hmem => hc (eq_space_of_mem_spaced (isField_words hi) hmem hb)

theorem readLines_spaced (h : ∀ i ∈ program, i.Writable) (offset : Nat) :
    readLines offset (program.map fun i => spaced i.words) = program.map .ok := by
  induction program generalizing offset with
  | nil => rfl
  | cons i program ih =>
    have hi := h i List.mem_cons_self
    have hcomment : beforeComment (spaced i.words) = spaced i.words :=
      beforeComment_eq_self (no_comment_spaced (isField_words hi))
    have hfields := fields_spaced (isField_words hi) offset
    -- a line with words is not skipped
    have hne : i.words ≠ [] := by cases i <;> exact List.cons_ne_nil _ _
    rw [List.map_cons, readLines, hcomment, ih fun j hj => h j (List.mem_cons_of_mem _ hj)]
    cases hf : fields offset (spaced i.words) with
    | nil =>
      rw [hf] at hfields
      exact absurd hfields.symm hne
    | cons command operands =>
      rw [hf] at hfields
      have hread : Row.read ⟨command, operands⟩ = .ok i := read_words hfields hi.number
      rw [List.map_cons, ← hread]

/-- **A listing is read as the program that it lists.** -/
theorem readText_listing (h : ∀ i ∈ program, i.Writable) :
    readText (listing program) = program.map .ok := by
  have hlines : lines (listing program).toList = program.map fun i => spaced i.words := by
    rw [toList_listing]
    refine lines_flatMap fun line hline => ?_
    obtain ⟨i, hi, rfl⟩ := List.mem_map.1 hline
    exact ⟨not_mem_spaced (h i hi) (by decide) (by decide),
      not_mem_spaced (h i hi) (by decide) (by decide)⟩
  rw [readText, hlines, readLines_spaced h]

/-- A listing has no carriage returns, so it is the text of its source file. -/
theorem unixNewlines_listing (h : ∀ i ∈ program, i.Writable) :
    unixNewlines (listing program).toList = (listing program).toList := by
  refine unixNewlines_eq_self fun hmem => ?_
  rw [toList_listing] at hmem
  obtain ⟨line, hline, hmem⟩ := List.mem_flatMap.1 hmem
  obtain ⟨i, hi, rfl⟩ := List.mem_map.1 hline
  rcases List.mem_append.1 hmem with hmem | hmem
  · exact not_mem_spaced (h i hi) (by decide) (by decide) hmem
  · exact absurd (List.mem_singleton.1 hmem) (by decide)

/-- A listing in a file is read as the program that it lists. -/
theorem read_listing {name : String} {source : Source} (h : ∀ i ∈ program, i.Writable)
    (hs : Source.ofText? name (listing program) = some source) :
    File.read source = .ok ⟨source.name, source.stem, program⟩ := by
  obtain ⟨stem, -, rfl⟩ := Option.map_eq_some_iff.1 hs
  have hcollect : (program.map Except.ok : List (Except Fault Instruction)).mapM id =
      .ok program := by
    have hpure := List.mapM_pure (m := Except Fault) (l := program) (f := id)
    rw [List.map_id] at hpure
    rw [List.mapM_map]
    exact hpure
  rw [File.read, unixNewlines_listing h, String.ofList_toList, readText_listing h, hcollect]
  rfl

end JackToolchain.Vm
