import JackToolchain.Proofs.Jack.Slices
import JackToolchain.Proofs.Vm.Canonical

/-!
# The grammar of a line

The words of a line write an instruction, or they have a first flaw. What stands behind a command
depends on its form alone: a segment and an index, a name, a name and a count, or nothing.

* `WritesNumber`: the words that write a number.
* `Form`, `HasForm`: the forms of the commands.
* `Writes`: the words that write an instruction.
* `Flaw`: the first thing that is wrong with words, and the word that it is about.
* `Row.read_eq_ok_iff`, `Row.read_eq_error_iff`: **a line is read as the instruction that its words
  write, and else its first flaw is found**.
-/

namespace JackToolchain.Vm

open Text

/-! ## Forms -/

/-- A number is written with digits, possibly behind a plus sign. -/
def WritesNumber (word : String) (n : Nat) : Prop :=
  ∃ digits, (word.toList = digits ∨ word.toList = '+' :: digits) ∧ digits ≠ [] ∧
    (∀ d ∈ digits, d.isDigit) ∧ Jack.numeral digits = n ∧ n ≤ maxNumber

/-- What stands behind a command, and the instruction that it makes. -/
inductive Form where
  | access (make : Segment → Nat → Instruction)
  | naming (make : String → Instruction)
  | counting (make : String → Nat → Instruction) (count : MissingPart)
  | alone (instruction : Instruction)

/-- The commands and their forms. -/
inductive HasForm : String → Form → Prop where
  | push : HasForm "push" (.access .push)
  | pop : HasForm "pop" (.access .pop)
  | label : HasForm "label" (.naming .label)
  | goto : HasForm "goto" (.naming .goto)
  | ifGoto : HasForm "if-goto" (.naming .ifGoto)
  | function : HasForm "function" (.counting .function .localCount)
  | call : HasForm "call" (.counting .call .argumentCount)
  | return : HasForm "return" (.alone .return)
  | operate (operator : Operator) : HasForm operator.text (.alone (.operate operator))

namespace Form

/-- The words behind a command of a form, and the instruction that they write. -/
inductive Writes : Form → List String → Instruction → Prop where
  | access {make : Segment → Nat → Instruction} (segment : Segment) {word : String} {n : Nat}
    (hn : WritesNumber word n) : Writes (.access make) [segment.text, word] (make segment n)
  | naming {make : String → Instruction} (name : String) :
    Writes (.naming make) [name] (make name)
  | counting {make : String → Nat → Instruction} {count : MissingPart} (name : String)
    {word : String} {n : Nat} (hn : WritesNumber word n) :
    Writes (.counting make count) [name, word] (make name n)
  | alone (i : Instruction) : Writes (.alone i) [] i

/-- What the first word behind a command of a form is, if there has to be one. -/
def first? : Form → Option MissingPart
  | .access _ => some .segment
  | .naming _ => some .labelName
  | .counting _ _ => some .functionName
  | .alone _ => none

/-- What the number behind a command of a form is, if there has to be one. -/
def number? : Form → Option MissingPart
  | .access _ => some .index
  | .counting _ count => some count
  | .naming _ | .alone _ => none

/-- Whether a word can be the first behind a command of a form: a segment has to be one. -/
def Admits : Form → String → Prop
  | .access _, word => ∃ segment : Segment, segment.text = word
  | .naming _, _ | .counting _ _, _ => True
  | .alone _, _ => False

/-- The first flaw of the words behind a command of a form, with the index of the word that it is
about. A missing word has the index at which it would stand. -/
inductive Flaw : Form → List String → Cause → Nat → Prop where
  | missingFirst {form : Form} {part : MissingPart} (hpart : form.first? = some part) :
    Flaw form [] (.missing part) 0
  | unknownSegment {make : Segment → Nat → Instruction} {word : String} {more : List String}
    (hword : ∀ segment : Segment, segment.text ≠ word) :
    Flaw (.access make) (word :: more) (.unknownSegment word) 0
  | missingNumber {form : Form} {part : MissingPart} {first : String} (hfirst : form.Admits first)
    (hpart : form.number? = some part) : Flaw form [first] (.missing part) 1
  | invalidNumber {form : Form} {part : MissingPart} {first word : String} {more : List String}
    (hfirst : form.Admits first) (hpart : form.number? = some part)
    (hword : ∀ n, ¬ WritesNumber word n) :
    Flaw form (first :: word :: more) (.invalidNumber word) 1
  | trailing {form : Form} {words more : List String} {word : String} {i : Instruction}
    (hwords : form.Writes words i) : Flaw form (words ++ word :: more) (.trailing word) words.length

end Form

/-- The words of a line that writes an instruction. -/
inductive Writes : List String → Instruction → Prop where
  | mk {command : String} {form : Form} {words : List String} {i : Instruction}
    (hform : HasForm command form) (hwords : form.Writes words i) : Writes (command :: words) i

/-- The first flaw of the words of a line, with the index of the word that it is about. -/
inductive Flaw : List String → Cause → Nat → Prop where
  | unknownCommand {command : String} {words : List String}
    (hcommand : ∀ form, ¬ HasForm command form) :
    Flaw (command :: words) (.unknownCommand command) 0
  | operand {command : String} {form : Form} {words : List String} {cause : Cause} {k : Nat}
    (hform : HasForm command form) (hflaw : form.Flaw words cause k) :
    Flaw (command :: words) cause (k + 1)

/-! ## Numbers -/

variable {word : String} {n : Nat} {i : Instruction}

theorem decimal?_eq_some_iff {digits : List Char} :
    decimal? digits = some n ↔
      digits ≠ [] ∧ (∀ d ∈ digits, d.isDigit) ∧ Jack.numeral digits = n := by
  by_cases hne : digits = []
  · subst hne
    constructor
    · intro h
      cases h
    · intro h
      exact absurd rfl h.1
  · rw [Jack.decimal?_eq_some_iff hne]
    exact (and_iff_right hne).symm

/-- A number is read where one is written. -/
theorem number?_eq_some_iff : number? word = some n ↔ WritesNumber word n := by
  have hplus : ¬ ('+').isDigit := by decide
  unfold number? WritesNumber
  rw [Option.filter_eq_some_iff]
  constructor
  · rintro ⟨hdigits, hle⟩
    have hle : n ≤ maxNumber := of_decide_eq_true hle
    split at hdigits
    · next cs heq =>
      obtain ⟨hne, hall, hvalue⟩ := decimal?_eq_some_iff.1 hdigits
      exact ⟨cs, .inr heq, hne, hall, hvalue, hle⟩
    · obtain ⟨hne, hall, hvalue⟩ := decimal?_eq_some_iff.1 hdigits
      exact ⟨word.toList, .inl rfl, hne, hall, hvalue, hle⟩
  · rintro ⟨digits, hword, hne, hall, hvalue, hle⟩
    have hdecimal : decimal? digits = some n := decimal?_eq_some_iff.2 ⟨hne, hall, hvalue⟩
    refine ⟨?_, decide_eq_true hle⟩
    rcases hword with rfl | hword
    · split
      · next cs heq =>
        -- a plus sign is no digit
        exact absurd (hall '+' (heq ▸ List.mem_cons_self)) hplus
      · exact hdecimal
    · rw [hword]
      exact hdecimal

theorem number?_eq_none_iff : number? word = none ↔ ∀ n, ¬ WritesNumber word n := by
  rw [Option.eq_none_iff_forall_ne_some]
  exact forall_congr' fun n => not_congr number?_eq_some_iff

/-! ## Operands -/

namespace Row

variable {r : Row} {field second : TextField} {more : List TextField} {part : MissingPart}

/-- The words of a line. -/
def words (r : Row) : List String :=
  r.command.text :: r.operands.map TextField.text

/-- The byte offset of the word at an index. A missing word has the end of the last one. -/
def place (r : Row) (k : Nat) : Nat :=
  match (r.command :: r.operands)[k]? with
  | some field => field.offset
  | none => r.stop

theorem operand_zero (hr : r.operands = field :: more) : r.operand 0 part = .ok field := by
  rw [operand, hr]
  rfl

theorem operand_one (hr : r.operands = field :: second :: more) :
    r.operand 1 part = .ok second := by
  rw [operand, hr]
  rfl

theorem operand_missing {k : Nat} (hr : r.operands.length ≤ k) :
    r.operand k part = .error ⟨.missing part, r.stop⟩ := by
  rw [operand, List.getElem?_eq_none hr]

theorem name_of_cons (hr : r.operands = field :: more) : r.name part = .ok field.text := by
  rw [name, operand_zero hr]
  rfl

theorem name_missing (hr : r.operands = []) :
    r.name part = .error ⟨.missing part, r.stop⟩ := by
  have hmissing : r.operand 0 part = .error ⟨.missing part, r.stop⟩ := by
    refine operand_missing ?_
    rw [hr]
    exact Nat.le_refl _
  rw [name, hmissing]
  rfl

theorem segment_of_cons (hr : r.operands = field :: more) :
    r.segment = match Segment.ofText? field.text with
      | some segment => .ok segment
      | none => .error ⟨.unknownSegment field.text, field.offset⟩ := by
  rw [segment, operand_zero hr]
  rfl

theorem segment_missing (hr : r.operands = []) :
    r.segment = .error ⟨.missing .segment, r.stop⟩ := by
  have hmissing : r.operand 0 .segment = .error ⟨.missing .segment, r.stop⟩ := by
    refine operand_missing ?_
    rw [hr]
    exact Nat.le_refl _
  rw [segment, hmissing]
  rfl

theorem number_of_cons (hr : r.operands = field :: second :: more) :
    r.number part = match Vm.number? second.text with
      | some n => .ok n
      | none => .error ⟨.invalidNumber second.text, second.offset⟩ := by
  rw [number, operand_one hr]
  rfl

theorem number_missing (hr : r.operands = [field]) :
    r.number part = .error ⟨.missing part, r.stop⟩ := by
  have hmissing : r.operand 1 part = .error ⟨.missing part, r.stop⟩ := by
    refine operand_missing ?_
    rw [hr]
    exact Nat.le_refl _
  rw [number, hmissing]
  rfl

/-! ## Commands -/

/-- What a command of a form reads of its operands. -/
def readForm (r : Row) : Form → Except Fault (Instruction × Nat)
  | .access make => do return (make (← r.segment) (← r.number .index), 2)
  | .naming make => do return (make (← r.name .labelName), 1)
  | .counting make count => do return (make (← r.name .functionName) (← r.number count), 2)
  | .alone i => .ok (i, 0)

theorem instruction_of_form {form : Form} (h : HasForm r.command.text form) :
    r.instruction = r.readForm form := by
  unfold instruction
  generalize r.command.text = command at h
  cases h with
  | operate operator => cases operator <;> rfl
  | _ => rfl

theorem instruction_unknown (h : ∀ form, ¬ HasForm r.command.text form) :
    r.instruction = .error ⟨.unknownCommand r.command.text, r.command.offset⟩ := by
  unfold instruction
  generalize r.command.text = command at h
  split
  · exact absurd .push (h _)
  · exact absurd .pop (h _)
  · exact absurd .label (h _)
  · exact absurd .goto (h _)
  · exact absurd .ifGoto (h _)
  · exact absurd .function (h _)
  · exact absurd .call (h _)
  · exact absurd .return (h _)
  · split
    · next operator hoperator =>
      obtain rfl := Operator.ofText?_eq_some_iff.1 hoperator
      exact absurd (.operate operator) (h _)
    · rfl

/-! ## Forms are read -/

section forms

variable {form : Form} {cause : Cause} {k : Nat}

theorem read_of_form (h : HasForm r.command.text form) :
    r.read = r.readForm form >>= fun (i, arity) =>
      match r.operands[arity]? with
      | some field => .error ⟨.trailing field.text, field.offset⟩
      | none => .ok i :=
  congrArg (· >>= _) (instruction_of_form h)

theorem readForm_of_writes {taken : List TextField} (hr : r.operands = taken ++ more)
    (hw : form.Writes (taken.map TextField.text) i) : r.readForm form = .ok (i, taken.length) := by
  generalize hwords : taken.map TextField.text = words at hw
  cases hw with
  | access segment hn =>
    obtain ⟨first, others, rfl, hfirst, hothers⟩ := List.map_eq_cons_iff.1 hwords
    obtain ⟨second, others, rfl, rfl, hnil⟩ := List.map_eq_cons_iff.1 hothers
    obtain rfl := List.map_eq_nil_iff.1 hnil
    have hsegment : Segment.ofText? first.text = some segment :=
      Segment.ofText?_eq_some_iff.2 hfirst.symm
    rw [readForm, segment_of_cons hr, number_of_cons hr, hsegment, number?_eq_some_iff.2 hn]
    rfl
  | naming name =>
    obtain ⟨first, others, rfl, rfl, hnil⟩ := List.map_eq_cons_iff.1 hwords
    obtain rfl := List.map_eq_nil_iff.1 hnil
    rw [readForm, name_of_cons hr]
    rfl
  | counting name hn =>
    obtain ⟨first, others, rfl, rfl, hothers⟩ := List.map_eq_cons_iff.1 hwords
    obtain ⟨second, others, rfl, rfl, hnil⟩ := List.map_eq_cons_iff.1 hothers
    obtain rfl := List.map_eq_nil_iff.1 hnil
    rw [readForm, name_of_cons hr, number_of_cons hr, number?_eq_some_iff.2 hn]
    rfl
  | alone i =>
    obtain rfl := List.map_eq_nil_iff.1 hwords
    rfl

theorem readForm_missingFirst (hr : r.operands = []) (hpart : form.first? = some part) :
    r.readForm form = .error ⟨.missing part, r.stop⟩ := by
  cases form with
  | access make =>
    cases hpart
    rw [readForm, segment_missing hr]
    rfl
  | naming make =>
    cases hpart
    rw [readForm, name_missing hr]
    rfl
  | counting make count =>
    cases hpart
    rw [readForm, name_missing hr]
    rfl
  | alone i => cases hpart

theorem readForm_unknownSegment {make : Segment → Nat → Instruction}
    (hr : r.operands = field :: more) (hfield : ∀ s : Segment, s.text ≠ field.text) :
    r.readForm (.access make) = .error ⟨.unknownSegment field.text, field.offset⟩ := by
  have hnone : Segment.ofText? field.text = none := by
    refine Option.eq_none_iff_forall_ne_some.2 fun s hs => ?_
    exact hfield s (Segment.ofText?_eq_some_iff.1 hs)
  rw [readForm, segment_of_cons hr, hnone]
  rfl

/-- Behind a first word that can stand there, the number decides. -/
theorem readForm_of_number_error {fault : Fault} (hr : r.operands = field :: more)
    (hfirst : form.Admits field.text) (hpart : form.number? = some part)
    (hnumber : r.number part = .error fault) : r.readForm form = .error fault := by
  cases form with
  | access make =>
    cases hpart
    obtain ⟨segment, hsegment⟩ := hfirst
    rw [readForm, segment_of_cons hr, Segment.ofText?_eq_some_iff.2 hsegment, hnumber]
    rfl
  | counting make count =>
    cases hpart
    rw [readForm, name_of_cons hr, hnumber]
    rfl
  | naming make => cases hpart
  | alone i => cases hpart

/-- The flaws of operands are found. -/
theorem read_of_flaw (hform : HasForm r.command.text form)
    (hflaw : form.Flaw (r.operands.map TextField.text) cause k) :
    r.read = .error ⟨cause, r.place (k + 1)⟩ := by
  have hplace : r.place (k + 1) = match r.operands[k]? with
      | some field => field.offset
      | none => r.stop := rfl
  have hfault {fault : Fault} (h : r.readForm form = .error fault) : r.read = .error fault := by
    rw [read_of_form hform, h]
    rfl
  generalize hwords : r.operands.map TextField.text = words at hflaw
  cases hflaw with
  | missingFirst hpart =>
    have hr := List.map_eq_nil_iff.1 hwords
    rw [hplace, hr]
    exact hfault (readForm_missingFirst hr hpart)
  | unknownSegment hword =>
    obtain ⟨first, others, hr, rfl, -⟩ := List.map_eq_cons_iff.1 hwords
    rw [hplace, hr]
    exact hfault (readForm_unknownSegment hr hword)
  | missingNumber hfirst hpart =>
    obtain ⟨first, others, hr, rfl, hnil⟩ := List.map_eq_cons_iff.1 hwords
    obtain rfl := List.map_eq_nil_iff.1 hnil
    rw [hplace, hr]
    exact hfault (readForm_of_number_error hr hfirst hpart (number_missing hr))
  | invalidNumber hfirst hpart hword =>
    obtain ⟨first, others, hr, rfl, hothers⟩ := List.map_eq_cons_iff.1 hwords
    obtain ⟨second, others, rfl, rfl, -⟩ := List.map_eq_cons_iff.1 hothers
    rw [hplace, hr]
    refine hfault (readForm_of_number_error hr hfirst hpart ?_)
    rw [number_of_cons hr, number?_eq_none_iff.2 hword]
    rfl
  | @trailing _ taken _ _ i hw =>
    obtain ⟨front, rest, hr, rfl, hrest⟩ := List.map_eq_append_iff.1 hwords
    obtain ⟨extra, others, rfl, rfl, -⟩ := List.map_eq_cons_iff.1 hrest
    have hextra : r.operands[front.length]? = some extra := by
      rw [hr, List.getElem?_append_right (Nat.le_refl _), Nat.sub_self]
      rfl
    rw [hplace, List.length_map, read_of_form hform, readForm_of_writes hr hw]
    simp only [hextra, bind, Except.bind]

/-- Words that write an instruction are read as it. -/
theorem read_of_writes (hform : HasForm r.command.text form)
    (hw : form.Writes (r.operands.map TextField.text) i) : r.read = .ok i := by
  have hr : r.operands = r.operands ++ [] := (List.append_nil _).symm
  have hnone : r.operands[r.operands.length]? = none := List.getElem?_eq_none (Nat.le_refl _)
  rw [read_of_form hform, readForm_of_writes hr hw]
  simp only [hnone, bind, Except.bind]

end forms

end Row

/-! ## Words write an instruction or have a flaw -/

namespace Form

/-- A first word and what has to be a number behind it. -/
theorem writes_or_flaw_of_number {form : Form} {part : MissingPart} {first : String}
    {make : Nat → Instruction} (hfirst : form.Admits first) (hpart : form.number? = some part)
    (hwrites : ∀ word n, WritesNumber word n → form.Writes [first, word] (make n))
    (words : List String) :
    (∃ i, form.Writes (first :: words) i) ∨ ∃ cause k, form.Flaw (first :: words) cause k := by
  cases words with
  | nil => exact .inr ⟨_, _, .missingNumber hfirst hpart⟩
  | cons word more =>
    by_cases hword : ∃ n, WritesNumber word n
    · obtain ⟨n, hn⟩ := hword
      cases more with
      | nil => exact .inl ⟨_, hwrites word n hn⟩
      | cons extra more =>
        have hwords : form.Writes [first, word] (make n) := hwrites word n hn
        exact .inr ⟨_, _, .trailing hwords⟩
    · exact .inr ⟨_, _, .invalidNumber hfirst hpart (not_exists.1 hword)⟩

theorem writes_or_flaw (form : Form) (words : List String) :
    (∃ i, form.Writes words i) ∨ ∃ cause k, form.Flaw words cause k := by
  cases form with
  | access make =>
    cases words with
    | nil => exact .inr ⟨_, _, .missingFirst rfl⟩
    | cons first words =>
      by_cases hfirst : ∃ segment : Segment, segment.text = first
      · obtain ⟨segment, rfl⟩ := hfirst
        have hadmits : (Form.access make).Admits segment.text := ⟨segment, rfl⟩
        exact writes_or_flaw_of_number hadmits rfl (fun _ _ hn => .access segment hn) words
      · exact .inr ⟨_, _, .unknownSegment (not_exists.1 hfirst)⟩
  | naming make =>
    cases words with
    | nil => exact .inr ⟨_, _, .missingFirst rfl⟩
    | cons first words =>
      cases words with
      | nil => exact .inl ⟨_, .naming first⟩
      | cons extra words =>
        have hwords : (Form.naming make).Writes [first] (make first) := .naming first
        exact .inr ⟨_, _, .trailing hwords⟩
  | counting make count =>
    cases words with
    | nil => exact .inr ⟨_, _, .missingFirst rfl⟩
    | cons first words =>
      have hadmits : (Form.counting make count).Admits first := trivial
      exact writes_or_flaw_of_number hadmits rfl (fun _ _ hn => .counting first hn) words
  | alone i =>
    cases words with
    | nil => exact .inl ⟨_, .alone i⟩
    | cons extra words =>
      have hwords : (Form.alone i).Writes [] i := .alone i
      exact .inr ⟨_, _, .trailing hwords⟩

end Form

theorem writes_or_flaw (command : String) (words : List String) :
    (∃ i, Writes (command :: words) i) ∨ ∃ cause k, Flaw (command :: words) cause k := by
  by_cases hcommand : ∃ form, HasForm command form
  · obtain ⟨form, hform⟩ := hcommand
    rcases form.writes_or_flaw words with ⟨i, hw⟩ | ⟨cause, k, hflaw⟩
    · exact .inl ⟨i, .mk hform hw⟩
    · exact .inr ⟨cause, k + 1, .operand hform hflaw⟩
  · exact .inr ⟨_, _, .unknownCommand (not_exists.1 hcommand)⟩

/-! ## Lines -/

namespace Row

variable {r : Row} {cause : Cause} {k : Nat} {fault : Fault}

theorem read_of_words_write (h : Writes r.words i) : r.read = .ok i := by
  cases h with
  | mk hform hw => exact read_of_writes hform hw

theorem read_of_words_flaw (h : Flaw r.words cause k) : r.read = .error ⟨cause, r.place k⟩ := by
  cases h with
  | unknownCommand hcommand =>
    rw [read, instruction_unknown hcommand]
    rfl
  | operand hform hflaw => exact read_of_flaw hform hflaw

/-- **A line is read as the instruction that its words write**, and as no other. -/
theorem read_eq_ok_iff : r.read = .ok i ↔ Writes r.words i := by
  constructor
  · intro h
    rcases writes_or_flaw r.command.text (r.operands.map TextField.text) with
      ⟨j, hj⟩ | ⟨cause, k, hflaw⟩
    · have hread : r.read = .ok j := read_of_words_write hj
      rw [h] at hread
      cases hread
      exact hj
    · have hread : r.read = .error ⟨cause, r.place k⟩ := read_of_words_flaw hflaw
      rw [h] at hread
      cases hread
  · exact read_of_words_write

/-- **The fault of a line is the first flaw of its words**, and lies where that is. -/
theorem read_eq_error_iff :
    r.read = .error fault ↔ ∃ k, Flaw r.words fault.cause k ∧ fault.offset = r.place k := by
  constructor
  · intro h
    rcases writes_or_flaw r.command.text (r.operands.map TextField.text) with
      ⟨j, hj⟩ | ⟨cause, k, hflaw⟩
    · have hread : r.read = .ok j := read_of_words_write hj
      rw [h] at hread
      cases hread
    · have hread : r.read = .error ⟨cause, r.place k⟩ := read_of_words_flaw hflaw
      rw [h] at hread
      cases hread
      exact ⟨k, hflaw, rfl⟩
  · rintro ⟨k, hflaw, hoffset⟩
    rw [read_of_words_flaw hflaw, ← hoffset]

end Row

end JackToolchain.Vm
