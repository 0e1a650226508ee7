import JackToolchain.Jack.Code
import JackToolchain.Proofs.Text.Joined
import JackToolchain.Proofs.Vm.Run

/-!
# The labels of a subroutine

Conditionals and loops are numbered in the order in which they start, and a label is made
of a number and of what it marks.

* `Mark.label_injective`: labels differ if their marks or their numbers do.
* `Numbered`: the labels of code have the numbers between two counts, each once.
* `Subroutine.nodup_labelNames`: **no label of a subroutine is defined twice**.
-/

namespace JackToolchain.Jack

open Text Vm

/-- What a label marks. -/
inductive Mark where
  | ifTrue | ifFalse | ifEnd | whileExp | whileEnd
deriving DecidableEq

namespace Mark

/-- What the labels of a mark start with. -/
def text : Mark → String
  | .ifTrue => "IF_TRUE"
  | .ifFalse => "IF_FALSE"
  | .ifEnd => "IF_END"
  | .whileExp => "WHILE_EXP"
  | .whileEnd => "WHILE_END"

/-- The label of a mark in the conditional or the loop with a number. -/
def label (k : Mark) (n : Nat) : String :=
  k.text ++ toString n

/-- The number that the next conditional or loop with a mark gets. -/
def next (l : Labels) : Mark → Nat
  | .ifTrue | .ifFalse | .ifEnd => l.conditionals
  | .whileExp | .whileEnd => l.loops

theorem endsPlain_text (k : Mark) : endsPlain k.text := by
  cases k <;> decide

/-- Labels differ if their marks or their numbers do. -/
theorem label_injective {k k' : Mark} {n n' : Nat} (h : k.label n = k'.label n') :
    k = k' ∧ n = n' := by
  obtain ⟨htext, hnumber⟩ := numbered_inj k.endsPlain_text k'.endsPlain_text h
  refine ⟨?_, hnumber⟩
  revert htext
  cases k <;> cases k' <;> decide

end Mark

/-- The labels of code have the numbers between two counts, and no label is defined
twice. -/
structure Numbered (l : Labels) (code : List Instruction) (l' : Labels) : Prop where
  le : ∀ k, Mark.next l k ≤ Mark.next l' k
  mem : ∀ name ∈ labelNames code,
    ∃ k n, name = Mark.label k n ∧ Mark.next l k ≤ n ∧ n < Mark.next l' k
  nodup : (labelNames code).Nodup

namespace Numbered

variable {l l₁ l₂ : Labels} {code code' more : List Instruction}

theorem of_nil (h : labelNames code = []) : Numbered l code l := by
  refine ⟨fun k => Nat.le_refl _, ?_, ?_⟩
  · rw [h]
    exact nofun
  · rw [h]
    exact List.nodup_nil

/-- Numbers go on where those of the first part end. -/
theorem append (h₁ : Numbered l code l₁) (h₂ : Numbered l₁ more l₂) :
    Numbered l (code ++ more) l₂ := by
  refine ⟨fun k => Nat.le_trans (h₁.le k) (h₂.le k), ?_, ?_⟩
  · intro name hname
    rw [labelNames_append, List.mem_append] at hname
    rcases hname with hname | hname
    · obtain ⟨k, n, rfl, hle, hlt⟩ := h₁.mem name hname
      exact ⟨k, n, rfl, hle, Nat.lt_of_lt_of_le hlt (h₂.le k)⟩
    · obtain ⟨k, n, rfl, hle, hlt⟩ := h₂.mem name hname
      exact ⟨k, n, rfl, Nat.le_trans (h₁.le k) hle, hlt⟩
  · rw [labelNames_append]
    refine List.nodup_append.2 ⟨h₁.nodup, h₂.nodup, ?_⟩
    -- a number below the middle count is not at or above it
    rintro name hname name' hname' rfl
    obtain ⟨k, n, rfl, -, hlt⟩ := h₁.mem name hname
    obtain ⟨k', n', heq, hle, -⟩ := h₂.mem _ hname'
    obtain ⟨rfl, rfl⟩ := Mark.label_injective heq
    omega

theorem perm (h : Numbered l code l₁) (hp : (labelNames code').Perm (labelNames code)) :
    Numbered l code' l₁ :=
  ⟨h.le, fun name hname => h.mem name (hp.mem_iff.1 hname), hp.nodup_iff.2 h.nodup⟩

/-- The labels of one conditional or loop, which takes a number that is next. -/
theorem marks {ks : List Mark} {n : Nat} (hks : ks.Nodup)
    (hle : ∀ k, Mark.next l k ≤ Mark.next l₁ k)
    (hn : ∀ k ∈ ks, Mark.next l k ≤ n ∧ n < Mark.next l₁ k) :
    Numbered l (ks.map fun k => .label (k.label n)) l₁ := by
  refine ⟨hle, ?_, ?_⟩
  · intro name hname
    rw [labelNames_map_label] at hname
    obtain ⟨k, hk, rfl⟩ := List.mem_map.1 hname
    exact ⟨k, n, rfl, hn k hk⟩
  · rw [labelNames_map_label]
    exact List.pairwise_map.2 (hks.imp fun hne heq => hne (Mark.label_injective heq).1)

/-- Its labels have been numbered before those inside, wherever they stand. -/
theorem around (ks : List Mark) (n : Nat) (hks : ks.Nodup)
    (hle : ∀ k, Mark.next l k ≤ Mark.next l₁ k)
    (hn : ∀ k ∈ ks, Mark.next l k ≤ n ∧ n < Mark.next l₁ k) (hinner : Numbered l₁ code l₂)
    (hp : (labelNames code').Perm (ks.map (·.label n) ++ labelNames code)) :
    Numbered l code' l₂ := by
  refine ((marks hks hle hn).append hinner).perm ?_
  rw [labelNames_append, labelNames_map_label]
  exact hp

end Numbered

/-! ## Code without labels -/

theorem straight_receiver (target : Target) : target.receiver.all Instruction.isStraight := by
  cases target <;> rfl

theorem straight_stringCode (value : String) : (stringCode value).all Instruction.isStraight := by
  simp [stringCode]

mutual

/-- An expression has no labels and no jumps. -/
theorem straight_expression (className : String) (e : Expression) :
    (e.code className).all Instruction.isStraight := by
  cases e with
  | string value => exact straight_stringCode value
  | element array index =>
    simp [Expression.code, Variable.push, straight_expression className index]
  | negate operand => simp [Expression.code, straight_expression className operand]
  | invert operand => simp [Expression.code, straight_expression className operand]
  | binary left operator right =>
    have hleft := straight_expression className left
    have hright := straight_expression className right
    cases operator <;> simp [Expression.code, BinaryOperator.instruction, hleft, hright]
  | call target name arguments =>
    simp [Expression.code, straight_receiver, straight_arguments className arguments]
  | _ => rfl

theorem straight_arguments (className : String) (es : List Expression) :
    (argumentsCode className es).all Instruction.isStraight := by
  cases es with
  | nil => rfl
  | cons e es =>
    simp [argumentsCode, straight_expression className e, straight_arguments className es]

end

/-- Whether a statement has no statements inside and does not return. -/
def Statement.isPlain : Statement → Bool
  | .assign .. | .assignElement .. | .call .. => true
  | .ifThen .. | .ifElse .. | .while .. | .return _ => false

theorem straight_plain (className : String) (l : Labels) {s : Statement} (hs : s.isPlain) :
    (s.code className l).1.all Instruction.isStraight := by
  cases s with
  | assign target value => simp [Statement.code, straight_expression, Variable.pop]
  | assignElement array index value =>
    simp [Statement.code, straight_expression, Variable.push]
  | call target name arguments => simp [Statement.code, callCode, straight_expression]
  | _ => cases hs

theorem labelNames_expression (className : String) (e : Expression) :
    labelNames (e.code className) = [] :=
  labelNames_of_straight (straight_expression className e)

/-! ## Statements -/

/-- A conditional takes a number. -/
theorem next_le_conditionals (l : Labels) (k : Mark) :
    Mark.next l k ≤ Mark.next { l with conditionals := l.conditionals + 1 } k := by
  cases k <;> simp [Mark.next]

/-- A loop takes a number. -/
theorem next_le_loops (l : Labels) (k : Mark) :
    Mark.next l k ≤ Mark.next { l with loops := l.loops + 1 } k := by
  cases k <;> simp [Mark.next]

mutual

/-- The labels of a statement have the numbers that it takes. -/
theorem numbered_statement (className : String) (l : Labels) (s : Statement) :
    Numbered l (s.code className l).1 (s.code className l).2 := by
  cases s with
  | assign target value =>
    exact .of_nil (by simp [Statement.code, Variable.pop, labelNames_expression])
  | assignElement array index value =>
    exact .of_nil (by simp [Statement.code, Variable.push, labelNames_expression])
  | call target name arguments =>
    exact .of_nil (by simp [Statement.code, callCode, labelNames_expression])
  | «return» value =>
    cases value with
    | none => exact .of_nil rfl
    | some e => exact .of_nil (by simp [Statement.code, labelNames_expression])
  | ifThen condition body =>
    refine .around [.ifTrue, .ifFalse] l.conditionals (by decide) (next_le_conditionals l)
      (by simp [Mark.next]) (numbered_statements className _ body) ?_
    refine List.perm_iff_count.2 fun name => ?_
    simp [Statement.code, Mark.label, Mark.text, labelNames_expression, List.count_cons]
  | ifElse condition body alternative =>
    refine .around [.ifTrue, .ifFalse, .ifEnd] l.conditionals (by decide) (next_le_conditionals l)
      (by simp [Mark.next])
      ((numbered_statements className _ body).append (numbered_statements className _ alternative)) ?_
    refine List.perm_iff_count.2 fun name => ?_
    simp only [Statement.code, Mark.label, Mark.text, labelNames_append, labelNames_expression,
      labelNames_cons, labelNames_nil, Instruction.labelName?, Option.toList_none,
      Option.toList_some, List.map_cons, List.map_nil, List.cons_append, List.nil_append,
      List.count_cons, List.count_append, List.count_nil]
    omega
  | «while» condition body =>
    refine .around [.whileExp, .whileEnd] l.loops (by decide) (next_le_loops l)
      (by simp [Mark.next]) (numbered_statements className _ body) ?_
    refine List.perm_iff_count.2 fun name => ?_
    simp [Statement.code, Mark.label, Mark.text, labelNames_expression, List.count_cons]

/-- The labels of statements have the numbers that they take. -/
theorem numbered_statements (className : String) (l : Labels) (ss : List Statement) :
    Numbered l (statementsCode className l ss).1 (statementsCode className l ss).2 := by
  cases ss with
  | nil => exact .of_nil rfl
  | cons s ss =>
    exact (numbered_statement className l s).append (numbered_statements className _ ss)

end

theorem Subroutine.labelNames_code (s : Subroutine) :
    labelNames s.code = labelNames (statementsCode s.className {} s.body).1 := by
  have hprologue : labelNames s.prologue = [] := by
    unfold Header.prologue
    cases s.kind <;> rfl
  have hepilogue : labelNames s.epilogue = [] := by
    unfold Subroutine.epilogue
    split <;> rfl
  simp [Subroutine.code, hprologue, hepilogue]

/-- Every label of a subroutine is a mark with a number. -/
theorem Subroutine.exists_mark {s : Subroutine} {name : String} (hname : name ∈ labelNames s.code) :
    ∃ (k : Mark) (n : Nat), name = k.label n := by
  rw [s.labelNames_code] at hname
  obtain ⟨k, n, rfl, -, -⟩ := (numbered_statements s.className {} s.body).mem name hname
  exact ⟨k, n, rfl⟩

/-- **No label of a subroutine is defined twice.** -/
theorem Subroutine.nodup_labelNames (s : Subroutine) : (labelNames s.code).Nodup := by
  rw [s.labelNames_code]
  exact (numbered_statements s.className {} s.body).nodup

end JackToolchain.Jack
