import JackToolchain.Proofs.Jack.Independence
import JackToolchain.Proofs.Jack.Labels
import JackToolchain.Proofs.Jack.Leftovers
import JackToolchain.Proofs.Jack.Wide
import JackToolchain.Proofs.Vm.Height

/-!
# Compiled code keeps the stack balanced

An expression leaves one operand more, and a statement leaves as many as it found. The
statements of a subroutine stand at height 0, whatever they are nested in. This is so exactly if
every call can count its values: what a call leaves behind is taken by nothing.

* `climb_statements`: the height behind statements that leave nothing.
* `level_statements`: statements in a block whose positions have heights leave nothing.
* `jumps_statements`: every jump has its label in the same code.
* `isBlock_code_iff`: the code of a subroutine is a block exactly if its statements leave nothing.
* `compile_balanced`: **a compiled subroutine is balanced exactly if every call in it can count its
  values**.
* `compile_unbalanced`: a call of 65536 arguments unbalances the stack.
* `compile_jumps`: **every jump of a compiled class has one label, in its own block**.
-/

namespace JackToolchain.Jack

open Vm Grammar Files

/-! ## Statements -/

/-- The height behind a statement without statements inside counts what its calls leave. -/
theorem climb_plain (className : String) (l : Labels) {s : Statement} (hs : s.isPlain) (n : Nat) :
    climb (s.code className l).1 n = some (n + s.leftover) := by
  have hexpression (e : Expression) (n : Nat) := climb_expression className e n
  cases s with
  | assign target value =>
    rw [Statement.code, climb_append_of_eq (hexpression value n)]
    rfl
  | assignElement array index value =>
    have haddress (n : Nat) : climb [array.push, .operate .add] (n + 1) = some (n + 1) := rfl
    have hheight : n + index.leftover + 1 + value.leftover + 1 =
        n + (index.leftover + value.leftover) + 2 := by omega
    rw [Statement.code, List.append_assoc, List.append_assoc,
      climb_append_of_eq (hexpression index n), climb_append_of_eq (haddress _),
      climb_append_of_eq (hexpression value _), hheight]
    rfl
  | call target name arguments =>
    rw [Statement.code, callCode, climb_append_of_eq (hexpression _ n)]
    rfl
  | _ => cases hs

/-- An expression that leaves nothing but its value is climbed from no operands to one. -/
theorem climb_condition (className : String) {e : Expression} (he : e.leftover = 0) :
    climb (e.code className) 0 = some 1 := by
  rw [climb_expression, he]

mutual

/-- A statement that leaves nothing is climbed from no operands to none. -/
theorem climb_statement (className : String) (l : Labels) (s : Statement) (hs : s.leftover = 0) :
    climb (s.code className l).1 0 = some 0 := by
  -- between its parts a statement has a fixed number of instructions, which `rfl` climbs
  cases s with
  | assign | assignElement | call => rw [climb_plain className l rfl, hs]
  | ifThen condition body =>
    obtain ⟨hcondition, hbody⟩ := Nat.add_eq_zero_iff.1 hs
    simp only [Statement.code, List.append_assoc]
    rw [climb_append_of_eq (climb_condition className hcondition), climb_append_of_eq (m := 0) rfl,
      climb_append_of_eq (climb_statements className _ body hbody)]
    rfl
  | ifElse condition body alternative =>
    obtain ⟨hfirst, halternative⟩ := Nat.add_eq_zero_iff.1 hs
    obtain ⟨hcondition, hbody⟩ := Nat.add_eq_zero_iff.1 hfirst
    simp only [Statement.code, List.append_assoc]
    rw [climb_append_of_eq (climb_condition className hcondition), climb_append_of_eq (m := 0) rfl,
      climb_append_of_eq (climb_statements className _ body hbody), climb_append_of_eq (m := 0) rfl,
      climb_append_of_eq (climb_statements className _ alternative halternative)]
    rfl
  | «while» condition body =>
    obtain ⟨hcondition, hbody⟩ := Nat.add_eq_zero_iff.1 hs
    simp only [Statement.code, List.append_assoc]
    rw [climb_append_of_eq (m := 0) rfl, climb_append_of_eq (climb_condition className hcondition),
      climb_append_of_eq (m := 0) rfl,
      climb_append_of_eq (climb_statements className _ body hbody)]
    rfl
  | «return» value =>
    cases value with
    | none => rfl
    | some e =>
      rw [Statement.code, climb_append_of_eq (climb_condition className hs)]
      rfl

theorem climb_statements (className : String) (l : Labels) (ss : List Statement)
    (hss : statementsLeftover ss = 0) : climb (statementsCode className l ss).1 0 = some 0 := by
  cases ss with
  | nil => rfl
  | cons s ss =>
    obtain ⟨hs, hss⟩ := Nat.add_eq_zero_iff.1 hss
    simp only [statementsCode]
    rw [climb_append_of_eq (climb_statement className l s hs), climb_statements className _ ss hss]

end

/-! ## Statements in blocks -/

section level

variable {block : List Instruction} {height : Nat → Nat} {className : String} {pc : Nat}

theorem height_expression (hb : Balanced block height) {e : Expression}
    (hp : Holds block pc (e.code className)) :
    height (behind pc (e.code className)) = height pc + e.leftover + 1 :=
  hb.height_behind hp (straight_expression className e) (climb_expression className e _)

mutual

/-- Where no operands are behind a statement, there are none before it, and it leaves none. The
height behind a `return` does not matter. -/
theorem level_statement (hb : Balanced block height) (l : Labels) (s : Statement) {pc : Nat}
    (hp : Holds block pc (s.code className l).1)
    (hbehind : s.isReturn = false → height (behind pc (s.code className l).1) = 0) :
    height pc = 0 ∧ s.leftover = 0 := by
  cases s with
  | assign | assignElement | call =>
    have hheight := hb.height_behind hp (straight_plain className l rfl)
      (climb_plain className l rfl _)
    exact Nat.add_eq_zero_iff.1 (hheight.symm.trans (hbehind rfl))
  | ifThen condition body =>
    have hend := hbehind rfl
    -- the label behind the body is where both ways meet
    have hlabel := hb.height_label hp.right
    have hover := hb.height_goto hp.left.left.right.tail hp.right
    obtain ⟨hjump, -⟩ := hb.height_ifGoto hp.left.left.right
    have hcondition := height_expression hb hp.left.left.left
    have hbody := level_statements hb _ body hp.left.right
    simp only [Statement.code, behind_append, behind_cons, behind_nil] at *
    obtain ⟨-, hinner⟩ := hbody fun _ => by omega
    exact ⟨by omega, Nat.add_eq_zero_iff.2 ⟨by omega, hinner⟩⟩
  | ifElse condition body alternative =>
    have hend := hbehind rfl
    have hlabel := hb.height_label hp.right
    have hover := hb.height_goto hp.left.left.left.left.right.tail hp.left.left.right.tail
    have hskip := hb.height_goto hp.left.left.right hp.right
    have hother := hb.height_label hp.left.left.right.tail
    obtain ⟨hjump, -⟩ := hb.height_ifGoto hp.left.left.left.left.right
    have hcondition := height_expression hb hp.left.left.left.left.left
    have hbody := level_statements hb _ body hp.left.left.left.right
    have halternative := level_statements hb _ alternative hp.left.right
    simp only [Statement.code, behind_append, behind_cons, behind_nil] at *
    obtain ⟨hstart, hsecond⟩ := halternative fun _ => by omega
    obtain ⟨-, hfirst⟩ := hbody fun _ => by omega
    have htest : condition.leftover = 0 := by omega
    refine ⟨by omega, ?_⟩
    rw [Statement.leftover, htest, hfirst, hsecond]
  | «while» condition body =>
    have hend := hbehind rfl
    have hstart := hb.height_label hp.left.left.left.left
    have hlabel := hb.height_label hp.right.tail
    have hback := hb.height_goto hp.right hp.left.left.left.left
    obtain ⟨hjump, htarget⟩ := hb.height_ifGoto hp.left.left.right.tail
    have hnext := htarget _ _ hp.right.tail
    have hcondition := height_expression hb hp.left.left.left.right
    have henough := hb.enough _ _ hp.left.left.right.head
    have hnegate := hb.next _ _ hp.left.left.right.head rfl
    have hbody := level_statements hb _ body hp.left.right
    simp only [Statement.code, behind_append, behind_cons, behind_nil, Instruction.takes,
      Instruction.after, Instruction.puts, Operator.arity] at *
    obtain ⟨-, hinner⟩ := hbody fun _ => by omega
    exact ⟨by omega, Nat.add_eq_zero_iff.2 ⟨by omega, hinner⟩⟩
  | «return» value =>
    cases value with
    | none =>
      have hnext := hb.next _ _ hp.head rfl
      have hresult := hb.result _ hp.tail.head
      exact ⟨Nat.succ.inj (hnext.symm.trans hresult), rfl⟩
    | some e =>
      have hvalue := height_expression hb hp.left
      have hresult := hb.result _ hp.right.head
      exact Nat.add_eq_zero_iff.1 (Nat.succ.inj (hvalue.symm.trans hresult))

/-- Statements in a block leave nothing, if no operands are behind them or they end with a
`return`. -/
theorem level_statements (hb : Balanced block height) (l : Labels) (ss : List Statement) {pc : Nat}
    (hp : Holds block pc (statementsCode className l ss).1)
    (hbehind : (ss.getLast?.map Statement.isReturn).getD false = false →
      height (behind pc (statementsCode className l ss).1) = 0) :
    height pc = 0 ∧ statementsLeftover ss = 0 := by
  cases ss with
  | nil => exact ⟨hbehind rfl, rfl⟩
  | cons s ss =>
    have hothers := level_statements hb (s.code className l).2 ss hp.right
    have hend : behind pc (statementsCode className l (s :: ss)).1 =
        behind (behind pc (s.code className l).1)
          (statementsCode className (s.code className l).2 ss).1 := behind_append ..
    rw [hend] at hbehind
    cases ss with
    | nil =>
      obtain ⟨hstart, hs⟩ := level_statement hb l s hp.left hbehind
      exact ⟨hstart, Nat.add_eq_zero_iff.2 ⟨hs, rfl⟩⟩
    | cons s' ss =>
      -- a statement with others behind it goes on to where these begin
      obtain ⟨hmiddle, hss⟩ := hothers hbehind
      obtain ⟨hstart, hs⟩ := level_statement hb l s hp.left fun _ => hmiddle
      exact ⟨hstart, Nat.add_eq_zero_iff.2 ⟨hs, hss⟩⟩

end

end level

/-! ## Jumps -/

theorem jumpNames_expression (className : String) (e : Expression) :
    jumpNames (e.code className) = [] :=
  jumpNames_of_straight (straight_expression className e)

mutual

/-- A statement jumps to its own labels. -/
theorem jumps_statement (className : String) (l : Labels) (s : Statement) :
    jumpNames (s.code className l).1 ⊆ labelNames (s.code className l).1 := by
  cases s with
  | ifThen condition body =>
    have hbody := jumps_statements className { l with conditionals := l.conditionals + 1 } body
    simp [Statement.code, jumpNames_expression, labelNames_expression, hbody,
      List.subset_append_of_subset_left]
  | ifElse condition body alternative =>
    have hbody := jumps_statements className { l with conditionals := l.conditionals + 1 } body
    have halternative := jumps_statements className
      (statementsCode className { l with conditionals := l.conditionals + 1 } body).2 alternative
    simp only [Statement.code, jumpNames_append, labelNames_append, jumpNames_expression,
      labelNames_expression, jumpNames_cons, labelNames_cons, jumpNames_nil, labelNames_nil,
      Instruction.jumpName?, Instruction.labelName?, Option.toList_none, Option.toList_some,
      List.nil_append, List.append_nil, List.cons_append]
    -- what is left is a sublist of labels, in another order
    grind
  | «while» condition body =>
    have hbody := jumps_statements className { l with loops := l.loops + 1 } body
    simp [Statement.code, jumpNames_expression, labelNames_expression, hbody,
      List.subset_append_of_subset_left]
  | assign | assignElement | call =>
    simp [Statement.code, callCode, Variable.push, Variable.pop, jumpNames_expression]
  | «return» value => cases value <;> simp [Statement.code, jumpNames_expression]

theorem jumps_statements (className : String) (l : Labels) (ss : List Statement) :
    jumpNames (statementsCode className l ss).1 ⊆ labelNames (statementsCode className l ss).1 := by
  cases ss with
  | nil => exact List.nil_subset _
  | cons s ss =>
    have hfirst := jumps_statement className l s
    have hothers := jumps_statements className (s.code className l).2 ss
    simp only [statementsCode, jumpNames_append, labelNames_append]
    exact List.append_subset.2 ⟨List.subset_append_of_subset_left _ hfirst,
      List.subset_append_of_subset_right _ hothers⟩

end

/-! ## Subroutines -/

mutual

/-- A statement starts no subroutine. -/
theorem isFunction_statement (className : String) (l : Labels) (s : Statement) :
    ∀ i ∈ (s.code className l).1, i.isFunction = false := by
  have hexpression (e : Expression) : ∀ i ∈ e.code className, i.isFunction = false :=
    isFunction_of_straight (straight_expression className e)
  cases s with
  | assign | assignElement | call => exact isFunction_of_straight (straight_plain className l rfl)
  | ifThen condition body =>
    simp only [Statement.code, List.forall_mem_append, List.forall_mem_cons]
    exact ⟨⟨⟨hexpression condition, rfl, rfl, rfl, nofun⟩, isFunction_statements className _ body⟩,
      rfl, nofun⟩
  | ifElse condition body alternative =>
    simp only [Statement.code, List.forall_mem_append, List.forall_mem_cons]
    exact ⟨⟨⟨⟨⟨hexpression condition, rfl, rfl, rfl, nofun⟩,
      isFunction_statements className _ body⟩, rfl, rfl, nofun⟩,
      isFunction_statements className _ alternative⟩, rfl, nofun⟩
  | «while» condition body =>
    simp only [Statement.code, List.forall_mem_append, List.forall_mem_cons]
    exact ⟨⟨⟨⟨⟨rfl, nofun⟩, hexpression condition⟩, rfl, rfl, nofun⟩,
      isFunction_statements className _ body⟩, rfl, rfl, nofun⟩
  | «return» value =>
    cases value with
    | none =>
      simp only [Statement.code, List.forall_mem_cons]
      exact ⟨rfl, rfl, nofun⟩
    | some e =>
      simp only [Statement.code, List.forall_mem_append, List.forall_mem_cons]
      exact ⟨hexpression e, rfl, nofun⟩

@[inherit_doc isFunction_statement]
theorem isFunction_statements (className : String) (l : Labels) (ss : List Statement) :
    ∀ i ∈ (statementsCode className l ss).1, i.isFunction = false := by
  cases ss with
  | nil => exact nofun
  | cons s ss =>
    simp only [statementsCode, List.forall_mem_append]
    exact ⟨isFunction_statement className l s, isFunction_statements className _ ss⟩

end

/-- Statements that end with a `return` have code that does. -/
theorem getLast?_statements (className : String) (l : Labels) (ss : List Statement)
    (h : (ss.getLast?.map Statement.isReturn).getD false) :
    (statementsCode className l ss).1.getLast? = some .return := by
  induction ss generalizing l with
  | nil => cases h
  | cons s ss ih =>
    simp only [statementsCode]
    cases ss with
    | nil =>
      cases s with
      | «return» value => cases value <;> simp [Statement.code, statementsCode]
      | _ => cases h
    | cons s' ss => rw [List.getLast?_append, ih _ h, Option.some_or]

theorem climb_prologue (h : Header) : climb h.prologue 0 = some 0 := by
  unfold Header.prologue
  cases h.kind <;> rfl

theorem climb_epilogue (s : Subroutine) : climb s.epilogue 0 = some 0 := by
  unfold Subroutine.epilogue
  split <;> rfl

namespace Subroutine

/-- The code of a subroutine has its header in front. -/
theorem code_eq (s : Subroutine) :
    s.code = .function s.qualifiedName (s.scope.count .local).toNat ::
      (s.prologue ++ (statementsCode s.className {} s.body).1 ++ s.epilogue) := by
  simp [Subroutine.code]

/-- The code of a subroutine has no other header. -/
theorem exists_body (s : Subroutine) : ∃ body,
    s.code = .function s.qualifiedName (s.scope.count .local).toNat :: body ∧
      ∀ i ∈ body, i.isFunction = false := by
  refine ⟨_, s.code_eq, ?_⟩
  rw [List.forall_mem_append, List.forall_mem_append]
  refine ⟨⟨?_, isFunction_statements _ _ _⟩, ?_⟩
  · unfold Header.prologue
    cases s.kind <;> simp [Instruction.isFunction]
  · unfold Subroutine.epilogue
    split <;> simp [Instruction.isFunction]

theorem getLast?_code (s : Subroutine) : s.code.getLast? = some .return := by
  rw [Subroutine.code, List.getLast?_append]
  unfold Subroutine.epilogue
  split
  · next hreturn =>
    rw [List.getLast?_append, getLast?_statements _ _ _ hreturn]
    rfl
  · rfl

/-- A subroutine jumps to its own labels. -/
theorem jumps_code (s : Subroutine) : jumpNames s.code ⊆ labelNames s.code := by
  have hprologue : jumpNames s.prologue = [] := by
    unfold Header.prologue
    cases s.kind <;> rfl
  have hepilogue : jumpNames s.epilogue = [] := by
    unfold Subroutine.epilogue
    split <;> rfl
  rw [s.labelNames_code, s.code_eq, jumpNames_cons, jumpNames_append, jumpNames_append, hprologue,
    hepilogue, List.append_nil]
  exact jumps_statements s.className {} s.body

end Subroutine

/-- The code of a subroutine is a block exactly if its statements leave nothing. -/
theorem isBlock_code_iff (s : Subroutine) : IsBlock s.code ↔ statementsLeftover s.body = 0 := by
  constructor
  · intro hblock
    obtain ⟨height, hheight⟩ := hblock.heights
    have hp : Holds s.code 1
        (s.prologue ++ (statementsCode s.className {} s.body).1 ++ s.epilogue) :=
      ⟨[.function s.qualifiedName (s.scope.count .local).toNat], [], by simp [s.code_eq], rfl⟩
    refine (level_statements hheight {} s.body hp.left.right fun hreturn => ?_).2
    -- without a `return` at their end, the one behind them has its own value alone
    have hepilogue : s.epilogue = [.push .constant 0, .return] := by
      rw [Subroutine.epilogue, hreturn]
      rfl
    have hend := hp.right
    rw [hepilogue, behind_append] at hend
    have hnext := hheight.next _ _ hend.head rfl
    have hresult := hheight.result _ hend.tail.head
    exact Nat.succ.inj (hnext.symm.trans hresult)
  · intro hleftover
    have hclimb : climb (s.prologue ++ (statementsCode s.className {} s.body).1 ++ s.epilogue) 0 =
        some 0 := by
      rw [List.append_assoc, climb_append_of_eq (climb_prologue _),
        climb_append_of_eq (climb_statements _ _ _ hleftover), climb_epilogue]
    have hjumps := s.jumps_code
    refine ⟨⟨_, _, _, s.code_eq, isFunction_of_climb hclimb⟩, s.getLast?_code, ?_⟩
    rw [s.code_eq] at hjumps ⊢
    exact ⟨_, balanced_of_climb hclimb hjumps⟩

/-- **Compiled code keeps the stack balanced, unless a call has more than 65535 values.** A class
that compiles is the blocks of its subroutines, each with one header in front and a `return` at its
end. The positions of a block have heights exactly if no call in its statements has more values
than 16 bits count. Then a run of the block from behind its header neither takes operands that are
not its own nor leaves the block, and it returns with exactly one value. -/
theorem compile_balanced {source : Source} {p : Program} (hp : compile source = .ok p) :
    ∃ (c : Cls) (scope : Scope), c.SpelledBy source ∧ c.scope? = some scope ∧
      p = ⟨c.name, c.subroutines.flatMap (Sub.block c.name scope)⟩ ∧
      ∀ s ∈ c.subroutines, ∃ h, s.header? c.name scope = some h ∧
        let block := s.block c.name scope
        (∃ name locals body, block = .function name locals :: body ∧
          ∀ i ∈ body, i.isFunction = false) ∧
        block.getLast? = some .return ∧
        (IsBlock block ↔ ∀ call ∈ statementsCalls s.body, call.Fits h) ∧
        ((∀ call ∈ statementsCalls s.body, call.Fits h) →
          ∀ (μ : Meaning) (t : State) (d : Config), t.stack = [] → Reaches μ block ⟨1, t⟩ d →
            ∃ i, block[d.pc]? = some i ∧ i.takes ≤ d.state.stack.length ∧
              (i = .return → d.state.stack.length = 1)) := by
  obtain ⟨c, scope, hsource, hscope, hprogram, hblocks⟩ := exists_blocks_of_compile hp
  refine ⟨c, scope, hsource, hscope, hprogram, fun s hs => ?_⟩
  obtain ⟨sub, hsub, hblock⟩ := hblocks s hs
  obtain ⟨h, hh, body, hbody, rfl⟩ := subTree?_eq_some_iff.1 hsub
  have hiff : IsBlock (Subroutine.code ⟨h, body⟩) ↔ ∀ call ∈ statementsCalls s.body, call.Fits h :=
    (isBlock_code_iff ⟨h, body⟩).trans (leftover_statements s.body hbody)
  rw [hblock]
  obtain ⟨rest, hcode, hrest⟩ := Subroutine.exists_body ⟨h, body⟩
  refine ⟨h, hh, ⟨_, _, rest, hcode, hrest⟩, Subroutine.getLast?_code _, hiff, ?_⟩
  exact fun hfits μ t d ht hr => (hiff.2 hfits).enough_operands ht hr

/-- A subroutine that returns inside a loop, with an array write behind the loop. -/
theorem compile_balanced_early_return :
    let source : Source := ⟨"Main.jack", "Main",
      "class Main { function int f(Array a) {
        while (a) { return g(a[0]); } let a[1] = 2; return 3; } }"⟩
    ∃ p, compile source = .ok p ∧ p.instructions.length = 25 ∧
      ∃ (c : Cls) (scope : Scope), c.SpelledBy source ∧ c.scope? = some scope ∧
        p = ⟨c.name, c.subroutines.flatMap (Sub.block c.name scope)⟩ ∧
        ∀ s ∈ c.subroutines, ∃ h, s.header? c.name scope = some h ∧
          (IsBlock (s.block c.name scope) ↔ ∀ call ∈ statementsCalls s.body, call.Fits h) := by
  intro source
  have h : compile source = .ok ⟨"Main", [.function "Main.f" 0,
      .label "WHILE_EXP0", .push .argument 0, .operate .not, .ifGoto "WHILE_END0",
      .push .pointer 0, .push .constant 0, .push .argument 0, .operate .add, .pop .pointer 1,
      .push .that 0, .call "Main.g" 2, .return,
      .goto "WHILE_EXP0", .label "WHILE_END0",
      .push .constant 1, .push .argument 0, .operate .add, .push .constant 2, .pop .temp 0,
      .pop .pointer 1, .push .temp 0, .pop .that 0,
      .push .constant 3, .return]⟩ :=
    toOption_eq_some_iff.1 (by decide +kernel)
  obtain ⟨c, scope, hsource, hscope, hprogram, hblocks⟩ := compile_balanced h
  refine ⟨_, h, rfl, c, scope, hsource, hscope, hprogram, fun s hs => ?_⟩
  obtain ⟨header, hheader, -, -, hiff, -⟩ := hblocks s hs
  exact ⟨header, hheader, hiff⟩

/-- Code with one header in front is cut into blocks in one way. -/
theorem eq_singleton_of_flatten {blocks : List (List Instruction)} {i : Instruction}
    {body : List Instruction} (hblocks : ∀ block ∈ blocks, IsBlock block)
    (hbody : ∀ i ∈ body, i.isFunction = false) (hcode : i :: body = blocks.flatten) :
    blocks = [i :: body] := by
  cases blocks with
  | nil => cases hcode
  | cons block others =>
    cases others with
    | nil => rw [hcode, List.flatten_singleton]
    | cons other others =>
      -- the header of a second block would stand behind the first one
      obtain ⟨name, locals, front, rfl, -⟩ := (hblocks block List.mem_cons_self).header
      obtain ⟨name', locals', front', rfl, -⟩ := (hblocks other (by simp)).header
      obtain ⟨-, hrest⟩ := List.cons.inj hcode
      have hheader := hbody (.function name' locals') (by rw [hrest]; simp)
      cases hheader

/-- The function of a wide class is a block exactly if its call can count its values. -/
theorem isBlock_wideSub_iff (n m : Nat) :
    IsBlock ((wideSub n m).block "Main" {}) ↔ m ≤ maxNumber := by
  obtain ⟨h, -, hmain, hsub⟩ := exists_tree?_wideSub n m
  obtain ⟨h', -, body, hbody, heq⟩ := subTree?_eq_some_iff.1 hsub
  cases heq
  rw [block_eq hsub, isBlock_code_iff, leftover_statements _ hbody, statementsCalls_wideSub,
    List.forall_mem_singleton, fits_wideCall_iff hmain]

theorem exists_blocks_wideSub_iff (n m : Nat) :
    (∃ blocks : List (List Instruction), (wideSub n m).block "Main" {} = blocks.flatten ∧
      ∀ block ∈ blocks, IsBlock block) ↔ m ≤ maxNumber := by
  rw [← isBlock_wideSub_iff n m]
  constructor
  · rintro ⟨blocks, hflatten, hblocks⟩
    obtain ⟨h, -, -, hsub⟩ := exists_tree?_wideSub n m
    rw [block_eq hsub] at hflatten ⊢
    obtain ⟨body, hbody, hfunction⟩ := Subroutine.exists_body ⟨h, _⟩
    rw [hbody] at hflatten ⊢
    have hone := eq_singleton_of_flatten hblocks hfunction hflatten
    exact hblocks _ (by rw [hone]; exact List.mem_singleton_self _)
  · intro hblock
    exact ⟨[_], (List.flatten_singleton).symm, List.forall_mem_singleton.2 hblock⟩

/-- **A call of 65536 arguments unbalances the stack**: its instruction takes none of them, and no
way of cutting the code into blocks makes the heights agree. -/
theorem compile_unbalanced : ∃ p, compile (wide 0 65536).source = .ok p ∧
    .call "Main.g" 0 ∈ p.instructions ∧
    ¬ ∃ blocks : List (List Instruction), p.instructions = blocks.flatten ∧
      ∀ block ∈ blocks, IsBlock block := by
  have hzero : counted 65536 = 0 := by decide
  refine ⟨_, compile_wide 0 65536, ?_, ?_⟩
  · rw [block_wideSub, hzero]
    exact List.mem_cons_of_mem _ (List.mem_append_right _ List.mem_cons_self)
  · rw [exists_blocks_wideSub_iff]
    decide

/-- **Jumps of compiled code are closed and unambiguous.** A class that compiles is a sequence of
blocks, each with one header in front. No label is defined twice in a block, and the label that
an instruction of the block jumps to is defined exactly once in it. -/
theorem compile_jumps {source : Source} {p : Program} (h : compile source = .ok p) :
    ∃ blocks : List (List Instruction), p.instructions = blocks.flatten ∧ ∀ block ∈ blocks,
      (∃ name locals body, block = .function name locals :: body ∧
        ∀ i ∈ body, i.isFunction = false) ∧
      (labelNames block).Nodup ∧
      ∀ i ∈ block, ∀ name, i.jumpName? = some name → (labelNames block).count name = 1 := by
  obtain ⟨c, -, rfl⟩ := ofTokens_eq_ok_iff.1 h
  refine ⟨c.subroutines.map Subroutine.code, List.flatMap_def, ?_⟩
  intro block hblock
  obtain ⟨s, -, rfl⟩ := List.mem_map.1 hblock
  obtain ⟨body, hcode, hbody⟩ := s.exists_body
  refine ⟨⟨_, _, body, hcode, hbody⟩, s.nodup_labelNames, ?_⟩
  intro i hi name hname
  have hjump : name ∈ jumpNames s.code := List.mem_filterMap.2 ⟨i, hi, hname⟩
  rw [s.nodup_labelNames.count, if_pos (s.jumps_code hjump)]

/-- A conditional with two branches inside a loop, each with a conditional of its own. -/
theorem compile_jumps_nested :
    let source : Source := ⟨"Main.jack", "Main",
      "class Main { function void f(int a) {
        while (a) { if (a) { if (a) { do g(); } } else { while (a) { if (a) { } } } } } }"⟩
    ∃ p, compile source = .ok p ∧
      labelNames p.instructions = ["WHILE_EXP0", "IF_TRUE0", "IF_TRUE1", "IF_FALSE1", "IF_FALSE0",
        "WHILE_EXP1", "IF_TRUE2", "IF_FALSE2", "WHILE_END1", "IF_END0", "WHILE_END0"] ∧
      ∃ blocks : List (List Instruction), p.instructions = blocks.flatten ∧ ∀ block ∈ blocks,
        (labelNames block).Nodup ∧
        ∀ i ∈ block, ∀ name, i.jumpName? = some name → (labelNames block).count name = 1 := by
  intro source
  have h : compile source = .ok ⟨"Main", [.function "Main.f" 0,
      .label "WHILE_EXP0", .push .argument 0, .operate .not, .ifGoto "WHILE_END0",
      .push .argument 0, .ifGoto "IF_TRUE0", .goto "IF_FALSE0", .label "IF_TRUE0",
      .push .argument 0, .ifGoto "IF_TRUE1", .goto "IF_FALSE1", .label "IF_TRUE1",
      .push .pointer 0, .call "Main.g" 1, .pop .temp 0, .label "IF_FALSE1",
      .goto "IF_END0", .label "IF_FALSE0",
      .label "WHILE_EXP1", .push .argument 0, .operate .not, .ifGoto "WHILE_END1",
      .push .argument 0, .ifGoto "IF_TRUE2", .goto "IF_FALSE2", .label "IF_TRUE2",
      .label "IF_FALSE2", .goto "WHILE_EXP1", .label "WHILE_END1",
      .label "IF_END0", .goto "WHILE_EXP0", .label "WHILE_END0",
      .push .constant 0, .return]⟩ :=
    toOption_eq_some_iff.1 (by decide +kernel)
  obtain ⟨blocks, hflat, hblocks⟩ := compile_jumps h
  exact ⟨_, h, rfl, blocks, hflat, fun block hblock => (hblocks block hblock).2⟩

end JackToolchain.Jack
