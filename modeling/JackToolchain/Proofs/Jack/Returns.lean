import JackToolchain.Proofs.Jack.Balance
import JackToolchain.Proofs.Jack.Segments

/-!
# How subroutines return

A subroutine without a result returns 0, so that every call leaves one value. What its
statements return, at whatever depth, is decided where they are read: the grammar has no value
there. What stands behind the last statement is decided by that statement alone.

* `ReturnsZero`: before each `return` in code, the constant 0 is put on the stack.
* `ReturnsZero.append`: it goes from parts of code to all of it.
* `ReturnsZero.exists_stack_eq`: where a run of code with that property returns, the result is 0.
* `returnsZero_stmt`: the statements of a subroutine without a result have that property.
* `compile_returns`: **every subroutine ends with a `return`, and one without a result returns 0
  wherever it does**.
-/

namespace JackToolchain.Vm

variable {code more : List Instruction}

/-- Before each `return` in code, the constant 0 is put on the stack. -/
def ReturnsZero (code : List Instruction) : Prop :=
  ∀ before after, code = before ++ .return :: after →
    before.getLast? = some (.push .constant 0)

namespace ReturnsZero

/-- Code without a `return` has nothing to return. -/
theorem of_not_mem (h : .return ∉ code) : ReturnsZero code := by
  intro before after hcode
  rw [hcode] at h
  exact absurd (List.mem_append_right _ List.mem_cons_self) h

theorem of_straight (h : code.all Instruction.isStraight) : ReturnsZero code := by
  refine of_not_mem fun hreturn => ?_
  have hstraight := List.all_eq_true.1 h _ hreturn
  cases hstraight

/-- The constant 0 and the `return` behind it. -/
theorem pair : ReturnsZero [.push .constant 0, .return] := by
  intro before after hcode
  rcases before with _ | ⟨first, _ | ⟨second, before⟩⟩
  · cases (List.cons.inj hcode).1
  · obtain ⟨rfl, -⟩ := List.cons.inj hcode
    rfl
  · have hlength := congrArg List.length hcode
    simp at hlength

theorem append (h : ReturnsZero code) (h' : ReturnsZero more) : ReturnsZero (code ++ more) := by
  intro before after hsplit
  rcases List.append_eq_append_iff.1 hsplit with ⟨front, hbefore, hmore⟩ | ⟨back, hcode, hrest⟩
  · -- the `return` stands in the second part
    have hlast := h' front after hmore
    rw [hbefore, List.getLast?_append, hlast]
    rfl
  · cases back with
    | nil =>
      -- the second part starts with it, but it has the constant before it
      have hlast := h' [] after hrest.symm
      cases hlast
    | cons i back =>
      obtain ⟨rfl, -⟩ := List.cons.inj hrest
      exact h before back hcode

/-- Where a run returns in code with this property, the constant was put on the stack last. Below
it there is what was left there. -/
theorem exists_stack_eq {μ : Meaning} {s : State} {d : Config} {name : String} {locals : Nat}
    {body : List Instruction} (hzero : ReturnsZero code)
    (hcode : code = .function name locals :: body)
    (hrun : Reaches μ code ⟨1, s⟩ d) (hreturn : code[d.pc]? = some .return) :
    ∃ rest, d.state.stack = 0 :: rest := by
  have hbefore : (code.take d.pc).getLast? = some (.push .constant 0) := by
    refine hzero _ (code.drop (d.pc + 1)) ?_
    obtain ⟨hlt, heq⟩ := List.getElem?_eq_some_iff.1 hreturn
    rw [← heq, ← List.drop_eq_getElem_cons hlt, List.take_append_drop]
  rcases Relation.ReflTransGen.cases_tail hrun with rfl | ⟨e, -, hstep⟩
  · -- a run does not start at a `return`, since the header is no constant
    rw [hcode] at hbefore
    simp at hbefore
  · obtain ⟨i, hi, -, -, ⟨-, hpc⟩ | ⟨name, -, hlabel⟩⟩ := step_cases hstep
    · have hlast : i = .push .constant 0 := by
        rw [hpc, List.take_add_one, hi, List.getLast?_append] at hbefore
        simpa using hbefore
      rw [step, hi, hlast] at hstep
      obtain ⟨t, ht, rfl⟩ := Option.map_eq_some_iff.1 hstep
      cases ht
      exact ⟨e.state.stack, rfl⟩
    · -- a jump ends at a label
      rw [hlabel] at hreturn
      cases hreturn

/-- In a block nothing is left below it. -/
theorem stack_eq {μ : Meaning} {s : State} {d : Config} (hzero : ReturnsZero code)
    (hblock : IsBlock code) (hs : s.stack = []) (hrun : Reaches μ code ⟨1, s⟩ d)
    (hreturn : code[d.pc]? = some .return) : d.state.stack = [0] := by
  obtain ⟨name, locals, body, hcode, -⟩ := hblock.header
  obtain ⟨rest, hstack⟩ := hzero.exists_stack_eq hcode hrun hreturn
  obtain ⟨j, hj, -, hone⟩ := hblock.enough_operands hs hrun
  have hlength : d.state.stack.length = 1 := hone (Option.some.inj (hj.symm.trans hreturn))
  rw [hstack, List.length_cons] at hlength
  rw [hstack, List.length_eq_zero_iff.1 (Nat.succ.inj hlength)]

end ReturnsZero

end JackToolchain.Vm

namespace JackToolchain.Jack

open Grammar Vm Files

variable {className : String} {scope : Scope} {h : Header} {c : Cls}

/-! ## Statements -/

mutual

/-- In a subroutine without a result, a statement returns 0 wherever it returns. -/
theorem returnsZero_stmt (hvoid : h.isVoid) (t : Stmt) {s : Statement} (ht : t.tree? h = some s)
    (l : Labels) : ReturnsZero (s.code className l).1 := by
  have hexpression (e : Expression) : ReturnsZero (e.code className) :=
    .of_straight (straight_expression className e)
  cases t with
  | assign name value =>
    obtain ⟨v, -, hrest⟩ := Option.bind_eq_some_iff.1 ht
    obtain ⟨x, -, heq⟩ := Option.bind_eq_some_iff.1 hrest
    cases heq
    exact (hexpression x).append (.of_straight rfl)
  | assignElement array index value =>
    obtain ⟨v, -, hrest⟩ := Option.bind_eq_some_iff.1 ht
    obtain ⟨x, -, hrest'⟩ := Option.bind_eq_some_iff.1 hrest
    obtain ⟨y, -, heq⟩ := Option.bind_eq_some_iff.1 hrest'
    cases heq
    have hadd : ReturnsZero [v.push, .operate .add] := .of_straight rfl
    have haddress := (hexpression x).append hadd
    exact (haddress.append (hexpression y)).append (.of_straight rfl)
  | ifThen condition body =>
    obtain ⟨x, -, hrest⟩ := Option.bind_eq_some_iff.1 ht
    obtain ⟨b, hb, heq⟩ := Option.bind_eq_some_iff.1 hrest
    cases heq
    rw [Statement.code]
    have hbody := returnsZero_stmts hvoid body hb
    refine (((hexpression x).append (.of_not_mem ?_)).append (hbody _)).append (.of_not_mem ?_)
    all_goals simp
  | ifElse condition body alternative =>
    obtain ⟨x, -, hrest⟩ := Option.bind_eq_some_iff.1 ht
    obtain ⟨b, hb, hrest'⟩ := Option.bind_eq_some_iff.1 hrest
    obtain ⟨a, ha, heq⟩ := Option.bind_eq_some_iff.1 hrest'
    cases heq
    rw [Statement.code]
    refine (((((hexpression x).append (.of_not_mem ?_)).append
      (returnsZero_stmts hvoid body hb _)).append (.of_not_mem ?_)).append
        (returnsZero_stmts hvoid alternative ha _)).append (.of_not_mem ?_)
    all_goals simp
  | «while» condition body =>
    obtain ⟨x, -, hrest⟩ := Option.bind_eq_some_iff.1 ht
    obtain ⟨b, hb, heq⟩ := Option.bind_eq_some_iff.1 hrest
    cases heq
    rw [Statement.code]
    refine ((((ReturnsZero.of_not_mem ?_).append (hexpression x)).append (.of_not_mem ?_)).append
      (returnsZero_stmts hvoid body hb _)).append (.of_not_mem ?_)
    all_goals simp
  | call callee arguments =>
    obtain ⟨⟨target, name⟩, -, hrest⟩ := Option.bind_eq_some_iff.1 ht
    obtain ⟨vs, -, heq⟩ := Option.bind_eq_some_iff.1 hrest
    cases heq
    exact (hexpression (.call target name vs)).append (.of_straight rfl)
  | «return» value =>
    cases value with
    | none =>
      cases ht
      exact .pair
    | some value =>
      -- a value behind `return` is refused
      rw [Stmt.tree?, if_pos hvoid] at ht
      cases ht

@[inherit_doc returnsZero_stmt]
theorem returnsZero_stmts (hvoid : h.isVoid) (ts : List Stmt) {ss : List Statement}
    (ht : statementsTree? h ts = some ss) (l : Labels) :
    ReturnsZero (statementsCode className l ss).1 := by
  cases ts with
  | nil =>
    cases ht
    exact .of_not_mem List.not_mem_nil
  | cons t ts =>
    obtain ⟨s, hs, hrest⟩ := Option.bind_eq_some_iff.1 ht
    obtain ⟨ss, hss, heq⟩ := Option.bind_eq_some_iff.1 hrest
    cases heq
    rw [statementsCode]
    exact (returnsZero_stmt hvoid t hs l).append (returnsZero_stmts hvoid ts hss _)

end

/-! ## The end of a subroutine -/

namespace Grammar

/-- Whether a statement is a `return`, and not one around a `return`. -/
def Stmt.isReturn : Stmt → Bool
  | .return _ => true
  | _ => false

/-- Whether the last statement of a subroutine is a `return`. -/
def Sub.endsWithReturn (s : Sub) : Bool :=
  s.body.getLast?.any Stmt.isReturn

end Grammar

theorem isReturn_of_tree? {t : Stmt} {s : Statement} (ht : t.tree? h = some s) :
    s.isReturn = t.isReturn := by
  cases t with
  | «return» value =>
    cases value with
    | none =>
      cases ht
      rfl
    | some value =>
      rw [Stmt.tree?] at ht
      split at ht
      · cases ht
      · obtain ⟨x, -, heq⟩ := Option.bind_eq_some_iff.1 ht
        cases heq
        rfl
  | assign | ifThen | «while» | call =>
    obtain ⟨x, -, hrest⟩ := Option.bind_eq_some_iff.1 ht
    obtain ⟨y, -, heq⟩ := Option.bind_eq_some_iff.1 hrest
    cases heq
    rfl
  | assignElement | ifElse =>
    obtain ⟨x, -, hrest⟩ := Option.bind_eq_some_iff.1 ht
    obtain ⟨y, -, hrest'⟩ := Option.bind_eq_some_iff.1 hrest
    obtain ⟨z, -, heq⟩ := Option.bind_eq_some_iff.1 hrest'
    cases heq
    rfl

/-- What statements mean ends with a `return` exactly if they do. -/
theorem getLast?_statementsTree? {ts : List Stmt} {ss : List Statement}
    (ht : statementsTree? h ts = some ss) :
    (ss.getLast?.map Statement.isReturn).getD false = ts.getLast?.any Stmt.isReturn := by
  induction ts generalizing ss with
  | nil =>
    cases ht
    rfl
  | cons t ts ih =>
    obtain ⟨s, hs, hrest⟩ := Option.bind_eq_some_iff.1 ht
    obtain ⟨others, hothers, heq⟩ := Option.bind_eq_some_iff.1 hrest
    cases heq
    have hlast := ih hothers
    cases ts with
    | nil =>
      cases hothers
      exact isReturn_of_tree? hs
    | cons t' ts =>
      -- the last of them is the last of those behind the first
      obtain ⟨s', -, hmore⟩ := Option.bind_eq_some_iff.1 hothers
      obtain ⟨ss', -, heq⟩ := Option.bind_eq_some_iff.1 hmore
      cases heq
      simpa [List.getLast?_cons_cons] using hlast

/-- What a subroutine returns where, in its block. -/
structure Grammar.Cls.Returns (c : Cls) (s : Sub) (block : List Instruction) : Prop where
  last : block.getLast? = some .return
  zero : s.result = none → ReturnsZero block
  /-- The result is 0, and the only value if every call can count its values. -/
  result : s.result = none → ∀ (μ : Meaning) (state : State) (d : Config), state.stack = [] →
    Reaches μ block ⟨1, state⟩ d → block[d.pc]? = some .return →
      ∃ rest, d.state.stack = 0 :: rest ∧ (IsBlock block → rest = [])
  /-- The block is the code of its statements, and behind it a `return` exactly if they do not
  end with one. -/
  epilogue : ∃ scope header body, c.scope? = some scope ∧ s.header? c.name scope = some header ∧
    statementsTree? header s.body = some body ∧
    (IsBlock block ↔ ∀ call ∈ statementsCalls s.body, call.Fits header) ∧
    block = .function (qualifiedName c.name s.name) (counted (s.count .local)) ::
      (s.prologue (counted (c.count .field)) ++ (statementsCode c.name {} body).1 ++
        if s.endsWithReturn then [] else [.push .constant 0, .return])

theorem straight_prologue (s : Sub) (fields : Nat) :
    (s.prologue fields).all Instruction.isStraight := by
  unfold Sub.prologue
  split <;> rfl

/-- The code of a subroutine returns as it is declared to. -/
theorem returns_code {s : Sub} {sub : Subroutine} (hscope : c.scope? = some scope)
    (hs : s.tree? c.name scope = some sub) : c.Returns s sub.code := by
  obtain ⟨header, hheader, body, hbody, rfl⟩ := subTree?_eq_some_iff.1 hs
  obtain ⟨hname, hvoid⟩ : header.className = c.name ∧ header.isVoid = s.result.isNone := by
    obtain ⟨scope', -, rfl⟩ := header?_eq_some_iff.1 hheader
    exact ⟨rfl, rfl⟩
  have hepilogue : Subroutine.epilogue ⟨header, body⟩ =
      if s.endsWithReturn then [] else [.push .constant 0, .return] := by
    rw [Subroutine.epilogue, getLast?_statementsTree? hbody, Sub.endsWithReturn]
  have hcode := code_eq_of_subTree? hscope hs
  rw [hepilogue, hname, ← List.append_assoc] at hcode
  have hblock := (isBlock_code_iff ⟨header, body⟩).trans (leftover_statements s.body hbody)
  have hzero : s.result = none → ReturnsZero (Subroutine.code ⟨header, body⟩) := by
    intro hresult
    have hstatements : ReturnsZero (statementsCode c.name {} body).1 :=
      returnsZero_stmts (by rw [hvoid, hresult]; rfl) s.body hbody {}
    have hheader : ReturnsZero
        [.function (qualifiedName c.name s.name) (counted (s.count .local))] :=
      .of_not_mem (by simp)
    rw [hcode]
    refine hheader.append
      (((ReturnsZero.of_straight (straight_prologue s _)).append hstatements).append ?_)
    split
    · exact .of_not_mem List.not_mem_nil
    · exact .pair
  refine ⟨Subroutine.getLast?_code _, hzero, ?_, scope, header, body, hscope, hheader, hbody,
    hblock, hcode⟩
  intro hresult μ state d hstate hrun hreturn
  obtain ⟨rest, hstack⟩ := (hzero hresult).exists_stack_eq hcode hrun hreturn
  refine ⟨rest, hstack, fun hfits => ?_⟩
  have hone := (hzero hresult).stack_eq hfits hstate hrun hreturn
  exact (List.cons.inj (hstack.symm.trans hone)).2

/-- **Every subroutine ends with a `return`, and one without a result returns 0 wherever it
does.** A class that compiles is the blocks of its subroutines, in each of which a `return` is
added behind the statements exactly if they do not end with one. -/
theorem compile_returns {source : Source} {p : Program} (hp : compile source = .ok p) :
    ∃ (c : Cls) (block : Sub → List Instruction), c.SpelledBy source ∧
      p.instructions = c.subroutines.flatMap block ∧
      ∀ s ∈ c.subroutines, c.Returns s (block s) := by
  obtain ⟨c, scope, hspelled, hscope, rfl, hblocks⟩ := exists_blocks_of_compile hp
  refine ⟨c, Sub.block c.name scope, hspelled, rfl, ?_⟩
  intro s hs
  obtain ⟨sub, hsub, hcode⟩ := hblocks s hs
  rw [hcode]
  exact returns_code hscope hsub

/-- Early returns inside a loop and a conditional, statements behind a `return`, and a body
without statements. -/
theorem compile_returns_early :
    let source : Source := ⟨"Main.jack", "Main",
      "class Main \x7b
        method void f(int a) \x7b while (a) \x7b if (a) \x7b return; \x7d return; \x7d
          return; let a = 1; \x7d
        function void g() \x7b \x7d
        function int h() \x7b return 7; \x7d \x7d"⟩
    ∃ p, compile source = .ok p ∧ p.instructions.countP (· = .return) = 6 ∧
      ∃ (c : Cls) (block : Sub → List Instruction), c.SpelledBy source ∧
        p.instructions = c.subroutines.flatMap block ∧
        ∀ s ∈ c.subroutines, c.Returns s (block s) := by
  intro source
  have hp : compile source = .ok ⟨"Main", [.function "Main.f" 0,
      .push .argument 0, .pop .pointer 0,
      .label "WHILE_EXP0", .push .argument 1, .operate .not, .ifGoto "WHILE_END0",
      .push .argument 1, .ifGoto "IF_TRUE0", .goto "IF_FALSE0", .label "IF_TRUE0",
      .push .constant 0, .return, .label "IF_FALSE0",
      .push .constant 0, .return, .goto "WHILE_EXP0", .label "WHILE_END0",
      .push .constant 0, .return, .push .constant 1, .pop .argument 1,
      .push .constant 0, .return,
      .function "Main.g" 0, .push .constant 0, .return,
      .function "Main.h" 0, .push .constant 7, .return]⟩ :=
    toOption_eq_some_iff.1 (by decide +kernel)
  exact ⟨_, hp, rfl, compile_returns hp⟩

end JackToolchain.Jack
