import JackToolchain.Proofs.Jack.Courses

/-!
# Unrolling a loop

A loop is its own first turn: `while (e) { S }` and `if (e) { S while (e) { S } }` test `e` once and
then go on in the same way, or stop. They agree on 0, which stops both, and on -1, which lets both
go on. On any other word the conditional goes on, and the loop stops.

* `runs_append`: statements run one after the other.
* `runs_conditional_iff`, `runs_while_iff`: what a conditional and a loop do behind their condition.
* `CompiledAt`: statements that are read in a subroutine, and where their code stands.
* `leaves_unrolled_iff`: **a loop can be unrolled exactly where its condition is 0 or -1**.
-/

namespace JackToolchain.Jack

open Vm Grammar

section

variable {lib : Library} {className : String} {s t u u' w : State} {exit exit' : Exit} {v v' : Word}
  {x : Statement} {xs ys body : List Statement} {c : Expression} {code : List Instruction}

/-! ## Statements behind a condition -/

/-- A condition leaves one word, in one state. -/
theorem Leaving.unique (h : Leaving lib code s v u) (h' : Leaving lib code s v' u') :
    v = v' ∧ u = u' := by
  have heq := h.exec_eq.symm.trans h'.exec_eq
  obtain ⟨stack, store, that, temps⟩ := u
  obtain ⟨stack', store', that', temps'⟩ := u'
  obtain ⟨hstack, rfl, rfl, rfl⟩ := State.mk.inj (Option.some.inj heq)
  obtain ⟨rfl, rfl⟩ := List.cons.inj hstack
  exact ⟨rfl, rfl⟩

/-- A first statement runs as it does alone, and the others behind its end. -/
theorem exists_first_of_runs (h : Runs lib className (x :: xs) s exit t) :
    (∃ u, Runs lib className [x] s .ended u ∧ Runs lib className xs u exit t) ∨
      (exit = .returned ∧ Runs lib className [x] s .returned t) := by
  generalize hall : x :: xs = all at h
  -- on the run: a loop that repeats is a first statement again
  induction h generalizing xs with
  | nil => cases hall
  | plain hx hp hxs =>
    cases hall
    exact .inl ⟨_, .plain hx hp .nil, hxs⟩
  | «return» hp =>
    cases hall
    exact .inr ⟨rfl, .return hp⟩
  | branchEnds hx hc hbranch hxs =>
    cases hall
    exact .inl ⟨_, .branchEnds hx hc hbranch .nil, hxs⟩
  | branchReturns hx hc hbranch =>
    cases hall
    exact .inr ⟨rfl, .branchReturns hx hc hbranch⟩
  | loopEnds hc hv hxs =>
    cases hall
    exact .inl ⟨_, .loopEnds hc hv .nil, hxs⟩
  | loopRepeats hc hv hbody _ _ ih =>
    cases hall
    rcases ih rfl with ⟨u, hloop, hxs⟩ | ⟨rfl, hloop⟩
    · exact .inl ⟨u, .loopRepeats hc hv hbody hloop, hxs⟩
    · exact .inr ⟨rfl, .loopRepeats hc hv hbody hloop⟩
  | loopReturns hc hv hbody =>
    cases hall
    exact .inr ⟨rfl, .loopReturns hc hv hbody⟩

/-- The others run behind the end of a first statement, and not at all behind a `return`. -/
theorem runs_cons (hx : Runs lib className [x] s exit' u)
    (hended : exit' = .ended → Runs lib className xs u exit t)
    (hreturned : exit' = .returned → exit = .returned ∧ t = u) :
    Runs lib className (x :: xs) s exit t := by
  generalize hone : [x] = one at hx
  induction hx with
  | nil => cases hone
  | plain hx hp hnil =>
    cases hone
    cases hnil
    exact .plain hx hp (hended rfl)
  | «return» hp =>
    cases hone
    obtain ⟨rfl, rfl⟩ := hreturned rfl
    exact .return hp
  | branchEnds hx hc hbranch hnil =>
    cases hone
    cases hnil
    exact .branchEnds hx hc hbranch (hended rfl)
  | branchReturns hx hc hbranch =>
    cases hone
    obtain ⟨rfl, rfl⟩ := hreturned rfl
    exact .branchReturns hx hc hbranch
  | loopEnds hc hv hnil =>
    cases hone
    cases hnil
    exact .loopEnds hc hv (hended rfl)
  | loopRepeats hc hv hbody _ _ ih =>
    cases hone
    exact .loopRepeats hc hv hbody (ih hended hreturned rfl)
  | loopReturns hc hv hbody =>
    cases hone
    obtain ⟨rfl, rfl⟩ := hreturned rfl
    exact .loopReturns hc hv hbody

/-- Statements run one after the other, up to a `return`. -/
theorem runs_append : Runs lib className (xs ++ ys) s exit t ↔
    (∃ u, Runs lib className xs s .ended u ∧ Runs lib className ys u exit t) ∨
      (exit = .returned ∧ Runs lib className xs s .returned t) := by
  induction xs generalizing s with
  | nil =>
    constructor
    · intro h
      exact .inl ⟨s, .nil, h⟩
    · rintro (⟨u, hnil, h⟩ | ⟨-, hnil⟩)
      · cases hnil
        exact h
      · cases hnil
  | cons x xs ih =>
    rw [List.cons_append]
    constructor
    · intro h
      rcases exists_first_of_runs h with ⟨w, hx, h⟩ | ⟨rfl, hx⟩
      · rcases ih.1 h with ⟨u, hxs, hys⟩ | ⟨rfl, hxs⟩
        · exact .inl ⟨u, runs_cons hx (fun _ => hxs) nofun, hys⟩
        · exact .inr ⟨rfl, runs_cons hx (fun _ => hxs) nofun⟩
      · exact .inr ⟨rfl, runs_cons hx nofun fun _ => ⟨rfl, rfl⟩⟩
    · rintro (⟨u, hxs, hys⟩ | ⟨rfl, hxs⟩)
      · rcases exists_first_of_runs hxs with ⟨w, hx, hrest⟩ | ⟨hexit, -⟩
        · exact runs_cons hx (fun _ => ih.2 (.inl ⟨u, hrest, hys⟩)) nofun
        · cases hexit
      · rcases exists_first_of_runs hxs with ⟨w, hx, hrest⟩ | ⟨-, hx⟩
        · exact runs_cons hx (fun _ => ih.2 (.inr ⟨rfl, hrest⟩)) nofun
        · exact runs_cons hx nofun fun _ => ⟨rfl, rfl⟩

/-- A conditional gets a word from its condition, and runs as the branch for that word. -/
theorem exists_branch_of_runs {branch : Bool → List Statement}
    (hx : x.branches? = some (c, branch)) (h : Runs lib className [x] s exit t) :
    ∃ v u, Leaving lib (c.code className) s v u ∧
      Runs lib className (branch (v ≠ 0)) u exit t := by
  cases h with
  | plain hplain =>
    rw [Statement.branches?_of_isPlain hplain] at hx
    cases hx
  | «return» => cases hx
  | branchEnds hx' hc hbranch hnil =>
    obtain ⟨rfl, rfl⟩ := Prod.mk.inj (Option.some.inj (hx.symm.trans hx'))
    cases hnil
    exact ⟨_, _, hc, hbranch⟩
  | branchReturns hx' hc hbranch =>
    obtain ⟨rfl, rfl⟩ := Prod.mk.inj (Option.some.inj (hx.symm.trans hx'))
    exact ⟨_, _, hc, hbranch⟩
  | loopEnds | loopRepeats | loopReturns => cases hx

/-- Behind its condition a conditional runs as its branch. -/
theorem runs_conditional_iff {branch : Bool → List Statement}
    (hx : x.branches? = some (c, branch)) (hc : Leaving lib (c.code className) s v u) :
    Runs lib className [x] s exit t ↔ Runs lib className (branch (v ≠ 0)) u exit t := by
  constructor
  · intro h
    obtain ⟨v', u', hc', hbranch⟩ := exists_branch_of_runs hx h
    obtain ⟨rfl, rfl⟩ := hc.unique hc'
    exact hbranch
  · intro h
    cases exit with
    | ended => exact .branchEnds hx hc h .nil
    | returned => exact .branchReturns hx hc h

/-- A loop gets a word from its condition, and has a turn before it is run again, or has ended. -/
theorem exists_turn_of_runs (h : Runs lib className [.while c body] s exit t) :
    ∃ v u, Leaving lib (c.code className) s v u ∧
      if lib.not v = 0 then Runs lib className (body ++ [.while c body]) u exit t
      else exit = .ended ∧ t = u := by
  cases h with
  | plain hplain => cases hplain
  | branchEnds hx | branchReturns hx => cases hx
  | loopEnds hc hv hnil =>
    cases hnil
    refine ⟨_, _, hc, ?_⟩
    rw [if_neg hv]
    exact ⟨rfl, rfl⟩
  | loopRepeats hc hv hbody hloop =>
    refine ⟨_, _, hc, ?_⟩
    rw [if_pos hv]
    exact runs_append.2 (.inl ⟨_, hbody, hloop⟩)
  | loopReturns hc hv hbody =>
    refine ⟨_, _, hc, ?_⟩
    rw [if_pos hv]
    exact runs_append.2 (.inr ⟨rfl, hbody⟩)

/-- Behind its condition a loop runs as its body and itself, or it has ended. -/
theorem runs_while_iff (hc : Leaving lib (c.code className) s v u) :
    Runs lib className [.while c body] s exit t ↔
      if lib.not v = 0 then Runs lib className (body ++ [.while c body]) u exit t
      else exit = .ended ∧ t = u := by
  constructor
  · intro h
    obtain ⟨v', u', hc', hturn⟩ := exists_turn_of_runs h
    obtain ⟨rfl, rfl⟩ := hc.unique hc'
    exact hturn
  · split
    · next hv =>
      intro h
      rcases runs_append.1 h with ⟨w, hbody, hloop⟩ | ⟨rfl, hbody⟩
      · exact .loopRepeats hc hv hbody hloop
      · exact .loopReturns hc hv hbody
    · next hv =>
      rintro ⟨rfl, rfl⟩
      exact .loopEnds hc hv .nil

end

/-! ## Loops in subroutines -/

/-- Statements are read in a subroutine, and their code stands at an index of its code. -/
structure CompiledAt (sub : Subroutine) (ss : List Stmt) (pc : Nat) (code : List Instruction) :
    Prop where
  read : ∃ (ls r : List Lexeme) (t : Taken (List Statement) (ls ++ r)) (labels : Labels),
    ls.map Lexeme.token = statementsTokens ss ++ [.symbol .rightBrace] ∧
      readStatements sub.toHeader (ls ++ r) = .ok t ∧
      code = (statementsCode sub.className labels t.value).1
  holds : Holds sub.code pc code

section

variable {sub : Subroutine} {ss : List Stmt} {pc : Nat} {code : List Instruction} {lib : Library}
  {s t : State} {exit : Exit}

/-- What is read are the trees which the statements mean. -/
theorem compiledAt_iff : CompiledAt sub ss pc code ↔
    Holds sub.code pc code ∧ ∃ xs labels, statementsTree? sub.toHeader ss = some xs ∧
      code = (statementsCode sub.className labels xs).1 := by
  constructor
  · rintro ⟨⟨ls, r, t, labels, hl, ht, rfl⟩, hholds⟩
    have hread : statements? sub.toHeader (ls ++ r) = some (t.value, t.rest) := by
      rw [statements?, ht, taken?_ok]
    rw [statements?_tokens ss r hl] at hread
    obtain ⟨xs, hxs, heq⟩ := Option.map_eq_some_iff.1 hread
    rw [(Prod.mk.inj heq).1] at hxs
    exact ⟨hholds, t.value, labels, hxs, rfl⟩
  · rintro ⟨hholds, xs, labels, hxs, rfl⟩
    let ls : List Lexeme := (statementsTokens ss ++ [Token.symbol .rightBrace]).map (⟨·, 0⟩)
    have hl : ls.map Lexeme.token = statementsTokens ss ++ [.symbol .rightBrace] := by
      simp [ls, Function.comp_def]
    have hread : statements? sub.toHeader (ls ++ []) = some (xs, []) := by
      rw [statements?_tokens ss [] hl, hxs]
      rfl
    obtain ⟨hr, ht⟩ := eq_ok_of_taken? hread
    exact ⟨⟨ls, [], _, labels, hl, ht, rfl⟩, hholds⟩

/-- The code is left as the trees run. -/
theorem CompiledAt.leaves_iff (h : CompiledAt sub ss pc code) {xs : List Statement}
    (hxs : statementsTree? sub.toHeader ss = some xs) :
    Leaves lib sub.code pc (behind pc code) ⟨pc, s⟩ exit t ↔
      Runs lib sub.className xs s exit t := by
  obtain ⟨hholds, ys, labels, hys, rfl⟩ := compiledAt_iff.1 h
  obtain rfl : ys = xs := Option.some.inj (hys.symm.trans hxs)
  exact leaves_iff_runs sub.nodup_labelNames hholds

end

theorem statementsTree?_singleton {h : Header} {x : Stmt} {xs : List Statement}
    (hxs : statementsTree? h [x] = some xs) : ∃ y, x.tree? h = some y ∧ xs = [y] := by
  obtain ⟨y, ys, hy, hnil, rfl⟩ := statementsTree?_cons hxs
  cases hnil
  exact ⟨y, hy, rfl⟩

theorem statementsTree?_append {h : Header} {ss ss' : List Stmt} {xs ys : List Statement}
    (hxs : statementsTree? h ss = some xs) (hys : statementsTree? h ss' = some ys) :
    statementsTree? h (ss ++ ss') = some (xs ++ ys) := by
  induction ss generalizing xs with
  | nil =>
    cases hxs
    exact hys
  | cons s ss ih =>
    obtain ⟨x, zs, hx, hzs, rfl⟩ := statementsTree?_cons hxs
    simp [statementsTree?, hx, ih hzs]

/-- The word that a condition leaves is its value, and nothing but the memory behind its calls has
changed, if these can count their values. -/
theorem Leaving.eval {lib : Library} {h : Header} {e : Expr} {c : Expression} {s u : State}
    {v : Word} (he : e.tree? h = some c) (hc : Leaving lib (c.code h.className) s v u)
    (hfits : ∀ call ∈ e.calls, call.Fits h) :
    ∃ m, e.eval lib.toMeaning h s.store.toFrame s.store.toMemory = some (v, m) ∧
      u.store = { s.store with toMemory := m } ∧ u.stack = s.stack := by
  obtain ⟨w, m, hw, hcode⟩ :=
    replaces_expression (μ := lib.toMeaning) (f := s.store.toFrame) e s.store.toMemory he hfits
  obtain ⟨that, hx⟩ := hcode s.stack s.that s.temps
  have heq := hc.exec_eq.symm.trans hx
  obtain ⟨stack, store, that', temps⟩ := u
  obtain ⟨hstack, rfl, -, -⟩ := State.mk.inj (Option.some.inj heq)
  obtain ⟨rfl, rfl⟩ := List.cons.inj hstack
  exact ⟨m, hw, rfl, rfl⟩

/-- The bits of a word inverted are 0 exactly if they are all set. -/
theorem not_eq_zero_iff (v : Word) : ~~~v = 0 ↔ v = -1 := by
  have hset : ~~~(0 : Word) = -1 := rfl
  rw [BitVec.not_eq_comm, hset, eq_comm]

/-- **A loop can be unrolled exactly where its condition is 0 or -1.** Take a loop and its unrolling
in two subroutines with the same declarations, each anywhere in its code, whatever the calls compute
and whether they come back. Neither code is left if the value of the condition is not found, which
is the value that the source gives it if its calls can count their values. If the value is 0 or -1,
both are left in the same way and in the same state, or neither is. On any other value the loop is
over, while the unrolling goes on with the body and the loop. -/
theorem leaves_unrolled_iff {loop unrolled : Subroutine}
    (hheader : unrolled.toHeader = loop.toHeader) {e : Expr} {body : List Stmt} {pc pc' : Nat}
    {code code' : List Instruction} (hloop : CompiledAt loop [.while e body] pc code)
    (hunrolled : CompiledAt unrolled [.ifThen e (body ++ [.while e body])] pc' code')
    (call : String → List Word → Memory → Word × Memory)
    (comesBack : String → List Word → Memory → Prop) (s : State) :
    let lib : Library := ⟨.words call, comesBack⟩
    let leaves exit t := Leaves lib loop.code pc (behind pc code) ⟨pc, s⟩ exit t
    let leaves' exit t := Leaves lib unrolled.code pc' (behind pc' code') ⟨pc', s⟩ exit t
    ∃ c xs, e.tree? loop.toHeader = some c ∧ statementsTree? loop.toHeader body = some xs ∧
      (∀ exit t, leaves exit t ∨ leaves' exit t →
        ∃ v u, Leaving lib (c.code loop.className) s v u) ∧
      ∀ v u, Leaving lib (c.code loop.className) s v u →
        ((∀ call ∈ e.calls, call.Fits loop.toHeader) →
          ∃ m, e.eval (.words call) loop.toHeader s.store.toFrame s.store.toMemory = some (v, m) ∧
            u.store = { s.store with toMemory := m } ∧ u.stack = s.stack) ∧
        (v = 0 ∨ v = -1 → ∀ exit t, leaves exit t ↔ leaves' exit t) ∧
        (v ≠ 0 → v ≠ -1 → ∀ exit t, (leaves exit t ↔ exit = .ended ∧ t = u) ∧
          (leaves' exit t ↔ Runs lib loop.className (xs ++ [.while c xs]) u exit t)) := by
  intro lib leaves leaves'
  obtain ⟨-, ys, labels, hys, -⟩ := compiledAt_iff.1 hloop
  obtain ⟨y, hy, rfl⟩ := statementsTree?_singleton hys
  obtain ⟨c, hc, hwhile⟩ := Option.bind_eq_some_iff.1 hy
  obtain ⟨xs, hxs, hwhile⟩ := Option.bind_eq_some_iff.1 hwhile
  cases hwhile
  have hturn : statementsTree? unrolled.toHeader [.ifThen e (body ++ [.while e body])] =
      some [.ifThen c (xs ++ [.while c xs])] := by
    rw [hheader]
    simp [statementsTree?, Stmt.tree?, hc, statementsTree?_append hxs hys]
  have hclass : unrolled.className = loop.className := congrArg Header.className hheader
  have hl : ∀ exit t, leaves exit t ↔ Runs lib loop.className [.while c xs] s exit t :=
    fun exit t => hloop.leaves_iff hys
  have hu : ∀ exit t, leaves' exit t ↔
      Runs lib loop.className [.ifThen c (xs ++ [.while c xs])] s exit t := by
    intro exit t
    rw [← hclass]
    exact hunrolled.leaves_iff hturn
  refine ⟨c, xs, hc, hxs, fun exit t h => ?_, fun v u hv => ⟨hv.eval hc, fun h exit t => ?_,
    fun hzero hone exit t => ⟨?_, ?_⟩⟩⟩
  · rcases h with h | h
    · obtain ⟨v, u, hv, -⟩ := exists_turn_of_runs ((hl exit t).1 h)
      exact ⟨v, u, hv⟩
    · obtain ⟨v, u, hv, -⟩ := exists_branch_of_runs rfl ((hu exit t).1 h)
      exact ⟨v, u, hv⟩
  · rw [hl, hu, runs_while_iff hv, runs_conditional_iff rfl hv]
    rcases h with rfl | rfl
    · -- both stop at 0, the unrolling in its empty branch
      have hnot : lib.not 0 ≠ 0 := show ~~~(0 : Word) ≠ 0 by decide
      rw [if_neg hnot]
      constructor
      · rintro ⟨rfl, rfl⟩
        exact .nil
      · intro hnil
        cases hnil
        exact ⟨rfl, rfl⟩
    · -- both go on at -1, with the body and the loop
      have hnot : lib.not (-1) = 0 := (not_eq_zero_iff (-1)).2 rfl
      rw [if_pos hnot]
      exact Iff.rfl
  · -- on any other word the inverted bits are not all 0, so the loop is over
    have hnot : lib.not v ≠ 0 := fun h => hone ((not_eq_zero_iff v).1 h)
    rw [hl, runs_while_iff hv, if_neg hnot]
  · -- the conditional asks for a word that is not 0, and has one
    have hbranch : decide (v ≠ 0) = true := decide_eq_true hzero
    rw [hu, runs_conditional_iff rfl hv, hbranch]
    exact Iff.rfl

/-- `while (x) { let x = false; }` and its unrolling, from a true `x`. -/
theorem leaves_unrolled_iff_true :
    let h : Header := ⟨"Main", .function, false, "run",
      ⟨[], [⟨"x", "boolean", .local, 0⟩], {}, ⟨0, 1⟩⟩⟩
    let v : Variable := ⟨"x", "boolean", .local, 0⟩
    let x : Expr := .mk (.name "x") .nil
    let ss : List Stmt := [.assign "x" (.mk .false .nil)]
    let turn : Statement := .while (.variable v) [.assign v .false]
    let loop : Subroutine := ⟨h, [turn]⟩
    let unrolled : Subroutine := ⟨h, [.ifThen (.variable v) [.assign v .false, turn]]⟩
    let code := (statementsCode "Main" {} loop.body).1
    let code' := (statementsCode "Main" {} unrolled.body).1
    let lib : Library := ⟨.words fun _ _ m => (0, m), fun _ _ _ => True⟩
    let s : State := ⟨[], ⟨⟨fun _ => 0, fun _ => 0⟩, ⟨fun _ => -1, fun _ => 0, 0⟩⟩, 0, fun _ => 0⟩
    unrolled.toHeader = loop.toHeader ∧ CompiledAt loop [.while x ss] 1 code ∧
      CompiledAt unrolled [.ifThen x (ss ++ [.while x ss])] 1 code' ∧
      ∀ exit t, Leaves lib loop.code 1 (behind 1 code) ⟨1, s⟩ exit t ↔
        Leaves lib unrolled.code 1 (behind 1 code') ⟨1, s⟩ exit t := by
  intro h v x ss turn loop unrolled code code' lib s
  have hloop : CompiledAt loop [.while x ss] 1 code :=
    compiledAt_iff.2 ⟨⟨_, loop.epilogue, rfl, rfl⟩, loop.body, {}, rfl, rfl⟩
  have hunrolled : CompiledAt unrolled [.ifThen x (ss ++ [.while x ss])] 1 code' :=
    compiledAt_iff.2 ⟨⟨_, unrolled.epilogue, rfl, rfl⟩, unrolled.body, {}, rfl, rfl⟩
  have hheader : unrolled.toHeader = loop.toHeader := rfl
  obtain ⟨c, xs, hc, -, -, hvalue⟩ :=
    leaves_unrolled_iff hheader hloop hunrolled (fun _ _ m => (0, m)) (fun _ _ _ => True) s
  obtain rfl : c = .variable v := Option.some.inj (hc.symm.trans rfl)
  have htrue : Leaving lib [.push .local 0] s (-1) s := ⟨trivial, _, rfl, rfl⟩
  obtain ⟨-, hsame, -⟩ := hvalue (-1) s htrue
  exact ⟨hheader, hloop, hunrolled, hsame (.inr rfl)⟩

/-- `while (1) { let x = 0; }` leaves `x` as it was. Its unrolling sets `x` to 0. -/
theorem unrolled_differently :
    let h : Header := ⟨"Main", .function, false, "run",
      ⟨[], [⟨"x", "int", .local, 0⟩], {}, ⟨0, 1⟩⟩⟩
    let v : Variable := ⟨"x", "int", .local, 0⟩
    let one : Expr := .mk (.integer 1) .nil
    let ss : List Stmt := [.assign "x" (.mk (.integer 0) .nil)]
    let turn : Statement := .while (.integer 1) [.assign v (.integer 0)]
    let loop : Subroutine := ⟨h, [turn]⟩
    let unrolled : Subroutine := ⟨h, [.ifThen (.integer 1) [.assign v (.integer 0), turn]]⟩
    let code := (statementsCode "Main" {} loop.body).1
    let code' := (statementsCode "Main" {} unrolled.body).1
    let lib : Library := ⟨.words fun _ _ m => (0, m), fun _ _ _ => True⟩
    let s : State := ⟨[], ⟨⟨fun _ => 0, fun _ => 0⟩, ⟨fun _ => 7, fun _ => 0, 0⟩⟩, 0, fun _ => 0⟩
    unrolled.toHeader = loop.toHeader ∧ CompiledAt loop [.while one ss] 1 code ∧
      CompiledAt unrolled [.ifThen one (ss ++ [.while one ss])] 1 code' ∧
      ¬ ∀ exit t, Leaves lib loop.code 1 (behind 1 code) ⟨1, s⟩ exit t ↔
        Leaves lib unrolled.code 1 (behind 1 code') ⟨1, s⟩ exit t := by
  intro h v one ss turn loop unrolled code code' lib s
  have hloop : CompiledAt loop [.while one ss] 1 code :=
    compiledAt_iff.2 ⟨⟨_, loop.epilogue, rfl, rfl⟩, loop.body, {}, rfl, rfl⟩
  have hunrolled : CompiledAt unrolled [.ifThen one (ss ++ [.while one ss])] 1 code' :=
    compiledAt_iff.2 ⟨⟨_, unrolled.epilogue, rfl, rfl⟩, unrolled.body, {}, rfl, rfl⟩
  have hone : ∀ s, Leaving lib [.push .constant 1] s 1 s := fun s => ⟨trivial, _, rfl, rfl⟩
  have hnot : lib.not 1 ≠ 0 := show ~~~(1 : Word) ≠ 0 by decide
  have hends : ∀ s, Runs lib "Main" [turn] s .ended s := fun s => .loopEnds (hone s) hnot .nil
  let zero : State := { s with store.locals := Function.update s.store.locals 0 0 }
  have hassign : Runs lib "Main" [.assign v (.integer 0), turn] s .ended zero :=
    .plain rfl ⟨trivial, _, rfl, trivial, _, rfl, rfl⟩ (hends zero)
  refine ⟨rfl, hloop, hunrolled, fun hsame => ?_⟩
  have hleft : Leaves lib unrolled.code 1 (behind 1 code') ⟨1, s⟩ .ended s :=
    (hsame .ended s).1 ((hloop.leaves_iff rfl).2 (hends s))
  have hright : Leaves lib unrolled.code 1 (behind 1 code') ⟨1, s⟩ .ended zero :=
    (hunrolled.leaves_iff rfl).2 (.branchEnds rfl (hone s) hassign .nil)
  obtain ⟨-, heq⟩ := hleft.unique hright
  have hseven : (7 : Word) = 0 := congrFun (congrArg (fun s => s.store.locals) heq) 0
  exact absurd hseven (by decide)

end JackToolchain.Jack
