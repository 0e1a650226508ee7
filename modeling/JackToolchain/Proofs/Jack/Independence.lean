import JackToolchain.Jack.Program
import JackToolchain.Proofs.Jack.Derivation.Class
import JackToolchain.Proofs.Outcome

/-!
# Subroutines are compiled one by one

What a subroutine means depends on the class around it through its name and its variables
only, and its code depends on nothing else.

* `Sub.block`: what a subroutine compiles to in a class.
* `compile_eq_ok_iff`: a class compiles if its variables are declared once and each of its
  subroutines compiles, to the blocks of these.
* `compile_subroutines`: **a class compiles exactly if each of its subroutines does alone, to
  the blocks that they compile to alone, in any order**.
-/

namespace JackToolchain.Jack

open Grammar Vm Files

namespace Grammar

variable {className : String} {scope : Scope}

/-- A source text whose tokens spell a class. -/
def Cls.SpelledBy (c : Cls) (source : Source) : Prop :=
  (lex source.content).map Lexeme.token = c.tokens

/-- A class with other subroutines. -/
def Cls.withSubroutines (c : Cls) (ss : List Sub) : Cls :=
  { c with subroutines := ss }

/-- The code of a subroutine in a class, if it means something there. -/
def Sub.block (className : String) (scope : Scope) (s : Sub) : List Instruction :=
  ((s.tree? className scope).map Subroutine.code).getD []

theorem block_eq {s : Sub} {sub : Subroutine} (hs : s.tree? className scope = some sub) :
    s.block className scope = sub.code := by
  rw [Sub.block, hs]
  rfl

/-- The code of subroutines is that of each of them, in their order. -/
theorem code_subroutinesTree? {ss : List Sub} {subs : List Subroutine}
    (h : subroutinesTree? className scope ss = some subs) :
    subs.flatMap Subroutine.code = ss.flatMap (Sub.block className scope) := by
  induction ss generalizing subs with
  | nil =>
    cases h
    rfl
  | cons s ss ih =>
    obtain ⟨first, hfirst, hrest⟩ := Option.bind_eq_some_iff.1 h
    obtain ⟨others, hothers, heq⟩ := Option.bind_eq_some_iff.1 hrest
    cases heq
    rw [List.flatMap_cons, List.flatMap_cons, ih hothers, block_eq hfirst]

end Grammar

variable {c : Cls} {source : Source} {p : Program} {scope : Scope} {ss : List Sub}

theorem classTree?_eq_some_iff {d : ClassDecl} : c.tree? = some d ↔
    ∃ scope, c.scope? = some scope ∧
      ∃ subs, subroutinesTree? c.name scope c.subroutines = some subs ∧
        ⟨c.name, scope, subs⟩ = d := by
  simp [Cls.tree?, Option.bind_eq_some_iff]

/-- A class compiles if no variable of it is declared twice and each of its subroutines means
something in it. -/
theorem compile_eq_ok_iff (hsource : c.SpelledBy source) : compile source = .ok p ↔
    ∃ scope, c.scope? = some scope ∧ (∀ s ∈ c.subroutines, (s.tree? c.name scope).isSome) ∧
      p = ⟨c.name, c.subroutines.flatMap (Sub.block c.name scope)⟩ := by
  have hread {d : ClassDecl} : (readClass (lex source.content)).outcome = .ok d ↔
      c.tree? = some d := by
    rw [← toOption_eq_some_iff, ← class?, class?_tokens c hsource]
  rw [compile, ofTokens_eq_ok_iff]
  constructor
  · rintro ⟨d, hd, rfl⟩
    obtain ⟨scope, hscope, subs, hsubs, rfl⟩ := classTree?_eq_some_iff.1 (hread.1 hd)
    rw [ClassDecl.code, code_subroutinesTree? hsubs]
    exact ⟨scope, hscope, isSome_subroutinesTree?.1 (by rw [hsubs]; rfl), rfl⟩
  · rintro ⟨scope, hscope, hss, rfl⟩
    obtain ⟨subs, hsubs⟩ := Option.isSome_iff_exists.1 (isSome_subroutinesTree?.2 hss)
    have hclass := hread.2 (classTree?_eq_some_iff.2 ⟨scope, hscope, subs, hsubs, rfl⟩)
    refine ⟨_, hclass, ?_⟩
    rw [ClassDecl.code, code_subroutinesTree? hsubs]

/-- A class that compiles is the code of what its subroutines mean in it. -/
theorem exists_blocks_of_compile (hp : compile source = .ok p) :
    ∃ (c : Cls) (scope : Scope), c.SpelledBy source ∧ c.scope? = some scope ∧
      p = ⟨c.name, c.subroutines.flatMap (Sub.block c.name scope)⟩ ∧
      ∀ s ∈ c.subroutines, ∃ sub, s.tree? c.name scope = some sub ∧
        s.block c.name scope = sub.code := by
  obtain ⟨d, hd, -⟩ := ofTokens_eq_ok_iff.1 hp
  obtain ⟨c, hl, -⟩ := class?_eq_some_iff.1 (toOption_eq_some_iff.2 hd)
  have hsource : c.SpelledBy source := hl
  obtain ⟨scope, hscope, hss, rfl⟩ := (compile_eq_ok_iff hsource).1 hp
  refine ⟨c, scope, hsource, hscope, rfl, fun s hs => ?_⟩
  obtain ⟨sub, hsub⟩ := Option.isSome_iff_exists.1 (hss s hs)
  exact ⟨sub, hsub, block_eq hsub⟩

/-- The variables of a class are those of the class with other subroutines. -/
theorem exists_scope?_of_compile (hsource : (c.withSubroutines ss).SpelledBy source)
    (hp : compile source = .ok p) : ∃ scope, c.scope? = some scope := by
  obtain ⟨scope, hscope, -⟩ := (compile_eq_ok_iff hsource).1 hp
  exact ⟨scope, hscope⟩

/-- Where the variables of a class are known, it compiles if each of its subroutines means
something. -/
theorem compile_eq_ok_iff_of_scope? (hscope : c.scope? = some scope)
    (hsource : (c.withSubroutines ss).SpelledBy source) : compile source = .ok p ↔
      (∀ s ∈ ss, (s.tree? c.name scope).isSome) ∧
        p = ⟨c.name, ss.flatMap (Sub.block c.name scope)⟩ := by
  rw [compile_eq_ok_iff hsource]
  constructor
  · rintro ⟨scope', hscope', h⟩
    obtain rfl := Option.some.inj (hscope.symm.trans hscope')
    exact h
  · intro h
    exact ⟨scope, hscope, h⟩

/-- A class with one subroutine compiles to the block of that subroutine. -/
theorem compile_alone_eq_ok_iff {s : Sub} (hscope : c.scope? = some scope)
    (hsource : (c.withSubroutines [s]).SpelledBy source) : compile source = .ok p ↔
      (s.tree? c.name scope).isSome ∧ p = ⟨c.name, s.block c.name scope⟩ := by
  rw [compile_eq_ok_iff_of_scope? hscope hsource, List.forall_mem_singleton,
    List.flatMap_singleton]

/-- **Subroutines are compiled one by one.** A class compiles exactly if each of its
subroutines does in a class of its own with the same name and variables, and then to the
blocks that these compile to, in whatever order its subroutines are. -/
theorem compile_subroutines {alone : Sub → Source} (hne : c.subroutines ≠ [])
    (hsource : c.SpelledBy source)
    (halone : ∀ s ∈ c.subroutines, (c.withSubroutines [s]).SpelledBy (alone s)) :
    ((∃ p, compile source = .ok p) ↔ ∀ s ∈ c.subroutines, ∃ p, compile (alone s) = .ok p) ∧
      ∀ p, compile source = .ok p → ∃ block : Sub → List Instruction,
        (∀ s ∈ c.subroutines, compile (alone s) = .ok ⟨c.name, block s⟩) ∧
          p = ⟨c.name, c.subroutines.flatMap block⟩ ∧
          ∀ order other, order.Perm c.subroutines →
            (c.withSubroutines order).SpelledBy other →
              compile other = .ok ⟨c.name, order.flatMap block⟩ := by
  refine ⟨⟨?_, ?_⟩, ?_⟩
  · rintro ⟨p, hp⟩ s hs
    obtain ⟨scope, hscope, hcompiles, -⟩ := (compile_eq_ok_iff hsource).1 hp
    exact ⟨_, (compile_alone_eq_ok_iff hscope (halone s hs)).2 ⟨hcompiles s hs, rfl⟩⟩
  · intro h
    -- any subroutine tells that the variables of the class are declared once
    obtain ⟨first, hfirst⟩ := List.exists_mem_of_ne_nil _ hne
    obtain ⟨q, hq⟩ := h first hfirst
    obtain ⟨scope, hscope⟩ := exists_scope?_of_compile (halone first hfirst) hq
    refine ⟨_, (compile_eq_ok_iff hsource).2 ⟨scope, hscope, ?_, rfl⟩⟩
    intro s hs
    obtain ⟨p, hp⟩ := h s hs
    exact ((compile_alone_eq_ok_iff hscope (halone s hs)).1 hp).1
  · intro p hp
    obtain ⟨scope, hscope, hcompiles, rfl⟩ := (compile_eq_ok_iff hsource).1 hp
    refine ⟨Sub.block c.name scope, ?_, rfl, ?_⟩
    · intro s hs
      exact (compile_alone_eq_ok_iff hscope (halone s hs)).2 ⟨hcompiles s hs, rfl⟩
    · intro order other hperm hother
      refine (compile_eq_ok_iff_of_scope? hscope hother).2 ⟨?_, rfl⟩
      exact fun s hs => hcompiles s (hperm.mem_iff.1 hs)

/-- A method and a function with a loop each, around a field and a variable of one name. -/
theorem compile_subroutines_swapped :
    let f : Sub := ⟨.method, none, "f", [], [], [.while (.mk (.name "x") .nil) []]⟩
    let g : Sub := ⟨.function, none, "g", [], [⟨.var, .local, rfl, .int, "x", []⟩],
      [.while (.mk (.name "x") .nil) []]⟩
    let c : Cls := ⟨"A", [⟨.field, .field, rfl, .int, "x", []⟩], [f, g]⟩
    let text (subroutines : String) : Source :=
      ⟨"A.jack", "A", "class A\x7bfield int x;" ++ subroutines ++ "\x7d"⟩
    let fText := "method void f(){while(x){}}"
    let gText := "function void g(){var int x;while(x){}}"
    let fBlock : List Instruction := [.function "A.f" 0, .push .argument 0, .pop .pointer 0,
      .label "WHILE_EXP0", .push .this 0, .operate .not, .ifGoto "WHILE_END0",
      .goto "WHILE_EXP0", .label "WHILE_END0", .push .constant 0, .return]
    let gBlock : List Instruction := [.function "A.g" 1,
      .label "WHILE_EXP0", .push .local 0, .operate .not, .ifGoto "WHILE_END0",
      .goto "WHILE_EXP0", .label "WHILE_END0", .push .constant 0, .return]
    c.SpelledBy (text (fText ++ gText)) ∧
      (c.withSubroutines [g, f]).SpelledBy (text (gText ++ fText)) ∧
      compile (text fText) = .ok ⟨"A", fBlock⟩ ∧ compile (text gText) = .ok ⟨"A", gBlock⟩ ∧
      compile (text (fText ++ gText)) = .ok ⟨"A", fBlock ++ gBlock⟩ ∧
      compile (text (gText ++ fText)) = .ok ⟨"A", gBlock ++ fBlock⟩ := by
  intro f g c text fText gText fBlock gBlock
  have hboth : c.SpelledBy (text (fText ++ gText)) := by
    dsimp only [Cls.SpelledBy, c, f, g, text, fText, gText]
    decide +kernel
  have hswapped : (c.withSubroutines [g, f]).SpelledBy (text (gText ++ fText)) := by
    dsimp only [Cls.SpelledBy, c, f, g, text, fText, gText]
    decide +kernel
  have hf : (c.withSubroutines [f]).SpelledBy (text fText) := by
    dsimp only [Cls.SpelledBy, c, f, g, text, fText]
    decide +kernel
  have hg : (c.withSubroutines [g]).SpelledBy (text gText) := by
    dsimp only [Cls.SpelledBy, c, f, g, text, gText]
    decide +kernel
  have hfCode : compile (text fText) = .ok ⟨"A", fBlock⟩ := by
    apply toOption_eq_some_iff.1
    dsimp only [text, fText, fBlock]
    decide +kernel
  have hgCode : compile (text gText) = .ok ⟨"A", gBlock⟩ := by
    apply toOption_eq_some_iff.1
    dsimp only [text, gText, gBlock]
    decide +kernel
  have hall {P : Sub → Prop} (hPf : P f) (hPg : P g) : ∀ s ∈ c.subroutines, P s :=
    List.forall_mem_cons.2 ⟨hPf, List.forall_mem_singleton.2 hPg⟩
  let alone (s : Sub) : Source := text (if s.name = "f" then fText else gText)
  have hspelled : ∀ s ∈ c.subroutines, (c.withSubroutines [s]).SpelledBy (alone s) := hall hf hg
  obtain ⟨hiff, hblocks⟩ := compile_subroutines (List.cons_ne_nil _ _) hboth hspelled
  obtain ⟨p, hp⟩ := hiff.2 (hall ⟨_, hfCode⟩ ⟨_, hgCode⟩)
  obtain ⟨block, halone, rfl, hperm⟩ := hblocks p hp
  have hfBlock : block f = fBlock :=
    congrArg Program.instructions (Except.ok.inj ((halone f (by simp [c])).symm.trans hfCode))
  have hgBlock : block g = gBlock :=
    congrArg Program.instructions (Except.ok.inj ((halone g (by simp [c])).symm.trans hgCode))
  have hother := hperm [g, f] _ (List.Perm.swap ..) hswapped
  rw [← hfBlock, ← hgBlock]
  refine ⟨hboth, hswapped, halone f (by simp [c]), halone g (by simp [c]), ?_, ?_⟩
  · simpa [c] using hp
  · simpa using hother

end JackToolchain.Jack
