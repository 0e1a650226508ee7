import JackToolchain.Proofs.Tool.Work

/-!
# Runs with a faulty input

A run performs the actions of its command line one after another, up to the first that fails. Only
work changes files.

* `Turn`: a run that gets to some work, with what was performed before it.
* `Turn.alike_now`: the files are untouched when the first work of a run has its turn.
* `files_of_faulty_input`: **a run that fails for an input leaves all files as they were** when the
  work had its turn, but for an output directory of the translator.
* `output_left_behind`: such a directory, and the output of work before, are left behind.
-/

namespace JackToolchain.Tool

open Terminal CommandLine Files

variable {palette : Palette} {m : Machine} {settings : Settings} {parameters : List String}

/-- An action of a command line on a machine. It sees the settings and may change them. -/
abbrev Performance := ExceptT Failure (StateT Settings (StateT Machine Id)) Unit

/-- The outcome of an action, with the settings and the machine behind it. -/
def Performance.on (x : Performance) (settings : Settings) (m : Machine) :
    (Except Failure Unit × Settings) × Machine :=
  (x.run.run settings).run m

/-- Performs the action of a call. -/
def performCall (palette : Palette) (rules : List (Rule RuleAction)) (work : Work (StateT Machine Id))
    (call : RuleAction × Token) : Performance :=
  perform palette rules work call.1 call.2

/-- The turn of some work in a run of a tool: the actions before it have succeeded. -/
structure Turn (palette : Palette) (rules : List (Rule RuleAction)) (work : Work (StateT Machine Id))
    (arguments : List String) (start : Machine) where
  parser : Parser RuleAction
  before : List (RuleAction × Token)
  token : Token
  after : List (RuleAction × Token)
  settings : Settings
  parameters : List String
  now : Machine
  read : (parserOf rules).read arguments = .ok parser
  calls : parser.calls = before ++ (.work, token) :: after
  given : token.parameters = some parameters
  performed : Performance.on (before.forM (performCall palette parser.rules work)) {} start =
    ((.ok (), settings), now)

variable {rules : List (Rule RuleAction)} {work : Work (StateT Machine Id)}
  {arguments : List String} {start m' : Machine} {settings' : Settings} {x : Performance}
  {f : Unit → Performance} {call : RuleAction × Token} {calls : List (RuleAction × Token)}
  {failure : Failure} {token : Token} {r : Except Failure Unit} {action : RuleAction}

theorem on_bind_ok (h : x.on settings m = ((.ok (), settings'), m')) :
    Performance.on (x >>= f) settings m = (f ()).on settings' m' := by
  unfold Performance.on at h ⊢
  rw [ExceptT.run_bind, StateT.run_bind, StateT.run_bind, h]
  rfl

theorem on_bind_error (h : x.on settings m = ((.error failure, settings'), m')) :
    Performance.on (x >>= f) settings m = ((.error failure, settings'), m') := by
  unfold Performance.on at h ⊢
  rw [ExceptT.run_bind, StateT.run_bind, StateT.run_bind, h]
  rfl

/-- Actions succeed one after another. -/
theorem exists_on_of_bind_ok (h : Performance.on (x >>= f) settings m = ((.ok (), settings'), m')) :
    ∃ settings₁ m₁, x.on settings m = ((.ok (), settings₁), m₁) ∧
      (f ()).on settings₁ m₁ = ((.ok (), settings'), m') := by
  cases hx : x.on settings m with
  | mk outcome m₁ =>
    obtain ⟨r, settings₁⟩ := outcome
    cases r with
    | error failure =>
      rw [on_bind_error hx] at h
      cases h
    | ok _ =>
      rw [on_bind_ok hx] at h
      exact ⟨settings₁, m₁, rfl, h⟩

/-- Work that fails ends the run of actions. -/
theorem on_forM_error {perform : RuleAction × Token → Performance}
    {settings₁ settings₂ : Settings} {m₁ m₂ : Machine} (after : List (RuleAction × Token))
    (hbefore : Performance.on (calls.forM perform) settings m = ((.ok (), settings₁), m₁))
    (hcall : (perform call).on settings₁ m₁ = ((.error failure, settings₂), m₂)) :
    Performance.on ((calls ++ call :: after).forM perform) settings m =
      ((.error failure, settings₂), m₂) := by
  induction calls generalizing settings m with
  | nil =>
    cases hbefore
    exact on_bind_error hcall
  | cons first calls ih =>
    obtain ⟨settings', m', hfirst, hcalls⟩ := exists_on_of_bind_ok hbefore
    exact (on_bind_ok hfirst).trans (ih hcalls)

theorem on_work (hparameters : token.parameters = some parameters)
    (hwork : (work settings parameters).run.run m = (r, m')) :
    Performance.on (perform palette rules work .work token) settings m = ((r, settings), m') := by
  have hrun : Performance.on (perform palette rules work .work token) settings m =
      (fun p => Performance.on (ofExcept p.1) settings p.2) ((work settings parameters).run.run m) := by
    unfold Performance.on perform
    rw [hparameters]
    rfl
  rw [hrun, hwork]
  cases r <;> rfl

/-- Only work changes files. -/
theorem alike_of_perform (haction : action ≠ .work)
    (h : Performance.on (perform palette rules work action token) settings m =
      ((r, settings'), m')) : m.Alike m' := by
  have hprint (text : Except CommandLine.Fault String)
      (h : Performance.on (do Host.print .output (← ofExcept (text.mapError Failure.usage))) settings
        m = ((r, settings'), m')) : m.Alike m' := by
    cases text with
    | error fault =>
      cases h
      exact .refl m
    | ok text =>
      cases h
      exact .print _ _ m
  have hset (outcome : Except CommandLine.Fault Settings)
      (h : Performance.on (do set (← ofExcept (outcome.mapError Failure.usage))) settings m =
        ((r, settings'), m')) : m.Alike m' := by
    cases outcome with
    | error fault =>
      cases h
      exact .refl m
    | ok changed =>
      cases h
      exact .refl m
  cases action with
  | help => exact hprint _ h
  | version => exact hprint _ h
  | set => exact hset _ h
  | work => exact absurd rfl haction

theorem alike_of_forM (hcalls : ∀ call ∈ calls, call.1 ≠ .work)
    (h : Performance.on (calls.forM (performCall palette rules work)) settings m =
      ((.ok (), settings'), m')) : m.Alike m' := by
  induction calls generalizing settings m with
  | nil =>
    cases h
    exact .refl _
  | cons call calls ih =>
    obtain ⟨hcall, hcalls⟩ := List.forall_mem_cons.1 hcalls
    obtain ⟨settings₁, m₁, hfirst, hrest⟩ := exists_on_of_bind_ok h
    exact (alike_of_perform hcall hfirst).trans (ih hcalls hrest)

namespace Turn

/-- Whether no work was done before. -/
def IsFirst (turn : Turn palette rules work arguments start) : Prop :=
  ∀ call ∈ turn.before, call.1 ≠ .work

/-- The files are as at the start of the run if no work was done before. -/
theorem alike_now (turn : Turn palette rules work arguments start)
    (hfirst : turn.IsFirst) : start.Alike turn.now :=
  alike_of_forM hfirst turn.performed

theorem performAll_eq (turn : Turn palette rules work arguments start)
    (hwork : (work turn.settings turn.parameters).run.run turn.now = (.error failure, m')) :
    (performAll palette (parserOf rules) work arguments).run start = (.error failure, m') := by
  have hturn : (performCall palette turn.parser.rules work (.work, turn.token)).on turn.settings
      turn.now = ((.error failure, turn.settings), m') := on_work turn.given hwork
  have hcalls := on_forM_error turn.after turn.performed hturn
  rw [← turn.calls] at hcalls
  have hrun : (performAll palette (parserOf rules) work arguments).run start =
      (fun p : (Except Failure Unit × Settings) × Machine => (p.1.1, p.2))
        (Performance.on (turn.parser.calls.forM (performCall palette turn.parser.rules work)) {}
          start) := by
    unfold performAll
    rw [turn.read]
    rfl
  rw [hrun, hcalls]

/-- Work that fails ends the run with exit code 1. -/
theorem run_eq (turn : Turn palette rules work arguments start)
    (hwork : (work turn.settings turn.parameters).run.run turn.now = (.error failure, m')) :
    ∃ final, (run palette (parserOf rules) work arguments).run start = (1, final) ∧
      m'.Alike final := by
  obtain ⟨final, hlog, hfinal⟩ := gives_log palette .error (failure.message palette) m'
  refine ⟨final, ?_, hfinal⟩
  unfold Tool.run
  rw [StateT.run_bind, turn.performAll_eq hwork]
  refine (StateT.run_bind (log palette .error (failure.message palette)) _ m').trans ?_
  rw [hlog]
  rfl

end Turn

/-- The exit code of a run on a machine, and the machine behind it. -/
def runOn (x : StateT Machine Id UInt32) (start : Machine) : UInt32 × Machine :=
  x.run start

/-- **A run that fails for an input leaves all files as they were**, with two exceptions. What was
written by work that succeeded before in the same run stays. And where the translator reads all
inputs and then rejects an instruction, it has made its output directory if that was missing. -/
theorem files_of_faulty_input (authors : String) (palette : Palette) (arguments : List String)
    (start : Machine) :
    (∀ turn : Turn palette (Compiler.rules authors) (Compiler.work palette) arguments start,
      (∃ source ∈ inputs "jack" turn.parameters turn.now, Compiler.Faulty source) →
      ∃ final, runOn (Compiler.run authors palette arguments) start = (1, final) ∧
        turn.now.Alike final ∧ (turn.IsFirst → start.Alike final)) ∧
    ∀ turn : Turn palette (Translator.rules authors) (Translator.work palette) arguments start,
      (∃ source ∈ inputs "vm" turn.parameters turn.now, Translator.Faulty source) →
      ∃ final directory?, runOn (Translator.run authors palette arguments) start = (1, final) ∧
        directory? = Translator.leftover? turn.settings (inputs "vm" turn.parameters turn.now) ∧
        turn.now.Prepared directory? final ∧ turn.now.tree.Grown final.tree ∧
        (turn.IsFirst → start.Prepared directory? final) := by
  constructor
  · intro turn hfaulty
    obtain ⟨failure, m', hwork, hm'⟩ := Compiler.gives_work hfaulty
    obtain ⟨final, hrun, hfinal⟩ := turn.run_eq hwork
    have hnow := hm'.trans hfinal
    exact ⟨final, hrun, hnow, fun hfirst => (turn.alike_now hfirst).trans hnow⟩
  · intro turn hfaulty
    obtain ⟨r, m', hwork, hm', failure, rfl⟩ := Translator.prepares_work hfaulty
    obtain ⟨final, hrun, hfinal⟩ := turn.run_eq hwork
    have hnow := hm'.trans_alike hfinal
    exact ⟨final, _, hrun, rfl, hnow, hnow.grown,
      fun hfirst => .of_alike_trans (turn.alike_now hfirst) hnow⟩

/-- A machine with some texts in its working directory. -/
def holding (texts : List (String × String)) : Machine :=
  { tree := ⟨texts.map fun (name, text) => ([name], .file (.text text))⟩, here := [] }

theorem read_of_tokens {parser : Parser RuleAction} {tokens : List Token}
    (h : (parser.tokensOf arguments).toOption = some tokens) :
    parser.read arguments = .ok { parser with tokens } := by
  rw [Parser.read, toOption_eq_some_iff.1 h]
  rfl

/-- A class that ends too early, and an instruction without its number. The directory that the
second command line asks for is not made. -/
theorem files_of_faulty_input_first :
    (∃ final, runOn (Compiler.run "" .plain ["-c", "A.jack"])
      (holding [("A.jack", "class A \x7b")]) = (1, final) ∧
        final.tree = (holding [("A.jack", "class A \x7b")]).tree) ∧
    ∃ final, runOn (Translator.run "" .plain ["-o", "out", "-t", "A.vm"])
      (holding [("A.vm", "push local")]) = (1, final) ∧
        final.tree = (holding [("A.vm", "push local")]).tree := by
  constructor
  · have htokens : ((parserOf (Compiler.rules "")).tokensOf ["-c", "A.jack"]).toOption =
        some [⟨.executable, .compile, some ["A.jack"]⟩] := by decide +kernel
    obtain ⟨turn, hfirst, hparameters, hnow⟩ : ∃ turn : Turn .plain (Compiler.rules "")
        (Compiler.work .plain) ["-c", "A.jack"] (holding [("A.jack", "class A \x7b")]),
        turn.IsFirst ∧ turn.parameters = ["A.jack"] ∧
          turn.now = holding [("A.jack", "class A \x7b")] :=
      ⟨⟨_, [], _, [], {}, _, _, read_of_tokens htokens, rfl, rfl, rfl⟩, nofun, rfl, rfl⟩
    have hinputs : inputs "jack" ["A.jack"] (holding [("A.jack", "class A \x7b")]) =
        [⟨"A.jack", "A", "class A \x7b"⟩] := by decide +kernel
    have hfaulty : Compiler.Faulty ⟨"A.jack", "A", "class A \x7b"⟩ :=
      isOk_eq_false_iff.1 (by decide +kernel)
    obtain ⟨final, hrun, -, hfinal⟩ := (files_of_faulty_input "" .plain ["-c", "A.jack"]
      (holding [("A.jack", "class A \x7b")])).1 turn
      ⟨_, by rw [hparameters, hnow, hinputs]; exact List.mem_singleton_self _, hfaulty⟩
    exact ⟨final, hrun, (hfinal hfirst).tree⟩
  · have htokens :
        ((parserOf (Translator.rules "")).tokensOf ["-o", "out", "-t", "A.vm"]).toOption =
          some [⟨.setting, .output, some ["out"]⟩, ⟨.executable, .translate, some ["A.vm"]⟩] := by
      decide +kernel
    obtain ⟨turn, hfirst, hparameters, hnow⟩ : ∃ turn : Turn .plain (Translator.rules "")
        (Translator.work .plain) ["-o", "out", "-t", "A.vm"] (holding [("A.vm", "push local")]),
        turn.IsFirst ∧ turn.parameters = ["A.vm"] ∧ turn.now = holding [("A.vm", "push local")] :=
      ⟨⟨_, [(.set, ⟨.setting, .output, some ["out"]⟩)], _, [], { output := ⟨32, some ["out"]⟩ },
        _, _, read_of_tokens htokens, rfl, rfl, rfl⟩,
        List.forall_mem_singleton.2 nofun, rfl, rfl⟩
    have hinputs : inputs "vm" ["A.vm"] (holding [("A.vm", "push local")]) =
        [⟨"A.vm", "A", "push local"⟩] := by decide +kernel
    have hunread : (Vm.File.read ⟨"A.vm", "A", "push local"⟩).isOk = false := by decide +kernel
    obtain ⟨final, directory?, hrun, hdirectory, -, -, hfinal⟩ :=
      (files_of_faulty_input "" .plain ["-o", "out", "-t", "A.vm"]
        (holding [("A.vm", "push local")])).2 turn
        ⟨_, by rw [hparameters, hnow, hinputs]; exact List.mem_singleton_self _,
          .inl (isOk_eq_false_iff.1 hunread)⟩
    rw [hparameters, hnow, hinputs, Translator.leftover?, if_neg (by simp [hunread])] at hdirectory
    rw [hdirectory] at hfinal
    exact ⟨final, hrun, (hfinal hfirst).alike_of_none.tree⟩

/-- Output is left behind. The instruction has no lines, but by the time this shows, the directory for
the program has been made. The second class does not end, but the first one has been compiled. -/
theorem output_left_behind :
    (∃ start final, start = holding [("Main.vm", "pop constant 0\n")] ∧
      (∃ source ∈ inputs "vm" ["Main.vm"] start, Translator.Faulty source) ∧
      runOn (Translator.run "" .plain ["-n", "-o", "out", "-t", "Main.vm"]) start = (1, final) ∧
      start.tree.get? ["out"] = none ∧ final.tree.get? ["out"] = some .directory) ∧
    ∃ start final, start = holding [("A.jack", "class A \x7b\x7d\n"), ("B.jack", "class B \x7b\n")] ∧
      (∃ source ∈ inputs "jack" ["B.jack"] start, Compiler.Faulty source) ∧
      runOn (Compiler.run "" .plain ["-c", "A.jack", "-c", "B.jack"]) start = (1, final) ∧
      start.tree.get? ["A.vm"] = none ∧ final.tree.get? ["A.vm"] = some (.file (.text "")) := by
  constructor
  · have hinputs : inputs "vm" ["Main.vm"] (holding [("Main.vm", "pop constant 0\n")]) =
        [⟨"Main.vm", "Main", "pop constant 0\n"⟩] := by decide +kernel
    have hread : Vm.File.read ⟨"Main.vm", "Main", "pop constant 0\n"⟩ =
        .ok ⟨"Main.vm", "Main", [.pop .constant 0]⟩ :=
      toOption_eq_some_iff.1 (by decide +kernel)
    refine ⟨_, _, rfl, ⟨_, ?_, .inr ⟨_, hread, .pop .constant 0, ?_, ?_⟩⟩,
      Prod.ext ?_ rfl, ?_, ?_⟩
    · rw [hinputs]
      exact List.mem_singleton_self _
    all_goals decide +kernel
  · have hinputs : inputs "jack" ["B.jack"]
        (holding [("A.jack", "class A \x7b\x7d\n"), ("B.jack", "class B \x7b\n")]) =
          [⟨"B.jack", "B", "class B \x7b\n"⟩] := by decide +kernel
    have hfaulty : Compiler.Faulty ⟨"B.jack", "B", "class B \x7b\n"⟩ :=
      isOk_eq_false_iff.1 (by decide +kernel)
    refine ⟨_, _, rfl, ⟨_, ?_, hfaulty⟩, Prod.ext ?_ rfl, ?_, ?_⟩
    · rw [hinputs]
      exact List.mem_singleton_self _
    all_goals decide +kernel

end JackToolchain.Tool
