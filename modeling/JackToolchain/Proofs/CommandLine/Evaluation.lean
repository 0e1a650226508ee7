import JackToolchain.Proofs.CommandLine.Reading

/-!
# Performing what a command line says

The tokens of a command line are performed with all settings in front, so that work sees them. A
token only says which rule it came from by its purpose, and the first action that fails ends it all.

* `Arranges`: a parser whose tokens are put into the order in which they are performed.
* `Course`: what calls amount to if they are made one after the other, up to the first that fails.
* `Parser.turns`: the calls that a command line asks for, by the stage of the rules.
* `course_iff`: performing calls is a course of them.
* `calls_of_read`: the calls behind a command line are those that it asks for, settings first.
* `executed_in_order`: **a command line is performed in order, after its settings**.
-/

namespace JackToolchain.CommandLine

variable {α ε σ : Type}

/-! ## The order of tokens -/

/-- A parser that differs from another in the order of its tokens: settings are in front, and each
of the two stages has its tokens as they were. -/
structure Arranges (p q : Parser α) : Prop where
  rules_eq : q.rules = p.rules
  default?_eq : q.default? = p.default?
  perm : q.tokens.Perm p.tokens
  settings_first : q.tokens.Pairwise fun t u => u.stage = .setting → t.stage = .setting
  stable : ∀ stage, q.tokens.filter (·.stage = stage) = p.tokens.filter (·.stage = stage)

theorem stage_eq_of_mem_filter {tokens : List Token} {stage : Stage} {t : Token}
    (ht : t ∈ tokens.filter (·.stage = stage)) : t.stage = stage :=
  of_decide_eq_true (List.mem_filter.1 ht).2

theorem filter_filter_stage (tokens : List Token) (stage other : Stage) :
    (tokens.filter (·.stage = other)).filter (·.stage = stage) =
      if stage = other then tokens.filter (·.stage = stage) else [] := by
  rw [List.filter_filter]
  split
  · next h => simp [h]
  · next h =>
    rw [List.filter_eq_nil_iff]
    rintro t - hboth
    simp only [Bool.and_eq_true, decide_eq_true_eq] at hboth
    exact h (hboth.1.symm.trans hboth.2)

/-- Arranging is a stable sort: nothing gets lost, and only tokens of two stages change places. -/
theorem arranges_arranged (p : Parser α) : Arranges p p.arranged where
  rules_eq := rfl
  default?_eq := rfl
  perm := by
    have hnot : ∀ t ∈ p.tokens,
        decide (t.stage = .executable) = !decide (t.stage = .setting) := by
      intro t _
      cases t.stage <;> rfl
    rw [Parser.arranged, List.filter_congr hnot]
    exact List.filter_append_perm _ _
  settings_first := by
    rw [Parser.arranged, List.pairwise_append]
    refine ⟨List.pairwise_of_forall_mem_list fun t ht _ _ _ => stage_eq_of_mem_filter ht,
      List.pairwise_of_forall_mem_list fun _ _ u hu hsetting => ?_,
      fun t ht _ _ _ => stage_eq_of_mem_filter ht⟩
    rw [stage_eq_of_mem_filter hu] at hsetting
    cases hsetting
  stable stage := by
    rw [Parser.arranged, List.filter_append, filter_filter_stage, filter_filter_stage]
    cases stage <;> simp

/-! ## Courses of calls -/

/-- What calls amount to from some state: each is made in the state that the one before it has
left, and the first that fails is the last. -/
inductive Course (perform : α → Token → ExceptT ε (StateM σ) Unit) :
    List (α × Token) → σ → Except ε Unit → σ → Prop where
  | done (s : σ) : Course perform [] s (.ok ()) s
  | next {action : α} {token : Token} {calls : List (α × Token)} {s s₁ s' : σ}
    {r : Except ε Unit} (hcall : (perform action token).run.run s = (.ok (), s₁))
    (hcalls : Course perform calls s₁ r s') : Course perform ((action, token) :: calls) s r s'
  | stop {action : α} {token : Token} {s s' : σ} {e : ε}
    (hcall : (perform action token).run.run s = (.error e, s')) (calls : List (α × Token)) :
    Course perform ((action, token) :: calls) s (.error e) s'

section forM

variable {perform : α → Token → ExceptT ε (StateM σ) Unit} {action : α} {token : Token}
  {calls : List (α × Token)} {s s' : σ} {r : Except ε Unit}

theorem forM_cons_eq_bind (perform : α → Token → ExceptT ε (StateM σ) Unit) (action : α)
    (token : Token) (calls : List (α × Token)) :
    ((action, token) :: calls).forM (fun (action, token) => perform action token) =
      perform action token >>= fun _ => calls.forM fun (action, token) => perform action token :=
  rfl

/-- Performing calls is a course of them, and the only one. -/
theorem course_iff : Course perform calls s r s' ↔
    (calls.forM fun (action, token) => perform action token).run.run s = (r, s') := by
  constructor
  · intro h
    induction h with
    | done s => rfl
    | next hcall _ ih => exact (run_bind_ok hcall).trans ih
    | stop hcall calls => exact run_bind_error hcall
  · intro h
    induction calls generalizing s with
    | nil =>
      cases h
      exact .done _
    | cons call calls ih =>
      obtain ⟨action, token⟩ := call
      rw [forM_cons_eq_bind] at h
      rcases run_bind_cases h with ⟨e, hcall, rfl⟩ | ⟨⟨⟩, s₁, hcall, hcalls⟩
      · exact .stop hcall calls
      · exact .next hcall (ih hcalls)

end forM

namespace Parser

/-! ## The calls of a command line -/

/-- The calls that a command line asks for by the rules of a stage, in order. -/
def turns (p : Parser α) (stage : Stage) (arguments : List String) : List (α × Token) :=
  ((p.shares arguments).filter (·.1.stage = stage)).map fun (r, parameters) =>
    (r.action, r.tokenWith parameters)

variable {p q : Parser α} {r : Rule α} {arguments : List String}

theorem mem_rules_of_mem_named {argument : String} (hr : r ∈ p.named argument) : r ∈ p.rules := by
  unfold named at hr
  split at hr
  · exact List.mem_of_find?_eq_some (Option.mem_toList.1 hr)
  · obtain ⟨flag, -, hfind⟩ := List.mem_filterMap.1 hr
    exact List.mem_of_find?_eq_some hfind
  · cases hr

theorem mem_of_mem_share {parameters : List String} {rules : List (Rule α)}
    {s : Rule α × List String} (hs : s ∈ share parameters rules) : s.1 ∈ rules := by
  cases rules with
  | nil => cases hs
  | cons first cluster =>
    rcases List.mem_cons.1 hs with rfl | hs
    · exact List.mem_cons_self
    · obtain ⟨r, hr, rfl⟩ := List.mem_map.1 hs
      exact List.mem_cons_of_mem _ hr

/-- A command line names rules of the parser only. -/
theorem mem_rules_of_mem_shares {s : Rule α × List String} (hs : s ∈ p.shares arguments) :
    s.1 ∈ p.rules := by
  obtain ⟨g, -, hs⟩ := List.mem_flatMap.1 hs
  exact mem_rules_of_mem_named (mem_of_mem_share hs)

/-- A token has the action of the rule that gave it, if no other rule has the purpose. -/
theorem actionOf?_tokenWith (hpurposes : (p.rules.map Rule.purpose).Nodup) (hr : r ∈ p.rules)
    (parameters : List String) : p.actionOf? (r.tokenWith parameters) = some r.action := by
  have hfind : p.rules.find? (·.purpose = r.purpose) = some r :=
    (find?_key_eq_some_iff hpurposes).2 ⟨hr, rfl⟩
  have haction : p.actionOf? (r.tokenWith parameters) =
      (p.rules.find? (·.purpose = r.purpose)).map (·.action) := rfl
  rw [haction, hfind]
  rfl

theorem filter_stage_meant (p : Parser α) (stage : Stage) (arguments : List String) :
    (p.meant arguments).filter (·.stage = stage) = (p.turns stage arguments).map Prod.snd := by
  rw [meant, List.filter_map, turns, List.map_map]
  rfl

/-- The arranged tokens of a command line are those of its calls. -/
theorem map_snd_turns (hq : q.tokens = p.meant arguments) :
    (p.turns .setting arguments ++ p.turns .executable arguments).map Prod.snd =
      q.arranged.tokens := by
  rw [List.map_append, ← filter_stage_meant, ← filter_stage_meant, ← hq]
  rfl

/-- Each call of a command line is found again for its token. -/
theorem filterMap_turns (hpurposes : (p.rules.map Rule.purpose).Nodup) (stage : Stage)
    (arguments : List String) :
    ((p.turns stage arguments).map Prod.snd).filterMap (fun t => (p.actionOf? t).map (·, t)) =
      p.turns stage arguments := by
  rw [turns, List.map_map, List.filterMap_map, ← List.filterMap_eq_map]
  refine List.filterMap_congr fun s hs => ?_
  have hr : s.1 ∈ p.rules := mem_rules_of_mem_shares (List.mem_of_mem_filter hs)
  have haction := actionOf?_tokenWith hpurposes hr s.2
  simp only [Function.comp_apply, haction, Option.map_some]

theorem eq_of_read (h : p.read arguments = .ok q) : q = { p with tokens := p.meant arguments } := by
  obtain ⟨tokens, htokens, hq⟩ := bind_eq_ok_iff.1 h
  obtain ⟨-, rfl⟩ := tokensOf_eq_ok_iff.1 htokens
  exact (Except.ok.inj hq).symm

/-- **The calls behind a command line** are those that it asks for, settings first. -/
theorem calls_of_read (hpurposes : (p.rules.map Rule.purpose).Nodup)
    (hread : p.read arguments = .ok q) (hne : q.tokens ≠ []) :
    q.calls = p.turns .setting arguments ++ p.turns .executable arguments := by
  have hq := eq_of_read hread
  have haction : q.actionOf? = p.actionOf? := by
    rw [hq]
    rfl
  -- with tokens the default rule plays no part
  have hcalls : q.calls = q.arranged.tokens.filterMap fun t => (p.actionOf? t).map (·, t) := by
    rw [← haction]
    unfold calls
    split
    · next hnil => exact absurd hnil hne
    · rfl
  have htokens : q.tokens = p.meant arguments := by rw [hq]
  rw [hcalls, ← map_snd_turns htokens, List.map_append, List.filterMap_append,
    filterMap_turns hpurposes, filterMap_turns hpurposes]

/-! ## Performing -/

/-- Performs the actions of the parser at hand, whose tokens are arranged before. The actions
cannot change the parser. -/
def execute {m : Type → Type} [Monad m] (perform : α → Token → ExceptT ε m Unit) :
    ExceptT ε (StateT (Parser α) m) Unit := do
  let p ← getModify arranged
  ofExcept (← (p.evaluate perform).run)

/-- The outcome of performing the actions of a parser, with the parser and the state behind it. -/
def executed (p : Parser α) (perform : α → Token → ExceptT ε (StateM σ) Unit) (s : σ) :
    (Except ε Unit × Parser α) × σ :=
  ((execute perform).run.run p).run s

variable {perform : α → Token → ExceptT ε (StateM σ) Unit} {s : σ}

theorem executed_eq {r : Except ε Unit} {s' : σ}
    (h : (p.evaluate perform).run.run s = (r, s')) :
    p.executed perform s = ((r, p.arranged), s') := by
  have hrun : p.executed perform s =
      (fun o => ((ofExcept o.1 : ExceptT ε (StateT (Parser α) (StateM σ)) Unit).run.run
        p.arranged).run o.2) ((p.evaluate perform).run.run s) := rfl
  rw [hrun, h]
  cases r <;> rfl

/-- The calls of a parser are made in a course, which leaves the parser arranged. -/
theorem exists_executed (p : Parser α) (perform : α → Token → ExceptT ε (StateM σ) Unit) (s : σ) :
    ∃ r s', p.executed perform s = ((r, p.arranged), s') ∧ Course perform p.calls s r s' :=
  ⟨_, _, executed_eq rfl, course_iff.2 rfl⟩

theorem arranged_of_nil (h : p.tokens = []) : p.arranged = p := by
  rw [arranged, h]
  cases p
  cases h
  rfl

theorem calls_of_nil (h : p.tokens = []) : p.calls = p.defaultCall?.toList := by
  rw [calls, h]

/-- **A command line is performed in order, after its settings**, up to the first action that fails.
Each token goes to the action of the rule that gave it. Without tokens the rule that holds then is
the only one. -/
theorem executed_in_order (p : Parser α) (perform : α → Token → ExceptT ε (StateM σ) Unit) (s : σ) :
    (∀ arguments q, (p.rules.map Rule.purpose).Nodup → p.read arguments = .ok q → q.tokens ≠ [] →
      q.tokens = p.meant arguments ∧ ∃ r q' s', q.executed perform s = ((r, q'), s') ∧
        Arranges q q' ∧
        Course perform (p.turns .setting arguments ++ p.turns .executable arguments) s r s' ∧
        (p.turns .setting arguments ++ p.turns .executable arguments).map Prod.snd = q'.tokens) ∧
    (p.tokens = [] → ∃ r s', p.executed perform s = ((r, p), s') ∧
      (p.default? = none → Course perform [] s r s') ∧
      ∀ i rule, p.default? = some i → p.rules[i]? = some rule →
        Course perform [(rule.action, ⟨rule.stage, rule.purpose, none⟩)] s r s') := by
  constructor
  · intro arguments q hpurposes hread hne
    have htokens : q.tokens = p.meant arguments := by rw [eq_of_read hread]
    obtain ⟨r, s', hexecuted, hcourse⟩ := exists_executed q perform s
    rw [calls_of_read hpurposes hread hne] at hcourse
    exact ⟨htokens, r, q.arranged, s', hexecuted, arranges_arranged q, hcourse,
      map_snd_turns htokens⟩
  · intro hnil
    obtain ⟨r, s', hexecuted, hcourse⟩ := exists_executed p perform s
    rw [arranged_of_nil hnil] at hexecuted
    rw [calls_of_nil hnil] at hcourse
    refine ⟨r, s', hexecuted, fun hnone => ?_, fun i rule hi hrule => ?_⟩
    · rw [defaultCall?, hnone] at hcourse
      exact hcourse
    · rw [defaultCall?, hi] at hcourse
      simp only [Option.bind_eq_bind, Option.bind_some, hrule] at hcourse
      exact hcourse

/-- A parser with two rules for work, the first of which holds without any flag. -/
def desk : Parser String where
  rules :=
    [⟨'t', "translate", "<file>+", "Translate", .translate, 1, none, .executable, "translate"⟩,
      ⟨'c', "compile", "<file>+", "Compile", .compile, 1, none, .executable, "compile"⟩,
      ⟨'o', "output", "<dir>", "Output", .output, 1, some 1, .setting, "output"⟩,
      ⟨'d', "debug", "-", "Debug", .debug, 0, none, .setting, "debug"⟩]
  default? := some 0

/-- Notes a call. Compiling fails. -/
def note (action : String) (token : Token) :
    ExceptT String (StateM (List (String × Option (List String)))) Unit := do
  modify (· ++ [(action, token.parameters)])
  if action = "compile" then throw "no input"

/-- Compiling fails after both settings, and nothing is translated. Without tokens translating would
have been all that is asked for. -/
theorem executed_in_order_failing :
    (∃ q q', desk.read ["-c", "A.jack", "-t", "B.vm", "-o", "out", "-d"] = .ok q ∧
      q.executed note [] = ((.error "no input", q'),
        [("output", some ["out"]), ("debug", some []), ("compile", some ["A.jack"])]) ∧
      Arranges q q' ∧
      Course note
        [("output", ⟨.setting, .output, some ["out"]⟩), ("debug", ⟨.setting, .debug, some []⟩),
          ("compile", ⟨.executable, .compile, some ["A.jack"]⟩),
          ("translate", ⟨.executable, .translate, some ["B.vm"]⟩)]
        [] (.error "no input")
        [("output", some ["out"]), ("debug", some []), ("compile", some ["A.jack"])]) ∧
    Course note [("translate", ⟨.executable, .translate, none⟩)] [] (.ok ())
      [("translate", none)] := by
  constructor
  · have htokens : (desk.tokensOf ["-c", "A.jack", "-t", "B.vm", "-o", "out", "-d"]).toOption =
        some [⟨.executable, .compile, some ["A.jack"]⟩, ⟨.executable, .translate, some ["B.vm"]⟩,
          ⟨.setting, .output, some ["out"]⟩, ⟨.setting, .debug, some []⟩] := by decide +kernel
    have hturns : desk.turns .setting ["-c", "A.jack", "-t", "B.vm", "-o", "out", "-d"] ++
        desk.turns .executable ["-c", "A.jack", "-t", "B.vm", "-o", "out", "-d"] =
        [("output", ⟨.setting, .output, some ["out"]⟩), ("debug", ⟨.setting, .debug, some []⟩),
          ("compile", ⟨.executable, .compile, some ["A.jack"]⟩),
          ("translate", ⟨.executable, .translate, some ["B.vm"]⟩)] := by decide +kernel
    have hread : desk.read ["-c", "A.jack", "-t", "B.vm", "-o", "out", "-d"] =
        .ok { desk with tokens := _ } :=
      bind_eq_ok_iff.2 ⟨_, toOption_eq_some_iff.1 htokens, rfl⟩
    obtain ⟨-, r, q', s', hexecuted, harranges, hcourse, -⟩ :=
      (executed_in_order desk note []).1 _ _ (by decide) hread (by simp)
    rw [hturns] at hcourse
    cases hexecuted
    exact ⟨_, _, hread, rfl, harranges, hcourse⟩
  · obtain ⟨r, s', hexecuted, -, hdefault⟩ := (executed_in_order desk note []).2 rfl
    have hcourse := hdefault 0 _ rfl rfl
    cases hexecuted
    exact hcourse

end Parser

end JackToolchain.CommandLine
