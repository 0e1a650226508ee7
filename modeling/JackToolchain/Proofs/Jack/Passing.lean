import JackToolchain.Proofs.Jack.Calls
import JackToolchain.Proofs.Jack.Evaluation
import JackToolchain.Proofs.Jack.Segments

/-!
# Arguments are passed by position

A call and the subroutine that it goes to are compiled apart, and they agree on nothing but the
order of the values on the stack: the receiver, if there is one, and then the arguments. Both
count them in 16 bits.

* `State.enter`: the machine as a called subroutine starts.
* `Sub.argumentIndex`, `Sub.TakesArguments`: where a subroutine finds its parameters.
* `Call.Reaches`, `Call.Delivers`: a call of a subroutine, and what the subroutine gets.
* `TakesArguments.counted_iff`: the parameters are the arguments in their order exactly if they
  can be counted.
* `compile_calls`: **every parameter receives the value of its argument, and a method the object
  that it is called on**, where the values can be counted.
* `compile_calls_miscounted`: a call of 65536 arguments takes none of them.
-/

namespace JackToolchain.Vm

/-- The machine as a subroutine starts that is called with the topmost `n` values. They are taken
off the stack, and the lowest of them is argument 0. -/
def State.enter (s : State) (n : Nat) : State :=
  { s with
    stack := []
    store.arguments := fun i => (s.stack.take n).reverse.getD i 0
    store.locals := fun _ => 0 }

/-- The values on top of the stack are the arguments, in the order in which they were put there. -/
theorem State.arguments_enter {s : State} {values stack : List Word}
    (hs : s.stack = values.reverse ++ stack) {i : Nat} {v : Word} (hv : values[i]? = some v) :
    (s.enter values.length).store.arguments i = v := by
  have htake : (s.stack.take values.length).reverse = values := by
    rw [hs, List.take_left' (List.length_reverse ..), List.reverse_reverse]
  simp [State.enter, htake, hv]

end JackToolchain.Vm

namespace JackToolchain.Jack

open Grammar Vm Files

variable {c : Cls} {s t : Sub} {scope : Scope} {h : Header} {call : Call} {p : Parameter}
  {i : Nat}

namespace Grammar

/-- A class that a source text spells, with its variables and what it compiles to. -/
structure Cls.CompilesTo (c : Cls) (source : Source) (scope : Scope) (p : Program) : Prop where
  spelled : c.SpelledBy source
  declared : c.scope? = some scope
  program : p = ⟨c.name, c.subroutines.flatMap (Sub.block c.name scope)⟩

/-- The argument that a parameter is, counted from 0. The object of a method comes first. -/
def Sub.argumentIndex (s : Sub) (i : Nat) : Nat :=
  i + if s.kind = .method then 1 else 0

/-- Parameters are read and written as arguments of some indices, and a method binds its object
first. -/
structure Sub.TakesArguments (s : Sub) (h : Header) (index : Nat → Nat)
    (block : List Instruction) : Prop where
  found : ∀ i p, s.parameters[i]? = some p → ∃ n : UInt16, n.toNat = index i ∧
    h.scope.find? p.name = some ⟨p.name, p.type.text, .argument, n⟩
  read : ∀ i p, s.parameters[i]? = some p →
    (Expr.mk (.name p.name) .nil).code? h = some [.push .argument (index i)]
  written : ∀ i p value code, s.parameters[i]? = some p → value.code? h = some code →
    ∃ t, (Stmt.assign p.name value).tree? h = some t ∧
      ∀ labels, (t.code h.className labels).1 = code ++ [.pop .argument (index i)]
  bound : s.kind = .method → ∃ locals body, block =
    .function h.qualifiedName locals :: .push .argument 0 :: .pop .pointer 0 :: body

/-- The object that a call is made on, if there is one. -/
def Callee.object? (h : Header) (f : Frame) (m : Memory) : Callee → Option Word
  | .bare _ | .this _ => some f.this
  | .member head _ => (h.scope.find? head).map fun v => v.value f m

/-- A call of a subroutine: it goes to its name, with an argument for each parameter and with a
receiver if it is a method. -/
structure Call.Reaches (call : Call) (h : Header) (d : Cls) (t : Sub) : Prop where
  target : call.callee.targetName h = qualifiedName d.name t.name
  arguments : call.arguments.length = t.parameters.length
  receiver : (call.callee.receiver h).length = if t.kind = .method then 1 else 0

/-- What a subroutine gets from a call that is made in some state. Its operands run, it starts
with them, and behind its prologue the object and the parameters have the values that the source
of the call gives them. -/
def Call.Delivers (call : Call) (h : Header) (μ : Meaning) (state : State) (d : Cls) (t : Sub)
    (g : Header) : Prop :=
  let f := state.store.toFrame
  let object := call.callee.object? h f state.store.toMemory
  ∃ (codes : List (List Instruction)) (values : List Word) (m : Memory) (passed entered : State),
    call.arguments.map (Expr.code? h) = codes.map some ∧
    evalAll μ h f call.arguments state.store.toMemory = some (values, m) ∧
    exec μ (call.operands h codes) state = some passed ∧
    passed.stack = (object.toList ++ values).reverse ++ state.stack ∧
    passed.store = ⟨m, f⟩ ∧
    exec μ (t.prologue (counted (d.count .field))) (passed.enter (call.number h)) =
      some entered ∧
    (t.kind = .method → object = some entered.store.this) ∧
    values.length = t.parameters.length ∧
    ∀ x ∈ t.parameters.zip values,
      (Term.name x.1.name).eval μ g entered.store.toFrame entered.store.toMemory =
        some (x.2, entered.store.toMemory)

end Grammar

/-! ## Parameters -/

/-- The arguments of a subroutine are its object, if it is a method, and its parameters. -/
theorem filter_argument_entries (className : String) (s : Sub) :
    (s.entries className).filter (·.kind = .argument) =
      objectEntries className s.kind ++ s.parameters.map Parameter.entry := by
  have hobject : (objectEntries className s.kind).filter (·.kind = .argument) =
      objectEntries className s.kind := by
    cases s.kind <;> rfl
  have hparameters : (s.parameters.map Parameter.entry).filter (·.kind = .argument) =
      s.parameters.map Parameter.entry := by
    rw [List.filter_eq_self]
    intro e he
    obtain ⟨p, -, rfl⟩ := List.mem_map.1 he
    rfl
  have hlocals : (s.declarations.flatMap VarDec.entries).filter (·.kind = .argument) = [] := by
    rw [List.filter_eq_nil_iff]
    intro e he
    obtain ⟨d, -, he⟩ := List.mem_flatMap.1 he
    obtain ⟨name, -, rfl⟩ := List.mem_map.1 he
    simp [eq_local_of_localKind? d.starts]
  rw [Sub.entries, List.filter_append, List.filter_append, hobject, hparameters, hlocals,
    List.append_nil]

/-- A parameter is the argument of its index, of which 16 bits are kept. -/
theorem find?_parameter (hscope : c.scope? = some scope) (hh : s.header? c.name scope = some h)
    (hp : s.parameters[i]? = some p) :
    h.scope.find? p.name =
      some ⟨p.name, p.type.text, .argument, UInt16.ofNat (s.argumentIndex i)⟩ := by
  have hobject : (objectEntries c.name s.kind).length = if s.kind = .method then 1 else 0 := by
    cases s.kind <;> rfl
  have hentry : ((s.entries c.name).filter (·.kind = .argument))[s.argumentIndex i]? =
      some p.entry := by
    rw [filter_argument_entries, Sub.argumentIndex, ← hobject,
      List.getElem?_append_right (Nat.le_add_left ..), Nat.add_sub_cancel, List.getElem?_map, hp]
    rfl
  exact find?_declared hscope hh rfl hentry

/-- A subroutine takes its parameters as arguments. -/
theorem takesArguments {sub : Subroutine} (hscope : c.scope? = some scope)
    (hh : s.header? c.name scope = some h) (hs : s.tree? c.name scope = some sub) :
    s.TakesArguments h (fun i => counted (s.argumentIndex i)) sub.code := by
  have hfound {i : Nat} {p : Parameter} (hp : s.parameters[i]? = some p) :
      h.scope.find? p.name =
        some ⟨p.name, p.type.text, .argument, UInt16.ofNat (s.argumentIndex i)⟩ :=
    find?_parameter hscope hh hp
  refine ⟨fun _ _ hp => ⟨_, rfl, hfound hp⟩, fun i p hp => ?_, fun i p value code hp hcode => ?_,
    fun hkind => ?_⟩
  · simp [Expr.code?, Expr.tree?, Term.tree?, Chain.tree?, hfound hp, Expression.code,
      Variable.push, Kind.segment, counted]
  · obtain ⟨x, hx, rfl⟩ := Option.map_eq_some_iff.1 hcode
    refine ⟨.assign ⟨p.name, p.type.text, .argument, UInt16.ofNat (s.argumentIndex i)⟩ x, ?_,
      fun _ => rfl⟩
    simp [Stmt.tree?, hfound hp, hx]
  · have hname : h.qualifiedName = qualifiedName c.name s.name := by
      obtain ⟨scope', -, rfl⟩ := header?_eq_some_iff.1 hh
      rfl
    have hprologue : s.prologue (counted (c.count .field)) =
        [.push .argument 0, .pop .pointer 0] := by
      rw [Sub.prologue, hkind]
    rw [code_eq_of_subTree? hscope hs, hprologue, hname]
    exact ⟨_, _, rfl⟩

/-- The parameters are the arguments in their order exactly if all of these have an index of 16
bits. -/
theorem Grammar.Sub.TakesArguments.counted_iff {block : List Instruction}
    (hs : s.TakesArguments h (fun i => counted (s.argumentIndex i)) block) :
    s.TakesArguments h s.argumentIndex block ↔ s.count .argument ≤ maxNumber + 1 := by
  have hcount : s.count .argument = s.argumentIndex s.parameters.length := rfl
  constructor
  · intro hdeclared
    cases hlast : s.parameters.getLast? with
    | none =>
      rw [hcount, List.getLast?_eq_none_iff.1 hlast, Sub.argumentIndex]
      split <;> decide
    | some p =>
      -- the last parameter has the greatest index
      have hp : s.parameters[s.parameters.length - 1]? = some p := by
        rw [← List.getLast?_eq_getElem?, hlast]
      obtain ⟨n, hn, -⟩ := hdeclared.found _ p hp
      have hle := toNat_le_maxNumber n
      rw [hcount]
      unfold Sub.argumentIndex at hn ⊢
      omega
  · intro hle
    have hindex {i : Nat} {p : Parameter} (hp : s.parameters[i]? = some p) :
        counted (s.argumentIndex i) = s.argumentIndex i := by
      obtain ⟨hlt, -⟩ := List.getElem?_eq_some_iff.1 hp
      rw [hcount] at hle
      refine counted_eq_iff.2 ?_
      unfold Sub.argumentIndex at hle ⊢
      omega
    refine ⟨fun i p hp => ?_, fun i p hp => ?_, fun i p value code hp hcode => ?_, hs.bound⟩
    · rw [← hindex hp]
      exact hs.found i p hp
    · rw [← hindex hp]
      exact hs.read i p hp
    · rw [← hindex hp]
      exact hs.written i p value code hp hcode

/-! ## Calls -/

section delivers

variable {μ : Meaning} {f : Frame} {m m₁ : Memory} {codes : List (List Instruction)}

theorem replaces_object (callee : Callee) :
    Replaces μ f [] m (callee.receiver h) (callee.object? h f m).toList m := by
  unfold Callee.receiver Callee.object?
  cases callee with
  | bare name => exact replaces_this
  | member head name =>
    cases hv : h.scope.find? head with
    | none => simpa [hv] using replaces_nil
    | some v => simpa [hv, Variable.push] using replaces_variable v
  | this name => exact replaces_this

theorem length_receiver (callee : Callee) :
    (callee.receiver h).length = (callee.object? h f m).toList.length := by
  unfold Callee.receiver Callee.object?
  cases callee with
  | bare name => rfl
  | member head name => cases hv : h.scope.find? head <;> simp [hv]
  | this name => rfl

/-- The values of a call stand on the stack in their order. -/
theorem exists_operands (hcodes : call.arguments.map (Expr.code? h) = codes.map some)
    (hfits : ∀ inner ∈ argumentsCalls call.arguments, inner.Fits h) (m : Memory) :
    ∃ values m₁, evalAll μ h f call.arguments m = some (values, m₁) ∧
      values.length = call.arguments.length ∧
      Replaces μ f [] m (call.operands h codes)
        ((call.callee.object? h f m).toList ++ values).reverse m₁ := by
  obtain ⟨xs, hxs, rfl⟩ := map_code?_eq_iff.1 hcodes
  obtain ⟨values, m₁, hvalues, hlength, hcode⟩ :=
    replaces_arguments (μ := μ) (f := f) call.arguments m hxs hfits
  refine ⟨values, m₁, hvalues, ?_, ?_⟩
  · rw [← hlength, length_argumentsTree? hxs]
  · rw [argumentsCode_eq] at hcode
    have hoperands := (replaces_object (h := h) call.callee).append_above hcode
    have hobject : (call.callee.object? h f m).toList.reverse =
        (call.callee.object? h f m).toList := by
      cases call.callee.object? h f m <;> rfl
    rw [List.reverse_append, hobject]
    exact hoperands

/-- The prologue leaves the arguments, and in a method it binds the first of them. -/
theorem exec_prologue (s : Sub) (fields : Nat) (state : State) :
    ∃ entered, exec μ (s.prologue fields) state = some entered ∧
      entered.store.arguments = state.store.arguments ∧
      (s.kind = .method → entered.store.this = state.store.arguments 0) := by
  cases hkind : s.kind with
  | constructor =>
    -- the allocator may change the memory
    let allocated := μ.call "Memory.alloc" [BitVec.ofNat 16 fields] state.store.toMemory
    have hallocated : Replaces μ state.store.toFrame [] state.store.toMemory
        ([.push .constant fields] ++ [.call "Memory.alloc" 1]) [allocated.1]
        allocated.2 :=
      (replaces_constant _).append
        (replaces_call "Memory.alloc" [BitVec.ofNat 16 fields] rfl)
    obtain ⟨that, hx⟩ := hallocated state.stack state.that state.temps
    have hprologue : s.prologue fields = ([.push .constant fields] ++
        [.call "Memory.alloc" 1]) ++ [.pop .pointer 0] := by
      rw [Sub.prologue, hkind]
      rfl
    refine ⟨⟨state.stack, ⟨allocated.2, { state.store with this := allocated.1 }⟩, that,
      state.temps⟩, ?_, rfl, fun hmethod => by cases hmethod⟩
    rw [hprologue, exec_append]
    exact congrArg (Option.bind · _) hx
  | function =>
    rw [Sub.prologue, hkind]
    exact ⟨state, rfl, rfl, fun hmethod => by cases hmethod⟩
  | method =>
    rw [Sub.prologue, hkind]
    exact ⟨_, rfl, rfl, fun _ => rfl⟩

/-- A subroutine that starts with its object and the values of its parameters has them as its
object and its arguments behind the prologue. -/
theorem exists_entered {object : Option Word} {values stack : List Word} {passed : State}
    (fields : Nat) (hobject : object.toList.length = if t.kind = .method then 1 else 0)
    (hstack : passed.stack = (object.toList ++ values).reverse ++ stack) :
    ∃ entered, exec μ (t.prologue fields) (passed.enter (object.toList ++ values).length) =
        some entered ∧
      (t.kind = .method → object = some entered.store.this) ∧
      ∀ i v, values[i]? = some v → entered.store.arguments (t.argumentIndex i) = v := by
  obtain ⟨entered, hentered, harguments, hthis⟩ :=
    exec_prologue (μ := μ) t fields (passed.enter (object.toList ++ values).length)
  refine ⟨entered, hentered, fun hkind => ?_, fun i v hv => ?_⟩
  · rw [if_pos hkind] at hobject
    obtain ⟨v, rfl⟩ : ∃ v, object = some v := by
      cases object with
      | none => cases hobject
      | some v => exact ⟨v, rfl⟩
    rw [hthis hkind, State.arguments_enter hstack rfl]
  · rw [harguments]
    refine State.arguments_enter hstack ?_
    rw [Sub.argumentIndex, ← hobject, List.getElem?_append_right (Nat.le_add_left ..),
      Nat.add_sub_cancel, hv]

/-- A subroutine that a call reaches gets its object and its arguments, if the values of the call
and of the calls in its arguments can be counted. -/
theorem delivers {d : Cls} {scope' : Scope} {g : Header} {code : List Instruction}
    (hscope : d.scope? = some scope') (hg : t.header? d.name scope' = some g)
    {n : Nat} (hcode : call.HasCode h n code) (hreaches : call.Reaches h d t)
    (hinner : ∀ inner ∈ argumentsCalls call.arguments, inner.Fits h) (hfits : call.Fits h)
    (state : State) : call.Delivers h μ state d t g := by
  unfold Call.Delivers
  intro f object
  obtain ⟨codes, hcodes, -⟩ := hcode
  obtain ⟨values, m, hvalues, hlength, hoperands⟩ :=
    exists_operands (μ := μ) (f := f) hcodes hinner state.store.toMemory
  obtain ⟨that, hx⟩ := hoperands state.stack state.that state.temps
  -- there is a receiver exactly if the subroutine takes an object
  have hobject : object.toList.length = if t.kind = .method then 1 else 0 := by
    rw [← hreaches.receiver]
    exact (length_receiver call.callee).symm
  have hnumber : call.number h = (object.toList ++ values).length := by
    rw [Call.number, counted_eq_iff.2 hfits, Call.count, hreaches.receiver, ← hobject,
      List.length_append, hlength, Nat.add_comm]
  let passed : State :=
    ⟨(object.toList ++ values).reverse ++ state.stack, ⟨m, f⟩, that, state.temps⟩
  have hstack : passed.stack = (object.toList ++ values).reverse ++ state.stack := rfl
  obtain ⟨entered, hentered, hthis, harguments⟩ :=
    exists_entered (μ := μ) (counted (d.count .field)) hobject hstack
  refine ⟨codes, values, m, passed, entered, hcodes, hvalues, hx, hstack, rfl, ?_, hthis, ?_,
    ?_⟩
  · rw [hnumber]
    exact hentered
  · rw [hlength, hreaches.arguments]
  · rintro ⟨p, v⟩ hpair
    obtain ⟨i, hi⟩ := List.mem_iff_getElem?.1 hpair
    obtain ⟨hp, hv⟩ := List.getElem?_zip_eq_some.1 hi
    -- what the call can count has an index of 16 bits in the subroutine
    have hindex : (UInt16.ofNat (t.argumentIndex i)).toNat = t.argumentIndex i := by
      obtain ⟨hlt, -⟩ := List.getElem?_eq_some_iff.1 hp
      have hle : call.count h ≤ maxNumber := hfits
      rw [Call.count, hreaches.receiver, hreaches.arguments] at hle
      refine counted_eq_iff.2 ?_
      rw [Sub.argumentIndex]
      omega
    simp [Term.eval, find?_parameter hscope hg hp, Variable.value, hindex, harguments i v hv]

end delivers

/-! ## Classes -/

theorem emitted_block {sub : Subroutine} (hscope : c.scope? = some scope)
    (hs : s.tree? c.name scope = some sub) :
    Emitted sub.toHeader (Call.number sub.toHeader) (statementsCalls s.body) sub.code := by
  rw [code_eq_of_subTree? hscope hs]
  obtain ⟨h, -, body, hbody, rfl⟩ := subTree?_eq_some_iff.1 hs
  have hstatements : Emitted h (Call.number h) (statementsCalls s.body)
      (statementsCode h.className {} body).1 :=
    emitted_statements s.body hbody {}
  rw [← List.cons_append]
  exact hstatements.left.right

/-- **Arguments are passed by position.** In a class that compiles every call is emitted as its
receiver, its arguments in their order and one instruction that takes as many values as are
counted, and every subroutine reads and writes its parameters as arguments of the indices that are
counted. The instructions take all values exactly if every call has at most 65535, and the
parameters are the arguments in their order exactly if these have indices up to 65535. So a
subroutine that a call reaches, in whatever class, gets the object and the values that the source
of the call gives it, if the call and those in its arguments can count their values. -/
theorem compile_calls {source other : Source} {p q : Program} (hp : compile source = .ok p)
    (hq : compile other = .ok q) : ∃ (c d : Cls) (scope scope' : Scope),
      c.CompilesTo source scope p ∧ d.CompilesTo other scope' q ∧
      ∀ s ∈ c.subroutines, ∃ h, s.header? c.name scope = some h ∧
        Emitted h (Call.number h) (statementsCalls s.body) (s.block c.name scope) ∧
        (Emitted h (Call.count h) (statementsCalls s.body) (s.block c.name scope) ↔
          ∀ call ∈ statementsCalls s.body, call.Fits h) ∧
        s.TakesArguments h (fun i => counted (s.argumentIndex i)) (s.block c.name scope) ∧
        (s.TakesArguments h s.argumentIndex (s.block c.name scope) ↔
          s.count .argument ≤ maxNumber + 1) ∧
        ∀ call ∈ statementsCalls s.body, ∀ t ∈ d.subroutines, call.Reaches h d t →
          ∃ g, t.header? d.name scope' = some g ∧
            .function (qualifiedName d.name t.name) (counted (t.count .local)) ::
              t.prologue (counted (d.count .field)) <+: t.block d.name scope' ∧
            ((∀ inner ∈ argumentsCalls call.arguments, inner.Fits h) → call.Fits h →
              ∀ μ state, call.Delivers h μ state d t g) := by
  obtain ⟨c, scope, hsource, hscope, hprogram, hblocks⟩ := exists_blocks_of_compile hp
  obtain ⟨d, scope', hother, hscope', hprogram', hblocks'⟩ := exists_blocks_of_compile hq
  refine ⟨c, d, scope, scope', ⟨hsource, hscope, hprogram⟩, ⟨hother, hscope', hprogram'⟩,
    fun s hs => ?_⟩
  obtain ⟨sub, hsub, hblock⟩ := hblocks s hs
  have hsubroutine := emitted_of_mem_subroutines (words_of_lex hsource) hscope hs hsub
  have hcalls := emitted_block hscope hsub
  obtain ⟨h, hh, body, -, rfl⟩ := subTree?_eq_some_iff.1 hsub
  have htakes := takesArguments hscope hh hsub
  rw [hblock]
  refine ⟨h, hh, hcalls, hcalls.count_iff fun i hi => hsubroutine.isEncodable hi, htakes,
    htakes.counted_iff, fun call hcall t ht hreaches => ?_⟩
  obtain ⟨part, hpart, -⟩ := hcalls.exists_part hcall
  obtain ⟨callee, hcallee, hentry⟩ := hblocks' t ht
  obtain ⟨g, hg, -⟩ := subTree?_eq_some_iff.1 hcallee
  refine ⟨g, hg, ?_, fun hinner hfits μ state =>
    delivers hscope' hg hpart hreaches hinner hfits state⟩
  rw [hentry, code_eq_of_subTree? hscope' hcallee, ← List.cons_append]
  exact List.prefix_append ..

/-- A method that is called on a parameter, with another call of it among the arguments. -/
theorem compile_calls_nested :
    let source : Source := ⟨"P.jack", "P",
      "class P \x7b method int f(int x, int y) \x7b let y = x; return y; \x7d
        function int g(P p) \x7b return p.f(1, p.f(2, 3)); \x7d \x7d"⟩
    let inner : Call := ⟨.member "p" "f", [.mk (.integer 2) .nil, .mk (.integer 3) .nil]⟩
    let outer : Call := ⟨.member "p" "f",
      [.mk (.integer 1) .nil, .mk (.call inner.callee inner.arguments) .nil]⟩
    let f : Sub := ⟨.method, some .int, "f", [⟨.int, "x"⟩, ⟨.int, "y"⟩], [],
      [.assign "y" (.mk (.name "x") .nil), .return (some (.mk (.name "y") .nil))]⟩
    let g : Sub := ⟨.function, some .int, "g", [⟨.named "P", "p"⟩], [],
      [.return (some (.mk (.call outer.callee outer.arguments) .nil))]⟩
    let main : Cls := ⟨"P", [], [f, g]⟩
    (main.SpelledBy source ∧ statementsCalls g.body = [inner, outer] ∧
      ∃ h, g.header? "P" {} = some h ∧ inner.Reaches h main f ∧ outer.Reaches h main f) ∧
    ∃ p, compile source = .ok p ∧ ∃ (c d : Cls) (scope scope' : Scope),
      c.CompilesTo source scope p ∧ d.CompilesTo source scope' p ∧
      ∀ s ∈ c.subroutines, ∃ h, s.header? c.name scope = some h ∧
        Emitted h (Call.number h) (statementsCalls s.body) (s.block c.name scope) ∧
        (Emitted h (Call.count h) (statementsCalls s.body) (s.block c.name scope) ↔
          ∀ call ∈ statementsCalls s.body, call.Fits h) ∧
        s.TakesArguments h (fun i => counted (s.argumentIndex i)) (s.block c.name scope) ∧
        (s.TakesArguments h s.argumentIndex (s.block c.name scope) ↔
          s.count .argument ≤ maxNumber + 1) ∧
        ∀ call ∈ statementsCalls s.body, ∀ t ∈ d.subroutines, call.Reaches h d t →
          ∃ g, t.header? d.name scope' = some g ∧
            .function (qualifiedName d.name t.name) (counted (t.count .local)) ::
              t.prologue (counted (d.count .field)) <+: t.block d.name scope' ∧
            ((∀ inner ∈ argumentsCalls call.arguments, inner.Fits h) → call.Fits h →
              ∀ μ state, call.Delivers h μ state d t g) := by
  intro source inner outer f g main
  have hsource : main.SpelledBy source := by
    dsimp only [Cls.SpelledBy, source, main, f, g, outer, inner]
    decide +kernel
  have hp : compile source = .ok ⟨"P", [.function "P.f" 0, .push .argument 0, .pop .pointer 0,
      .push .argument 1, .pop .argument 2, .push .argument 2, .return,
      .function "P.g" 0, .push .argument 0, .push .constant 1, .push .argument 0,
      .push .constant 2, .push .constant 3, .call "P.f" 3, .call "P.f" 3, .return]⟩ :=
    toOption_eq_some_iff.1 (by decide +kernel)
  exact ⟨⟨hsource, rfl, _, rfl, ⟨rfl, rfl, rfl⟩, rfl, rfl, rfl⟩, _, hp, compile_calls hp hp⟩

/-- The call of a wide class takes all of its values exactly if it can count them. -/
theorem emitted_wideSub_iff {n m : Nat} (hh : (wideSub n m).header? "Main" {} = some h) :
    Emitted h (Call.count h) (statementsCalls (wideSub n m).body)
      ((wideSub n m).block "Main" {}) ↔ m ≤ maxNumber := by
  obtain ⟨h', hh', hmain, hsub⟩ := exists_tree?_wideSub n m
  obtain rfl := Option.some.inj (hh'.symm.trans hh)
  have hscope : (wide n m).scope? = some {} := rfl
  have hwords := words_of_lex (spelledBy_source_wide n m)
  have hmem : wideSub n m ∈ (wide n m).subroutines := List.mem_singleton_self _
  have hencodable := emitted_of_mem_subroutines hwords hscope hmem hsub
  have hcalls := emitted_block hscope hsub
  rw [block_eq hsub, hcalls.count_iff fun i hi => hencodable.isEncodable hi,
    statementsCalls_wideSub, List.forall_mem_singleton, fits_wideCall_iff hmain]

/-- **A call of 65536 arguments takes none of them.** -/
theorem compile_calls_miscounted :
    let c := wide 0 65536
    let s := wideSub 0 65536
    ∃ h p, compile c.source = .ok p ∧ c.CompilesTo c.source {} p ∧ c.subroutines = [s] ∧
      s.header? c.name {} = some h ∧ statementsCalls s.body = [wideCall 65536] ∧
      (wideCall 65536).count h = 65536 ∧ .call "Main.g" 0 ∈ s.block c.name {} ∧
      ¬ Emitted h (Call.count h) (statementsCalls s.body) (s.block c.name {}) := by
  intro c s
  obtain ⟨h, hh, hmain, -⟩ := exists_tree?_wideSub 0 65536
  have hprogram : c.CompilesTo c.source {} ⟨"Main", s.block "Main" {}⟩ :=
    ⟨spelledBy_source_wide 0 65536, rfl, by simp [c, s, wide]⟩
  have hzero : counted 65536 = 0 := by decide
  refine ⟨h, _, compile_wide 0 65536, hprogram, rfl, hh, statementsCalls_wideSub ..,
    count_wideCall hmain _, ?_, ?_⟩
  · have hmem : .call "Main.g" 0 ∈ s.block "Main" {} := by
      rw [block_wideSub, hzero]
      exact List.mem_cons_of_mem _ (List.mem_append_right _ List.mem_cons_self)
    exact hmem
  · have hiff := emitted_wideSub_iff hh
    exact fun hemitted => absurd (hiff.1 hemitted) (by decide)

end JackToolchain.Jack
