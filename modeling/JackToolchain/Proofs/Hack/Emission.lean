import JackToolchain.Proofs.Hack.Freshness
import JackToolchain.Proofs.Hack.Rejection
import JackToolchain.Proofs.Outcome

/-!
# What is rejected leaves no trace

Lowering an instruction is work on a program: lines are added a few at a time, numbers are taken,
and an index is checked where it is used. Work that breaks off leaves what was done before, so a
check behind the first lines would leave half an instruction. There is none.

* `Emission`: work on a program that breaks off with a cause and leaves what was done.
* `insert`: the work of an instruction, in the order in which it is done.
* `Lowers`: work that adds lines and takes numbers, or breaks off before anything else.
* `lowers_insert`: the work of an instruction is such work.
* `addAll_eq_fault`: a file breaks off at its first instruction that has no lines.
* `rejected_without_trace`: **a rejected instruction leaves the program as it was, and the fault
  says where it stands**.
-/

namespace JackToolchain.Hack

open Vm

/-- Work on a program. When a cause breaks it off, what was done before stays. -/
abbrev Emission := ExceptT Cause (StateM Builder)

namespace Emission

/-- The outcome of some work on a program, and the program that it leaves. -/
def on {α : Type} (x : Emission α) (b : Builder) : Except Cause α × Builder :=
  x.run.run b

/-- Adds lines. -/
def emit (lines : List Line) : Emission Unit :=
  modify (·.emit lines)

/-- Where the next instruction stands. -/
def here : Emission Context :=
  return (← get).context

/-- Goes on at another place. -/
def moveTo (c : Context) : Emission Unit :=
  modify fun b => { b with context := c }

/-! ## Memory access -/

/-- The register that an index of the segment `pointer` stands for. -/
def pointerRegister (index : Nat) : Emission String :=
  match index with
  | 0 => return "THIS"
  | 1 => return "THAT"
  | n => throw (.pointerIndex n)

/-- The address of a cell of the segment `temp`. -/
def tempAddress (index : Nat) : Emission Nat := do
  if index < tempSize then return tempBase + index
  throw (.tempIndex index)

/-- Moves the value at an index from a base register to `D`. -/
def loadBased (register : String) (index : Nat) : Emission Unit := do
  emit (loadCell (.symbol register))
  emit [.address (.literal index), .assign .a .dPlusA, .assign .d .m]

/-- Moves the top of the stack to an index from a base register. -/
def storeBased (register : String) (index : Nat) : Emission Unit := do
  emit (loadCell (.symbol register))
  emit [.address (.literal index), .assign .d .dPlusA]
  emit (storeCell (.symbol "R13"))
  emit popD
  emit [addressOf "R13", .assign .a .m, .assign .m .d]

/-- Moves the value at a segment's index to `D`. -/
def load (segment : Segment) (index : Nat) : Emission Unit :=
  match segment with
  | .constant => do
    if maxLiteral < index then throw (.constantOutOfRange index)
    emit (loadConstant index)
  | .local => loadBased "LCL" index
  | .argument => loadBased "ARG" index
  | .this => loadBased "THIS" index
  | .that => loadBased "THAT" index
  | .pointer => do emit (loadCell (.symbol (← pointerRegister index)))
  | .temp => do emit (loadCell (.literal (← tempAddress index)))
  | .static => do emit (loadCell ((← here).staticCell index))

/-- Moves the top of the stack to a cell. -/
def store (cell : Operand) : Emission Unit := do
  emit popD
  emit (storeCell cell)

/-- Takes a value off the stack to a segment's index. -/
def pop (segment : Segment) (index : Nat) : Emission Unit :=
  match segment with
  | .constant => throw .popConstant
  | .local => storeBased "LCL" index
  | .argument => storeBased "ARG" index
  | .this => storeBased "THIS" index
  | .that => storeBased "THAT" index
  | .pointer => do store (.symbol (← pointerRegister index))
  | .temp => do store (.literal (← tempAddress index))
  | .static => do store ((← here).staticCell index)

/-! ## Operators and calls -/

/-- A comparison takes the next number for its labels. -/
def compare (condition : Condition) : Emission Unit := do
  let c ← here
  moveTo { c with comparisons := c.comparisons + 1 }
  emit (compareTop c.stem c.comparisons condition)

/-- Starts a function, which the labels behind it belong to. -/
def startFunction (name : String) (locals : Nat) : Emission Unit := do
  moveTo { ← here with function? := some name }
  emit (lowerFunction name locals)

/-- A call takes the next number for the label behind it. -/
def call (name : String) (arguments : Nat) : Emission Unit := do
  let c ← here
  moveTo { c with calls := c.calls + 1 }
  emit (lowerCall c name arguments)

/-- The work of an operator. -/
def operate : Operator → Emission Unit
  | .add => emit (combineTop .dPlusM)
  | .sub => emit (combineTop .mMinusD)
  | .and => emit (combineTop .dAndM)
  | .or => emit (combineTop .dOrM)
  | .neg => emit (replaceTop .negM)
  | .not => emit (replaceTop .notM)
  | .eq => compare .equal
  | .gt => compare .greater
  | .lt => compare .less

/-- The work of an instruction. -/
def insert : Instruction → Emission Unit
  | .push segment index => do
    load segment index
    emit pushD
  | .pop segment index => pop segment index
  | .operate operator => operate operator
  | .label name => do emit [.label ((← here).qualify name)]
  | .goto name => do emit (Hack.goto ((← here).qualify name))
  | .ifGoto name => do emit (Hack.ifGoto ((← here).qualify name))
  | .function name locals => startFunction name locals
  | .call name arguments => call name arguments
  | .return => emit lowerReturn

/-! ## What the work of an instruction does -/

/-- Some work at a place adds lines and goes on at another place, or it breaks off before it has
done anything. -/
def Lowers (x : Emission Unit) (c : Context) (outcome : Except Cause (List Line)) (c' : Context) :
    Prop :=
  ∀ b : Builder, b.context = c → x.on b =
    match outcome with
    | .ok lines => (.ok (), { b.emit lines with context := c' })
    | .error cause => (.error cause, b)

variable {α β : Type} {b : Builder} {c c' c'' d : Context} {x y : Emission Unit}
  {lines more : List Line} {cause : Cause} {segment : Segment} {n : Nat}

theorem on_bind_ok {x : Emission α} {f : α → Emission β} {a : α} {b' : Builder}
    (h : x.on b = (.ok a, b')) : (x >>= f).on b = (f a).on b' :=
  run_bind_ok h

theorem on_bind_error {x : Emission α} {f : α → Emission β} {b' : Builder}
    (h : x.on b = (.error cause, b')) : (x >>= f).on b = (.error cause, b') :=
  run_bind_error h

theorem emit_emit (b : Builder) (lines more : List Line) :
    (b.emit lines).emit more = b.emit (lines ++ more) := by
  have hlines : b.lines ++ lines ++ more = b.lines ++ (lines ++ more) := by
    apply Array.toList_inj.1
    simp
  rw [Builder.emit, Builder.emit, Builder.emit, hlines]

namespace Lowers

theorem emit (lines : List Line) (c : Context) : Lowers (emit lines) c (.ok lines) c := by
  rintro b rfl
  rfl

theorem moveTo (c c' : Context) : Lowers (moveTo c') c (.ok []) c' := by
  rintro b rfl
  have hnone : b.emit [] = b := by simp [Builder.emit]
  dsimp only
  rw [hnone]
  rfl

theorem throw (cause : Cause) (c c' : Context) : Lowers (throw cause) c (.error cause) c' := by
  rintro b rfl
  rfl

/-- Work that is done goes on with more. -/
theorem andThen (hx : Lowers x c (.ok lines) c') (hy : Lowers y c' (.ok more) c'') :
    Lowers (x >>= fun _ => y) c (.ok (lines ++ more)) c'' := by
  intro b hb
  have hfirst := hx b hb
  have hsecond := hy { b.emit lines with context := c' } rfl
  rw [on_bind_ok hfirst, hsecond]
  dsimp only
  rw [← emit_emit]
  rfl

/-- Work that is broken off stays so. -/
theorem brokenOff {y : Emission Unit} (hx : Lowers x c (.error cause) c') :
    Lowers (x >>= fun _ => y) c (.error cause) c'' := by
  intro b hb
  have hfirst := hx b hb
  rw [on_bind_error hfirst]

/-- Whatever work does, lines can be added behind it. -/
theorem andEmit {outcome : Except Cause (List Line)} (hx : Lowers x c outcome c')
    (more : List Line) :
    Lowers (x >>= fun _ => Emission.emit more) c (outcome.map (· ++ more)) c' := by
  cases outcome with
  | ok lines => exact hx.andThen (.emit more c')
  | error cause => exact hx.brokenOff

theorem fromHere {f : Context → Emission Unit} {outcome : Except Cause (List Line)}
    (h : Lowers (f c) c outcome c') : Lowers (here >>= f) c outcome c' := by
  intro b hb
  have hhere : here.on b = (.ok c, b) := by
    rw [← hb]
    rfl
  rw [on_bind_ok hhere]
  exact h b hb

end Lowers

theorem lowers_loadBased (register : String) (n : Nat) (c : Context) :
    Lowers (loadBased register n) c (.ok (loadCell (.symbol register) ++
      [.address (.literal n), .assign .a .dPlusA, .assign .d .m])) c :=
  (Lowers.emit _ c).andThen (.emit _ c)

/-- The lines of a based `pop`, as they are added. -/
theorem lowers_storeBased (register : String) (n : Nat) (c : Context) :
    Lowers (storeBased register n) c (.ok (loadCell (.symbol register) ++
      ([.address (.literal n), .assign .d .dPlusA] ++ (storeCell (.symbol "R13") ++
        (popD ++ [addressOf "R13", .assign .a .m, .assign .m .d]))))) c :=
  (Lowers.emit _ c).andThen ((Lowers.emit _ c).andThen ((Lowers.emit _ c).andThen
    ((Lowers.emit _ c).andThen (.emit _ c))))

theorem lowers_store (cell : Operand) (c : Context) :
    Lowers (store cell) c (.ok (popD ++ storeCell cell)) c :=
  (Lowers.emit _ c).andThen (.emit _ c)

/-- What is loaded is pushed: the two make a `push`. -/
theorem lowers_load (segment : Segment) (n : Nat) (c : Context) :
    ∃ outcome, Lowers (load segment n) c outcome c ∧
      lowerPush c segment n = outcome.map (· ++ pushD) := by
  cases segment with
  | constant =>
    by_cases hn : n ≤ maxLiteral
    · refine ⟨.ok (loadConstant n), ?_, ?_⟩
      · rw [load, if_neg (Nat.not_lt.2 hn)]
        exact .emit _ c
      · simp [lowerPush, place, hn, bind, Except.bind, pure, Except.pure, Except.map]
    · refine ⟨.error (.constantOutOfRange n), ?_, ?_⟩
      · rw [load, if_pos (Nat.not_le.1 hn)]
        exact (Lowers.throw _ c c).brokenOff
      · simp [lowerPush, place, hn, bind, Except.bind, throw, throwThe, MonadExceptOf.throw,
          Except.map]
  | pointer =>
    rcases n with _ | _ | n
    · exact ⟨_, .emit _ c, rfl⟩
    · exact ⟨_, .emit _ c, rfl⟩
    · refine ⟨.error (.pointerIndex (n + 2)), ?_, rfl⟩
      rintro b rfl
      rfl
  | temp =>
    by_cases hn : n < tempSize
    · refine ⟨.ok (loadCell (.literal (tempBase + n))), ?_, ?_⟩
      · rw [load, tempAddress, if_pos hn]
        exact .emit _ c
      · simp [lowerPush, place, hn, bind, Except.bind, pure, Except.pure, Except.map]
    · refine ⟨.error (.tempIndex n), ?_, ?_⟩
      · rw [load, tempAddress, if_neg hn]
        rintro b rfl
        rfl
      · simp [lowerPush, place, hn, bind, Except.bind, Except.map]
  | static => exact ⟨_, (Lowers.emit _ c).fromHere, rfl⟩
  | «local» | argument | this | that => exact ⟨_, lowers_loadBased _ n c, rfl⟩

theorem lowers_pop (segment : Segment) (n : Nat) (c : Context) :
    Lowers (pop segment n) c (lowerPop c segment n) c := by
  cases segment with
  | constant => exact .throw _ c c
  | pointer =>
    rcases n with _ | _ | n
    · exact lowers_store _ c
    · exact lowers_store _ c
    · rintro b rfl
      rfl
  | temp =>
    by_cases hn : n < tempSize
    · have hlower : lowerPop c .temp n = .ok (popD ++ storeCell (.literal (tempBase + n))) := by
        simp [lowerPop, place, hn, bind, Except.bind, pure, Except.pure]
      rw [hlower, pop, tempAddress, if_pos hn]
      exact lowers_store _ c
    · have hlower : lowerPop c .temp n = .error (.tempIndex n) := by
        simp [lowerPop, place, hn, bind, Except.bind]
      rw [hlower, pop, tempAddress, if_neg hn]
      rintro b rfl
      rfl
  | static => exact (lowers_store _ c).fromHere
  | «local» | argument | this | that => exact lowers_storeBased _ n c

theorem lowers_compare (condition : Condition) (c : Context) :
    Lowers (compare condition) c (.ok (compareTop c.stem c.comparisons condition))
      { c with comparisons := c.comparisons + 1 } :=
  ((Lowers.moveTo c _).andThen (.emit _ _)).fromHere

theorem lowers_operate (operator : Operator) (c : Context) :
    Lowers (operate operator) c (.ok (lowerOperator c operator)) (c.after (.operate operator)) := by
  cases operator with
  | eq | gt | lt => exact lowers_compare _ c
  | _ => exact .emit _ c

/-- **The work of an instruction** is the lines that it has, or it breaks off before anything is
done. -/
theorem lowers_insert (i : Instruction) (c : Context) :
    Lowers (insert i) c (lower c i) (c.after i) := by
  cases i with
  | push segment n =>
    obtain ⟨outcome, hload, hpush⟩ := lowers_load segment n c
    rw [lower, hpush]
    exact hload.andEmit pushD
  | pop segment n => exact lowers_pop segment n c
  | operate operator => exact lowers_operate operator c
  | label name => exact (Lowers.emit _ c).fromHere
  | goto name => exact (Lowers.emit _ c).fromHere
  | ifGoto name => exact (Lowers.emit _ c).fromHere
  | function name locals => exact ((Lowers.moveTo c _).andThen (.emit _ _)).fromHere
  | call name arguments => exact ((Lowers.moveTo c _).andThen (.emit _ _)).fromHere
  | «return» => exact .emit _ c

/-- A program takes an instruction in as that does its work, and keeps nothing of work that was
broken off. -/
theorem on_insert (b : Builder) (i : Instruction) : (insert i).on b =
    match b.add i with
    | .ok b' => (.ok (), b')
    | .error cause => (.error cause, b) := by
  rw [lowers_insert i b.context b rfl, Builder.add]
  cases lower b.context i <;> rfl

end Emission

/-! ## What an instruction changes -/

theorem assembly_append (program more : List Line) :
    assembly (program ++ more) = assembly program ++ assembly more := by
  rw [assembly, List.map_append, String.join_append]
  rfl

theorem text_emit (b : Builder) (lines : List Line) :
    (b.emit lines).text = b.text ++ assembly lines := by
  rw [Builder.text, toList_lines_emit, assembly_append]
  rfl

theorem comparisons_after (c : Context) (i : Instruction) :
    (c.after i).comparisons = c.comparisons + if i.isComparison then 1 else 0 := by
  cases i with
  | operate operator => cases operator <;> rfl
  | _ => rfl

theorem calls_after (c : Context) (i : Instruction) :
    (c.after i).calls = c.calls + if i.isCall then 1 else 0 := by
  cases i with
  | operate operator => cases operator <;> rfl
  | _ => rfl

/-- What a program is when an instruction was added to it. -/
structure Builder.Takes (b : Builder) (i : Instruction) (b' : Builder) : Prop where
  name : b'.name = b.name
  annotate : b'.annotate = b.annotate
  text : b.text.toList <+: b'.text.toList
  comparisons : b'.context.comparisons = b.context.comparisons + if i.isComparison then 1 else 0
  calls : b'.context.calls = b.context.calls + if i.isCall then 1 else 0
  stem : b'.context.stem = b.context.stem
  function : b'.context.function? = i.functionName?.or b.context.function?

variable {b b' left : Builder} {i : Instruction} {is : List Instruction} {fault : Fault}

theorem takes_of_add (h : b.add i = .ok b') : b.Takes i b' := by
  unfold Builder.add at h
  cases hlines : lower b.context i with
  | error cause =>
    rw [hlines] at h
    cases h
  | ok lines =>
    rw [hlines] at h
    cases h
    refine ⟨rfl, rfl, ?_, comparisons_after _ i, calls_after _ i, stem_after _ i,
      function?_after _ i⟩
    have htext := text_emit b lines
    refine ⟨(assembly lines).toList, ?_⟩
    rw [← String.toList_append, ← htext]
    rfl

/-! ## Where a file breaks off -/

/-- The function around the end of code is the last that it starts. -/
theorem function?_afterAll (c : Context) (is : List Instruction) :
    (c.afterAll is).function? = (functionNames is).getLast?.or c.function? := by
  induction is generalizing c with
  | nil => rfl
  | cons i is ih =>
    have hcons : functionNames (i :: is) = i.functionName?.toList ++ functionNames is := by
      cases i <;> rfl
    have hlast : i.functionName?.toList.getLast? = i.functionName? := by
      cases i.functionName? <;> rfl
    have hrest : (c.afterAll (i :: is)).function? = ((c.after i).afterAll is).function? := rfl
    rw [hrest, ih, function?_after, hcons, List.getLast?_append, hlast, Option.or_assoc]

theorem stem_afterAll (c : Context) (is : List Instruction) :
    (c.afterAll is).stem = c.stem := by
  induction is generalizing c with
  | nil => rfl
  | cons i is ih =>
    have hrest : (c.afterAll (i :: is)).stem = ((c.after i).afterAll is).stem := rfl
    rw [hrest, ih, stem_after]

/-- Instructions break off at the first that is rejected, behind all that was made of those
before it. -/
theorem addAll_eq_fault {fileName : String} (h : b.addAll fileName is = (left, some fault)) :
    ∃ before i after reached, is = before ++ i :: after ∧
      b.addAll fileName before = (reached, none) ∧ rejection? i = some fault.cause ∧
      left = reached.note i ∧ fault = ⟨fault.cause, fileName, reached.context.scope, i⟩ := by
  induction is generalizing b with
  | nil => cases h
  | cons i is ih =>
    rw [Builder.addAll] at h
    cases hadd : (b.note i).add i with
    | error cause =>
      rw [hadd] at h
      cases h
      have hcontext : (b.note i).context = b.context := by
        rw [note_eq]
        rfl
      have hrejected : rejection? i = some cause := by
        rw [← lower_eq_error_iff (c := (b.note i).context)]
        unfold Builder.add at hadd
        cases hlower : lower (b.note i).context i with
        | error cause' =>
          rw [hlower] at hadd
          cases hadd
          rfl
        | ok lines =>
          rw [hlower] at hadd
          cases hadd
      refine ⟨[], i, is, b, rfl, rfl, hrejected, rfl, ?_⟩
      rw [hcontext]
    | ok b₁ =>
      rw [hadd] at h
      obtain ⟨before, j, after, reached, rfl, hreached, hrest⟩ := ih h
      refine ⟨i :: before, j, after, reached, rfl, ?_, hrest⟩
      rw [Builder.addAll, hadd]
      exact hreached

/-- Where a file breaks off, and what it leaves: everything before its first instruction that has
no lines, and the comment of that instruction. -/
structure Builder.BreaksOff (b : Builder) (file : File) (left : Builder) (fault : Fault)
    (before : List Instruction) (reached : Builder) : Prop where
  split : ∃ after, file.instructions = before ++ fault.instruction :: after
  lowered : ∀ i ∈ before, ∀ c, ∃ lines, lower c i = .ok lines
  earlier : (b.enter file.stem).addAll file.name before = (reached, none)
  rejected : ∀ c, lower c fault.instruction = .error fault.cause
  context : left.context = reached.context
  text : left.text = reached.text ++
    if b.annotate then "// " ++ fault.instruction.text ++ "\n" else ""
  fileName : fault.file = file.name
  /-- The function around the instruction is the last that was started in its file. -/
  scope : fault.scope = (functionNames before).getLast?.getD file.stem

theorem breaksOff_of_addFile {file : File} (h : b.addFile file = (left, some fault)) :
    ∃ before reached, b.BreaksOff file left fault before reached := by
  obtain ⟨before, i, after, reached, hsplit, hreached, hrejected, rfl, hfault⟩ :=
    addAll_eq_fault h
  have hextends := extends_addAll hreached
  have hi : fault.instruction = i := by rw [hfault]
  refine ⟨before, reached, ⟨after, ?_⟩, ?_, hreached, ?_, ?_, ?_, ?_, ?_⟩
  · rw [hi, hsplit]
  · intro j hj c
    have hnone := (exists_addAll_iff file.name).1 ⟨reached, hreached⟩ j hj
    exact exists_lower_iff.2 hnone
  · intro c
    rw [hi]
    exact lower_eq_error_iff.2 hrejected
  · rw [note_eq]
    rfl
  · rw [note_eq, text_emit, hi, hextends.annotate]
    have hannotate : (b.enter file.stem).annotate = b.annotate := rfl
    rw [hannotate]
    split <;> simp [assembly, Line.text]
  · rw [hfault]
  · have hscope : fault.scope = reached.context.scope := by rw [hfault]
    rw [hscope, hextends.context, Context.scope, function?_afterAll, stem_afterAll]
    simp [Builder.enter]

/-- **A rejected instruction leaves no trace.** Whatever the program, the work of an instruction
breaks off with the program as it was, or it adds lines, a number for a comparison or a call, and
a function. So a file breaks off at its first instruction that has no lines, with what the
instructions before it made and its own comment, and the fault says where it stands. -/
theorem rejected_without_trace (b : Builder) :
    (∀ i : Instruction,
      (∃ cause, b.add i = .error cause ∧ (Emission.insert i).on b = (.error cause, b)) ∨
        ∃ b', b.add i = .ok b' ∧ (Emission.insert i).on b = (.ok (), b') ∧ b.Takes i b') ∧
      ∀ (file : File) (left : Builder) (fault : Fault), b.addFile file = (left, some fault) →
        ∃ before reached, b.BreaksOff file left fault before reached := by
  constructor
  · intro i
    have hinsert := Emission.on_insert b i
    cases hadd : b.add i with
    | error cause =>
      rw [hadd] at hinsert
      exact .inl ⟨cause, rfl, hinsert⟩
    | ok b' =>
      rw [hadd] at hinsert
      exact .inr ⟨b', rfl, hinsert, takes_of_add hadd⟩
  · intro file left fault h
    exact breaksOff_of_addFile h

/-- An index that is out of range, in an annotated program and behind the start of a function. -/
theorem rejected_without_trace_pointer :
    let b := Builder.new "Out" true
    let file : File := ⟨"Main.vm", "Main",
      [.function "Main.f" 0, .push .constant 7, .pop .pointer 2, .pop .constant 0]⟩
    ∃ left, b.addFile file =
        (left, some ⟨.pointerIndex 2, "Main.vm", "Main.f", .pop .pointer 2⟩) ∧
      left.lines.back? = some (.comment "pop pointer 2") ∧ left.lines.size = 11 ∧
      ∃ before reached, b.BreaksOff file left
        ⟨.pointerIndex 2, "Main.vm", "Main.f", .pop .pointer 2⟩ before reached := by
  intro b file
  obtain ⟨left, hfile, hlast, hsize⟩ : ∃ left, b.addFile file =
      (left, some ⟨.pointerIndex 2, "Main.vm", "Main.f", .pop .pointer 2⟩) ∧
      left.lines.back? = some (.comment "pop pointer 2") ∧ left.lines.size = 11 :=
    ⟨_, rfl, by decide, by decide⟩
  exact ⟨left, hfile, hlast, hsize, (rejected_without_trace b).2 file left _ hfile⟩

end JackToolchain.Hack
