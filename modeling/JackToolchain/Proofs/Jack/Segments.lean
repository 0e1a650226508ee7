import JackToolchain.Proofs.Jack.Wide
import JackToolchain.Proofs.Vm.Height

/-!
# Compiled code keeps to its memory

The header of a subroutine and the room for the fields of an object are settled by
declarations, before any statement is compiled. The indices in statements are those of
declared variables, so they stay below the number of declarations of their kind. Behind 65535
of them a counter goes on with 0, and the room that it asks for is too small.

* `Cls.room?`: how many cells of a segment a subroutine needs.
* `Cls.Confines`: the block of a subroutine allocates, and accesses what it declares only.
* `Emits.index_lt`: an access stays below the number of variables of its kind.
* `Confines.unique`: a block shows how much it allocates.
* `compile_segments`: **every access of compiled code is of a declared variable, and exactly
  where the variables can be counted it is within what was allocated**. Only the first
  instructions of a constructor or a method set the current object.
* `compile_unallocated`: of 65536 local variables none is allocated.
-/

namespace JackToolchain.Vm

/-- The cell that an instruction moves a value from or to. -/
def Instruction.access? : Instruction → Option (Segment × Nat)
  | .push segment index | .pop segment index => some (segment, index)
  | _ => none

end JackToolchain.Vm

namespace JackToolchain.Jack

open Grammar Vm Files

variable {scope : Scope} {k : Kind} {h : Header} {s : Sub} {c : Cls} {i : Instruction}

/-! ## Room -/

namespace Grammar

/-- How many cells of a segment a subroutine needs for what is declared, where that is limited. -/
def Cls.room? (c : Cls) (s : Sub) : Segment → Option Nat
  | .constant => none
  | .local => some (s.count .local)
  | .argument => some (s.count .argument)
  | .this => some (c.count .field)
  | .static => some (c.count .static)
  | .pointer => some 2
  | .that | .temp => some 1

end Grammar

/-- A block has the header and the prologue of its subroutine, which allocate as many local
variables and fields, sets the current object nowhere else, and accesses declared variables. -/
structure Grammar.Cls.Confines (c : Cls) (s : Sub) (locals fields : Nat)
    (block : List Instruction) : Prop where
  shape : ∃ body, block =
      .function (qualifiedName c.name s.name) locals :: (s.prologue fields ++ body) ∧
    .pop .pointer 0 ∉ body ∧ ∀ i ∈ s.prologue fields ++ body, i.isFunction = false
  access : ∀ i ∈ block, ∀ segment index, i.access? = some (segment, index) →
    ∀ room, c.room? s segment = some room → index < room

/-! ## Statements keep to what is declared -/

/-- The variables of a kind lie in a segment that has room for those that are declared. -/
theorem room?_segment (c : Cls) (s : Sub) (k : Kind) :
    c.room? s k.segment = some (c.count k + s.count k) := by
  cases k with
  | static => rfl
  | field => rfl
  | argument => rw [count_of_subroutineLevel c rfl, Nat.zero_add]; rfl
  | «local» => rw [count_of_subroutineLevel c rfl, Nat.zero_add]; rfl

/-- An access of a statement stays within what is declared. -/
theorem Emits.index_lt (hi : Emits h i) (hscope : h.scope.Numbered)
    (hnumber : ∀ k, h.scope.number k = c.count k + s.count k) {segment : Segment} {index room : Nat}
    (ha : i.access? = some (segment, index)) (hroom : c.room? s segment = some room) :
    index < room := by
  have hvariable (v : Variable) (hv : v ∈ h.scope.inReach)
      (hroom : c.room? s v.kind.segment = some room) : v.index.toNat < room := by
    have hlt := hscope.index v hv
    rw [room?_segment] at hroom
    cases hroom
    rwa [hnumber] at hlt
  cases hi with
  | constant hn =>
    cases ha
    cases hroom
  | scratch hi =>
    simp only [scratchAccesses, List.mem_cons, List.not_mem_nil, or_false] at hi
    rcases hi with rfl | rfl | rfl | rfl | rfl | rfl <;>
    · cases ha
      cases hroom
      decide
  | load hv =>
    cases ha
    exact hvariable _ hv hroom
  | store hv =>
    cases ha
    exact hvariable _ hv hroom
  | _ => cases ha

/-- Statements do not set the current object. -/
theorem Emits.ne_setObject (hi : Emits h i) : i ≠ .pop .pointer 0 := by
  rintro rfl
  generalize hpop : Instruction.pop .pointer 0 = i at hi
  cases hi with
  | scratch hi =>
    subst hpop
    exact absurd hi (by decide)
  | @store v hv =>
    -- no kind of variable lies in `pointer`
    have hsegment := (Instruction.pop.inj hpop).1
    cases hkind : v.kind <;> rw [hkind] at hsegment <;> cases hsegment
  | _ => cases hpop

theorem Emits.isFunction_eq_false (hi : Emits h i) : i.isFunction = false := by
  cases hi with
  | scratch hi =>
    have hnone : ∀ i ∈ scratchAccesses, i.isFunction = false := by decide
    exact hnone i hi
  | _ => rfl

/-! ## Blocks -/

theorem access_prologue (c : Cls) (s : Sub) {fields : Nat} (hi : i ∈ s.prologue fields)
    {segment : Segment} {index room : Nat} (ha : i.access? = some (segment, index))
    (hroom : c.room? s segment = some room) : index < room := by
  unfold Sub.prologue at hi
  split at hi
  · simp only [List.mem_cons, List.not_mem_nil, or_false] at hi
    rcases hi with rfl | rfl | rfl
    · cases ha
      cases hroom
    · cases ha
    · cases ha
      cases hroom
      decide
  · next hkind =>
    simp only [List.mem_cons, List.not_mem_nil, or_false] at hi
    rcases hi with rfl | rfl
    · -- the object is an argument
      cases ha
      cases hroom
      simp [Sub.count, hkind]
    · cases ha
      cases hroom
      decide
  · cases hi

theorem isFunction_prologue (s : Sub) (fields : Nat) :
    ∀ i ∈ s.prologue fields, i.isFunction = false := by
  unfold Sub.prologue
  split <;> simp [Instruction.isFunction]

theorem emits_epilogue (sub : Subroutine) : ∀ i ∈ sub.epilogue, Emits sub.toHeader i := by
  unfold Subroutine.epilogue
  split
  · intro i hi
    cases hi
  · rw [List.forall_mem_cons]
    exact ⟨.constant (Nat.zero_le _), List.forall_mem_singleton.2 .return⟩

/-- The code of a subroutine keeps to what it and its class declare, and allocates what the
counters show. -/
theorem confines_code {sub : Subroutine} (hscope : c.scope? = some scope)
    (hs : s.tree? c.name scope = some sub) (he : sub.Emitted) :
    c.Confines s (counted (s.count .local)) (counted (c.count .field)) sub.code := by
  have hnumber : ∀ k, sub.scope.number k = c.count k + s.count k := by
    obtain ⟨h, hh, body, -, rfl⟩ := subTree?_eq_some_iff.1 hs
    exact number_header? hscope hh
  rw [code_eq_of_subTree? hscope hs]
  obtain ⟨body, hbody⟩ :
    ∃ body, body = (statementsCode sub.className {} sub.body).1 ++ sub.epilogue := ⟨_, rfl⟩
  have hemits : ∀ i ∈ body, Emits sub.toHeader i := by
    rw [hbody, List.forall_mem_append]
    exact ⟨he.body, emits_epilogue sub⟩
  rw [← hbody]
  refine ⟨⟨body, rfl, fun hi => (hemits _ hi).ne_setObject rfl, ?_⟩, ?_⟩
  · rw [List.forall_mem_append]
    exact ⟨isFunction_prologue s _, fun i hi => (hemits i hi).isFunction_eq_false⟩
  · intro i hi segment index ha room hroom
    rw [List.mem_cons, List.mem_append] at hi
    rcases hi with rfl | hi | hi
    · cases ha
    · exact access_prologue c s hi ha hroom
    · exact (hemits i hi).index_lt he.numbered hnumber ha hroom

/-- A block shows how many local variables it has, and in a constructor how many fields. -/
theorem Grammar.Cls.Confines.unique {locals locals' fields fields' : Nat}
    {block : List Instruction} (hb : c.Confines s locals fields block)
    (hb' : c.Confines s locals' fields' block) :
    locals = locals' ∧ (s.kind = .constructor → fields = fields') := by
  obtain ⟨body, rfl, -⟩ := hb.shape
  obtain ⟨body', heq, -⟩ := hb'.shape
  obtain ⟨hheader, hrest⟩ := List.cons.inj heq
  refine ⟨(Instruction.function.inj hheader).2, fun hkind => ?_⟩
  rw [Sub.prologue, Sub.prologue, hkind] at hrest
  exact (Instruction.push.inj (List.cons.inj hrest).1).2

/-- A block allocates what is declared exactly where the counters have counted it. -/
theorem Grammar.Cls.Confines.counted_iff {block : List Instruction}
    (hb : c.Confines s (counted (s.count .local)) (counted (c.count .field)) block) :
    c.Confines s (s.count .local) (c.count .field) block ↔
      s.count .local ≤ maxNumber ∧ (s.kind = .constructor → c.count .field ≤ maxNumber) := by
  constructor
  · intro hdeclared
    obtain ⟨hlocals, hfields⟩ := hb.unique hdeclared
    exact ⟨counted_eq_iff.1 hlocals, fun hkind => counted_eq_iff.1 (hfields hkind)⟩
  · rintro ⟨hlocals, hfields⟩
    have hprologue : s.prologue (counted (c.count .field)) = s.prologue (c.count .field) := by
      unfold Sub.prologue
      split
      · next hkind => rw [counted_eq_iff.2 (hfields hkind)]
      · rfl
      · rfl
    obtain ⟨body, hblock, hobject, hfunction⟩ := hb.shape
    rw [counted_eq_iff.2 hlocals, hprologue] at hblock
    rw [hprologue] at hfunction
    exact ⟨⟨body, hblock, hobject, hfunction⟩, hb.access⟩

/-- **Compiled code keeps to its memory.** A class that compiles is the blocks of its
subroutines. Every access in a block is of a variable that the subroutine or its class declares,
and the current object is set where the block begins and nowhere else. The block allocates as
many variables as the counters show, which is as many as there are exactly if a counter of 16
bits has counted the local variables and, in a constructor, the fields. -/
theorem compile_segments {source : Source} {p : Program} (hp : compile source = .ok p) :
    ∃ (c : Cls) (block : Sub → List Instruction), c.SpelledBy source ∧
      p.instructions = c.subroutines.flatMap block ∧
      ∀ s ∈ c.subroutines,
        c.Confines s (counted (s.count .local)) (counted (c.count .field)) (block s) ∧
        (c.Confines s (s.count .local) (c.count .field) (block s) ↔
          s.count .local ≤ maxNumber ∧ (s.kind = .constructor → c.count .field ≤ maxNumber)) := by
  obtain ⟨c, scope, hsource, hscope, rfl, hblocks⟩ := exists_blocks_of_compile hp
  refine ⟨c, Sub.block c.name scope, hsource, rfl, fun s hs => ?_⟩
  obtain ⟨sub, hsub, hblock⟩ := hblocks s hs
  have hemitted := emitted_of_mem_subroutines (words_of_lex hsource) hscope hs hsub
  have hconfines := confines_code hscope hsub hemitted
  rw [hblock]
  exact ⟨hconfines, hconfines.counted_iff⟩

/-- A constructor and a method whose names hide fields, around a static variable. -/
theorem compile_segments_shadowed :
    let source : Source := ⟨"P.jack", "P",
      "class P \x7b static int n; field int x, y;
        constructor P new(int x) \x7b let y = x; let n = n + 1; return this; \x7d
        method int get(int y) \x7b var Array x; let x[y] = n; return x[y]; \x7d \x7d"⟩
    ∃ p, compile source = .ok p ∧ p.instructions.length = 29 ∧
      ∃ (c : Cls) (block : Sub → List Instruction), c.SpelledBy source ∧
        p.instructions = c.subroutines.flatMap block ∧
        ∀ s ∈ c.subroutines,
          c.Confines s (counted (s.count .local)) (counted (c.count .field)) (block s) ∧
          (c.Confines s (s.count .local) (c.count .field) (block s) ↔
            s.count .local ≤ maxNumber ∧
              (s.kind = .constructor → c.count .field ≤ maxNumber)) := by
  intro source
  have hp : compile source = .ok ⟨"P", [.function "P.new" 0,
      .push .constant 2, .call "Memory.alloc" 1, .pop .pointer 0,
      .push .argument 0, .pop .this 1,
      .push .static 0, .push .constant 1, .operate .add, .pop .static 0,
      .push .pointer 0, .return,
      .function "P.get" 1, .push .argument 0, .pop .pointer 0,
      .push .argument 1, .push .local 0, .operate .add, .push .static 0, .pop .temp 0,
      .pop .pointer 1, .push .temp 0, .pop .that 0,
      .push .argument 1, .push .local 0, .operate .add, .pop .pointer 1, .push .that 0,
      .return]⟩ :=
    toOption_eq_some_iff.1 (by decide +kernel)
  exact ⟨_, hp, rfl, compile_segments hp⟩

/-- **Of 65536 local variables none is allocated**: the header shows 0, and the code reads the
first of them. -/
theorem compile_unallocated :
    let c := wide 65535 1
    let s := wideSub 65535 1
    ∃ p, compile c.source = .ok p ∧ c.SpelledBy c.source ∧ c.subroutines = [s] ∧
      p.instructions = [.function "Main.f" 0, .push .local 0, .call "Main.g" 1, .return] ∧
      s.count .local = 65536 ∧ ¬ c.Confines s (s.count .local) (c.count .field) p.instructions := by
  intro c s
  have hzero : counted (65535 + 1) = 0 := by decide
  have hp := compile_wide 65535 1
  rw [block_wideSub, hzero] at hp
  refine ⟨_, hp, spelledBy_source_wide 65535 1, rfl, rfl, count_wideSub .., fun hconfines => ?_⟩
  obtain ⟨body, hshape, -⟩ := hconfines.shape
  obtain ⟨hheader, -⟩ := List.cons.inj hshape
  have hlocals := (Instruction.function.inj hheader).2
  rw [count_wideSub] at hlocals
  exact absurd hlocals (by decide)

end JackToolchain.Jack
