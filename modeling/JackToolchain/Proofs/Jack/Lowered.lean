import JackToolchain.Proofs.Hack.Rejection
import JackToolchain.Proofs.Jack.Segments

/-!
# Compiled code is lowered

The only numbers in compiled code that lowering checks are constants and the indices of
`pointer` and `temp`. A constant is at most `maxConstant`, in a literal, in the length of a
string and in a character, or it is the number of fields of a class, which a constructor
allocates. The compiler uses two cells of `pointer` and one of `temp`, and it pops no constant.

* `Emits.rejection?_eq_none`: statements have lines.
* `rejection?_of_mem_prologue`: so has the prologue of a subroutine, unless there are too many
  fields to allocate.
* `HoldsClass`: a file holds what a class compiles to.
* `exists_build_of_compile`: **whatever compiles is lowered**.
-/

namespace JackToolchain.Jack

open Grammar Vm Hack Files

variable {h : Header} {i : Instruction} {c : Cls} {s : Sub} {name : String}
  {options : Options} {files : List Vm.File}

/-! ## Instructions -/

theorem Kind.rejection?_push (k : Kind) (n : Nat) : rejection? (.push k.segment n) = none := by
  cases k <;> rfl

theorem Kind.rejection?_pop (k : Kind) (n : Nat) : rejection? (.pop k.segment n) = none := by
  cases k <;> rfl

/-- A constant is lowered up to the number that the compiler reads. -/
theorem rejection?_constant {n : Nat} (hn : n ≤ maxLiteral) :
    rejection? (.push .constant n) = none :=
  if_pos hn

/-- An instruction of a statement has lines. -/
theorem Emits.rejection?_eq_none (hi : Emits h i) : rejection? i = none := by
  cases hi with
  | constant hn =>
    have hle : maxConstant ≤ maxLiteral := by decide
    exact rejection?_constant (Nat.le_trans hn hle)
  | scratch hi =>
    have hnone : ∀ i ∈ scratchAccesses, rejection? i = none := by decide
    exact hnone i hi
  | load hv => exact Kind.rejection?_push ..
  | store hv => exact Kind.rejection?_pop ..
  | _ => rfl

/-- An instruction of a prologue has lines if the fields of an object can be counted. -/
theorem rejection?_of_mem_prologue {fields : Nat} (hfields : fields ≤ maxLiteral)
    (hi : i ∈ s.prologue fields) : rejection? i = none := by
  unfold Sub.prologue at hi
  split at hi
  · simp only [List.mem_cons, List.not_mem_nil, or_false] at hi
    rcases hi with rfl | rfl | rfl
    · exact rejection?_constant hfields
    · rfl
    · rfl
  · simp only [List.mem_cons, List.not_mem_nil, or_false] at hi
    rcases hi with rfl | rfl
    · rfl
    · rfl
  · cases hi

/-! ## Classes -/

/-- Every instruction of a class has lines if its fields can be counted. -/
theorem rejection?_of_compile {source : Source} {p : Program} (hsource : c.SpelledBy source)
    (hp : compile source = .ok p) (hfields : c.count .field ≤ maxLiteral) :
    ∀ i ∈ p.instructions, rejection? i = none := by
  obtain ⟨scope, hscope, hcompiles, rfl⟩ := (compile_eq_ok_iff hsource).1 hp
  intro i hi
  obtain ⟨s, hs, hi⟩ := List.mem_flatMap.1 hi
  obtain ⟨sub, hsub⟩ := Option.isSome_iff_exists.1 (hcompiles s hs)
  have hemitted := emitted_of_mem_subroutines (words_of_lex hsource) hscope hs hsub
  rw [block_eq hsub, code_eq_of_subTree? hscope hsub, List.mem_cons, List.mem_append,
    List.mem_append] at hi
  -- a block is a header, a prologue, statements and a return where they do not end with one
  rcases hi with rfl | hi | hi | hi
  · rfl
  · exact rejection?_of_mem_prologue (Nat.le_trans (counted_self_le _) hfields) hi
  · exact (hemitted.body i hi).rejection?_eq_none
  · exact (emits_epilogue sub i hi).rejection?_eq_none

/-- A file holds what a class compiles to, and the class has no more fields than a constant
can count. The name and the stem of the file can be any. -/
def HoldsClass (file : Vm.File) : Prop :=
  ∃ (source : Source) (p : Program) (c : Cls), compile source = .ok p ∧
    file.instructions = p.instructions ∧ c.SpelledBy source ∧ c.count .field ≤ maxLiteral

/-- **Whatever compiles is lowered**, for every name of the program, with or without a
bootstrap and with or without comments. -/
theorem exists_build_of_compile (hfiles : ∀ file ∈ files, HoldsClass file) (name : String)
    (options : Options) : ∃ b, build name options files = .ok b := by
  refine exists_build_iff.2 fun file hfile => ?_
  obtain ⟨source, p, c, hp, hinstructions, hsource, hfields⟩ := hfiles file hfile
  rw [hinstructions]
  exact rejection?_of_compile hsource hp hfields

/-- A constructor that fills an array through its object, in two files of different names. -/
theorem exists_build_of_compile_cell :
    let source : Source := ⟨"Cell.jack", "Cell",
      "class Cell \x7b static Array all; field int key;
        constructor Cell new(int n) \x7b let key = n; let all[n] = this; return this; \x7d \x7d"⟩
    let instructions : List Instruction := [.function "Cell.new" 0,
      .push .constant 1, .call "Memory.alloc" 1, .pop .pointer 0,
      .push .argument 0, .pop .this 0,
      .push .argument 0, .push .static 0, .operate .add, .push .pointer 0, .pop .temp 0,
      .pop .pointer 1, .push .temp 0, .pop .that 0, .push .pointer 0, .return]
    compile source = .ok ⟨"Cell", instructions⟩ ∧
      ∃ b, build "Out" ⟨true, true⟩
        [⟨"Cell.vm", "Cell", instructions⟩, ⟨"Copy.vm", "Copy", instructions⟩] = .ok b := by
  intro source instructions
  have hp : compile source = .ok ⟨"Cell", instructions⟩ :=
    toOption_eq_some_iff.1 (by decide +kernel)
  have hsource : Cls.SpelledBy ⟨"Cell",
      [⟨.static, .static, rfl, .named "Array", "all", []⟩, ⟨.field, .field, rfl, .int, "key", []⟩],
      [⟨.constructor, some (.named "Cell"), "new", [⟨.int, "n"⟩], [],
        [.assign "key" (.mk (.name "n") .nil),
          .assignElement "all" (.mk (.name "n") .nil) (.mk .this .nil),
          .return (some (.mk .this .nil))]⟩]⟩ source := by
    dsimp only [Cls.SpelledBy, source]
    decide +kernel
  have hholds (fileName stem : String) : HoldsClass ⟨fileName, stem, instructions⟩ :=
    ⟨source, _, _, hp, rfl, hsource, by decide⟩
  refine ⟨hp, exists_build_of_compile ?_ "Out" ⟨true, true⟩⟩
  exact List.forall_mem_cons.2 ⟨hholds _ _, List.forall_mem_singleton.2 (hholds _ _)⟩

end JackToolchain.Jack
