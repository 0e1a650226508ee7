import JackToolchain.Proofs.Hack.Sites

/-!
# Instructions that have no lines

Whether an instruction can be lowered is a matter of its segment and its index alone, and not of
where it stands. A program is built exactly if all instructions of its files can be.

* `rejection?`: why an instruction has no lines.
* `lower_eq_error_iff`: lowering gives up on an instruction for that reason and for no other.
* `exists_build_iff`: **a program is built exactly if none of its instructions is rejected**.
* `exists_fault_of_rejected`: otherwise the build ends with a fault.
-/

namespace JackToolchain.Hack

open Vm

/-- Why an instruction has no lines, wherever it stands. -/
def rejection? : Instruction → Option Cause
  | .push .constant n => if n ≤ maxLiteral then none else some (.constantOutOfRange n)
  | .pop .constant _ => some .popConstant
  | .push .pointer n | .pop .pointer n => if n ≤ 1 then none else some (.pointerIndex n)
  | .push .temp n | .pop .temp n => if n < tempSize then none else some (.tempIndex n)
  | _ => none

variable {c : Context} {i : Instruction} {cause : Cause} {segment : Segment} {n : Nat}
  {b : Builder} {is : List Instruction} {files : List File} {name : String}
  {options : Options}

/-! ## One instruction -/

theorem lowerPush_eq_error_iff :
    lowerPush c segment n = .error cause ↔ rejection? (.push segment n) = some cause := by
  unfold lowerPush
  cases segment with
  | constant =>
    by_cases hn : n ≤ maxLiteral
    · simp [place, rejection?, hn, bind, Except.bind, pure, Except.pure]
    · simp [place, rejection?, hn, bind, Except.bind, throw, throwThe, MonadExceptOf.throw]
  | pointer =>
    match n with
    | 0 | 1 => exact iff_of_false nofun nofun
    | n + 2 => simp [place, rejection?, bind, Except.bind]
  | temp =>
    by_cases hn : n < tempSize
    · simp [place, rejection?, hn, bind, Except.bind, pure, Except.pure]
    · simp [place, rejection?, hn, bind, Except.bind]
  | argument | «local» | static | this | that => exact iff_of_false nofun nofun

theorem lowerPop_eq_error_iff :
    lowerPop c segment n = .error cause ↔ rejection? (.pop segment n) = some cause := by
  unfold lowerPop
  cases segment with
  | constant => simp [place, rejection?, bind, Except.bind, throw, throwThe, MonadExceptOf.throw]
  | pointer =>
    match n with
    | 0 | 1 => exact iff_of_false nofun nofun
    | n + 2 => simp [place, rejection?, bind, Except.bind]
  | temp =>
    by_cases hn : n < tempSize
    · simp [place, rejection?, hn, bind, Except.bind, pure, Except.pure]
    · simp [place, rejection?, hn, bind, Except.bind]
  | argument | «local» | static | this | that => exact iff_of_false nofun nofun

/-- Lowering gives up on an instruction for the reason that it has, and for no other. -/
theorem lower_eq_error_iff : lower c i = .error cause ↔ rejection? i = some cause := by
  cases i with
  | push segment n => exact lowerPush_eq_error_iff
  | pop segment n => exact lowerPop_eq_error_iff
  | _ => simp [lower, rejection?]

theorem exists_lower_iff : (∃ lines, lower c i = .ok lines) ↔ rejection? i = none := by
  constructor
  · rintro ⟨lines, hlines⟩
    refine Option.eq_none_iff_forall_ne_some.2 fun cause hcause => ?_
    have herror : lower c i = .error cause := lower_eq_error_iff.2 hcause
    rw [hlines] at herror
    cases herror
  · intro hnone
    cases hlower : lower c i with
    | ok lines => exact ⟨lines, rfl⟩
    | error cause =>
      rw [lower_eq_error_iff.1 hlower] at hnone
      cases hnone

/-! ## Files and programs -/

/-- An instruction is added to a program if it is not rejected. -/
theorem exists_add_iff : (∃ b', b.add i = .ok b') ↔ rejection? i = none := by
  rw [← exists_lower_iff (c := b.context), Builder.add]
  cases lower b.context i with
  | error cause => simp [bind, Except.bind]
  | ok lines => simp [bind, Except.bind, pure, Except.pure]

/-- A file is lowered to its end if none of its instructions is rejected. -/
theorem exists_addAll_iff (fileName : String) :
    (∃ b', b.addAll fileName is = (b', none)) ↔ ∀ i ∈ is, rejection? i = none := by
  induction is generalizing b with
  | nil => exact iff_of_true ⟨b, rfl⟩ (List.forall_mem_nil _)
  | cons i is ih =>
    -- the rest is lowered by whatever builder the first instruction leaves
    rw [List.forall_mem_cons, ← exists_add_iff (b := b.note i), Builder.addAll]
    cases (b.note i).add i with
    | error cause => simp
    | ok b₁ =>
      have hadd : ∃ b', (Except.ok b₁ : Except Cause Builder) = .ok b' := ⟨b₁, rfl⟩
      rw [and_iff_right hadd]
      exact ih

theorem exists_addFiles_iff : (∃ b', b.addFiles files = .ok b') ↔
    ∀ file ∈ files, ∀ i ∈ file.instructions, rejection? i = none := by
  induction files generalizing b with
  | nil => exact iff_of_true ⟨b, rfl⟩ (List.forall_mem_nil _)
  | cons file files ih =>
    rw [List.forall_mem_cons, Builder.addFiles, Builder.addFile,
      ← exists_addAll_iff (b := b.enter file.stem) file.name]
    cases (b.enter file.stem).addAll file.name file.instructions with
    | mk b₁ fault? =>
      cases fault? with
      | some fault => simp
      | none =>
        have hfile : ∃ b', (b₁, (none : Option Fault)) = (b', none) := ⟨b₁, rfl⟩
        rw [and_iff_right hfile]
        exact ih

/-- **A program is built exactly if none of its instructions is rejected**, with or without a
bootstrap. -/
theorem exists_build_iff : (∃ b, build name options files = .ok b) ↔
    ∀ file ∈ files, ∀ i ∈ file.instructions, rejection? i = none := by
  unfold build
  cases options.bootstrap with
  | true => exact exists_addFiles_iff
  | false =>
    rw [← exists_addFiles_iff (b := Builder.new name options.annotate)]
    simp only [Bool.false_eq_true, if_false]
    cases (Builder.new name options.annotate).addFiles files with
    | error fault => simp [bind, Except.bind]
    | ok b₁ => simp [bind, Except.bind, pure, Except.pure]

/-- A program with a rejected instruction is not built. -/
theorem exists_fault_of_rejected
    (h : ∃ file ∈ files, ∃ i ∈ file.instructions, rejection? i ≠ none) (name : String)
    (options : Options) : ∃ fault, build name options files = .error fault := by
  cases hbuild : build name options files with
  | error fault => exact ⟨fault, rfl⟩
  | ok b =>
    obtain ⟨file, hfile, i, hi, hrejected⟩ := h
    exact absurd (exists_build_iff.1 ⟨b, hbuild⟩ file hfile i hi) hrejected

end JackToolchain.Hack
