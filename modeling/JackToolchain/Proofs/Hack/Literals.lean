import Mathlib.Data.List.Basic
import JackToolchain.Proofs.Hack.Access
import JackToolchain.Proofs.Hack.Rejection

/-!
# The numbers that a program loads

An address instruction can load a number up to `maxLiteral`. A program loads its constants, the
indices of cells that are reached through a base register, the addresses of `temp` and the sizes
of frames. Only a constant and an index of `temp` are checked before they are written.

* `addressed`: the numbers that the lines of an instruction load.
* `literals_of_build`: a program loads the numbers of its instructions and of its bootstrap.
* `literals_le_iff`: **a program loads no number that is too large exactly if its indices and
  its argument counts are not**, and anything else that is too large is rejected.
* `unloadable_index`: a program that loads a number that is too large.
-/

namespace JackToolchain.Hack

open Vm Files

/-- The number that an operand stands for by itself. -/
def Operand.literal? : Operand → Option Nat
  | .literal n => some n
  | .symbol _ => none

/-- The number that a line loads. -/
def Line.literal? : Line → Option Nat
  | .address operand => operand.literal?
  | _ => none

/-- The numbers that lines load. -/
def literals (lines : List Line) : List Nat :=
  lines.filterMap Line.literal?

/-- The number that is loaded to reach an index in a place. -/
def Place.literal? (index : Nat) : Place → Option Nat
  | .immediate | .based _ => some index
  | .fixed cell => cell.literal?

/-- The number that is loaded to reach a segment's index. -/
def accessLiteral? : Segment → Nat → Option Nat
  | .constant, n | .local, n | .argument, n | .this, n | .that, n => some n
  | .temp, n => some (tempBase + n)
  | .static, _ | .pointer, _ => none

/-- The numbers that the lines of an instruction load. A return reads the words of the frame
one by one. -/
def addressed : Instruction → List Nat
  | .push segment n | .pop segment n => (accessLiteral? segment n).toList
  | .call _ n => [frameSize + n]
  | .return => [frameSize, 1, 2, 3, 4]
  | _ => []

/-- The numbers among them that nothing checks. -/
def unchecked : Instruction → List Nat
  | .push segment n | .pop segment n =>
    match segment with
    | .local | .argument | .this | .that => [n]
    | .constant | .static | .pointer | .temp => []
  | .call _ n => [frameSize + n]
  | _ => []

variable {c : Context} {i : Instruction} {segment : Segment} {n : Nat} {lines : List Line}
  {s : Site} {name : String} {options : Options} {b : Builder} {files : List File}

/-! ## One instruction -/

theorem literals_append (lines more : List Line) :
    literals (lines ++ more) = literals lines ++ literals more :=
  List.filterMap_append

theorem literals_flatMap {α : Type} (xs : List α) (f : α → List Line) :
    literals (xs.flatMap f) = xs.flatMap fun x => literals (f x) :=
  List.filterMap_flatMap ..

theorem accessLiteral?_of_place {p : Place} (h : place c segment n = .ok p) :
    accessLiteral? segment n = p.literal? n := by
  unfold place at h
  cases segment with
  | constant | «local» | argument | this | that | static =>
    cases h
    rfl
  | pointer =>
    match n with
    | 0 | 1 =>
      cases h
      rfl
    | n + 2 => cases h
  | temp =>
    by_cases hn : n < tempSize
    · obtain rfl : Place.fixed (.literal (tempBase + n)) = p := by simpa [hn] using h
      rfl
    · simp [hn] at h

theorem literals_lowerPush (h : lowerPush c segment n = .ok lines) :
    literals lines = (accessLiteral? segment n).toList := by
  obtain ⟨rfl, rfl⟩ | ⟨register, hplace, rfl⟩ | ⟨cell, hplace, rfl⟩ := lowerPush_cases h
  · rfl
  · rw [accessLiteral?_of_place hplace]
    rfl
  · rw [accessLiteral?_of_place hplace]
    cases cell <;> rfl

theorem literals_lowerPop (h : lowerPop c segment n = .ok lines) :
    literals lines = (accessLiteral? segment n).toList := by
  obtain ⟨register, hplace, rfl⟩ | ⟨cell, hplace, rfl⟩ := lowerPop_cases h
  · rw [accessLiteral?_of_place hplace]
    rfl
  · rw [accessLiteral?_of_place hplace]
    cases cell <;> rfl

/-- A function sets its local variables to zero without a number. -/
theorem literals_lowerFunction (function : String) (locals : Nat) :
    literals (lowerFunction function locals) = [] := by
  induction locals with
  | zero => rfl
  | succ locals ih =>
    have hrest : literals (List.replicate locals (.assign .d .zero :: pushD)).flatten = [] := ih
    rw [lowerFunction, List.replicate_succ, List.flatten_cons]
    exact hrest

theorem literals_lower (h : lower c i = .ok lines) : literals lines = addressed i := by
  cases i with
  | push segment n => exact literals_lowerPush h
  | pop segment n => exact literals_lowerPop h
  | function function locals =>
    cases h
    exact literals_lowerFunction function locals
  | operate operator =>
    cases h
    cases operator <;> rfl
  | label _ | goto _ | ifGoto _ | call _ _ | «return» =>
    cases h
    rfl

theorem literals_lines (annotate : Bool) (h : rejection? s.instruction = none) :
    literals (s.lines annotate) = addressed s.instruction := by
  obtain ⟨lines, hlines⟩ := exists_lower_iff (c := s.context).2 h
  have hcomment : literals (if annotate then [.comment s.instruction.text] else []) = [] := by
    cases annotate <;> rfl
  rw [Site.lines, hlines, literals_append, hcomment]
  exact literals_lower hlines

/-- A number of an instruction that has lines is small enough, or nothing has checked it. -/
theorem le_of_mem_addressed (h : rejection? i = none) (hn : n ∈ addressed i) :
    n ≤ maxLiteral ∨ n ∈ unchecked i := by
  have htemp : ∀ m < tempSize, tempBase + m ≤ maxLiteral := by decide
  cases i with
  | push segment m =>
    cases segment with
    | constant =>
      have hm : m ≤ maxLiteral := by simpa [rejection?] using h
      exact .inl (List.mem_singleton.1 hn ▸ hm)
    | temp =>
      have hm : m < tempSize := by simpa [rejection?] using h
      exact .inl (List.mem_singleton.1 hn ▸ htemp m hm)
    | static | pointer => cases hn
    | argument | «local» | this | that => exact .inr hn
  | pop segment m =>
    cases segment with
    | constant => cases h
    | temp =>
      have hm : m < tempSize := by simpa [rejection?] using h
      exact .inl (List.mem_singleton.1 hn ▸ htemp m hm)
    | static | pointer => cases hn
    | argument | «local» | this | that => exact .inr hn
  | call function m => exact .inr hn
  | «return» =>
    have hframe : ∀ n ∈ addressed .return, n ≤ maxLiteral := by decide
    exact .inl (hframe n hn)
  | operate _ | label _ | goto _ | ifGoto _ | function _ _ => cases hn

theorem mem_addressed_of_unchecked (hn : n ∈ unchecked i) : n ∈ addressed i := by
  cases i with
  | push segment m | pop segment m =>
    cases segment with
    | constant | static | pointer | temp => cases hn
    | argument | «local» | this | that => exact hn
  | call function m => exact hn
  | _ => cases hn

/-! ## Programs -/

/-- The numbers of the bootstrap are the first cell of the stack and the size of a frame. -/
theorem literals_openingLines (name : String) (options : Options) :
    literals (openingLines name options) =
      if options.bootstrap then [stackBase, frameSize] else [] := by
  unfold openingLines
  cases options.bootstrap <;> rfl

theorem literals_closingLines (options : Options) : literals (closingLines options) = [] := by
  unfold closingLines
  cases options.bootstrap <;> rfl

/-- **A program loads the numbers of its instructions** in their order, behind those of the
bootstrap. -/
theorem literals_of_build (h : build name options files = .ok b) :
    literals b.lines.toList =
      (if options.bootstrap then [stackBase, frameSize] else []) ++
        (files.flatMap File.instructions).flatMap addressed := by
  -- an instruction of a program that is built is not rejected, so its numbers are known
  have haccepted := exists_build_iff.1 ⟨b, h⟩
  have hlines : ∀ s ∈ fileSites (startContext name options) files,
      literals (s.lines options.annotate) = addressed s.instruction := by
    intro s hs
    have hmem : s.instruction ∈ files.flatMap File.instructions := by
      rw [← map_instruction_fileSites (startContext name options)]
      exact List.mem_map_of_mem hs
    obtain ⟨file, hfile, hi⟩ := List.mem_flatMap.1 hmem
    exact literals_lines options.annotate (haccepted file hfile _ hi)
  rw [toList_lines_of_build h, literals_append, literals_append, literals_openingLines,
    literals_closingLines, List.append_nil, literals_flatMap, List.flatMap_congr hlines,
    ← map_instruction_fileSites (startContext name options), List.flatMap_map]

/-- A program that needs a number that is too large is rejected, if the number is checked. -/
theorem exists_fault_of_addressed {file : File} (hfile : file ∈ files)
    (hi : i ∈ file.instructions) (hn : n ∈ addressed i) (hlarge : maxLiteral < n)
    (hchecked : n ∉ unchecked i) : ∃ fault, build name options files = .error fault := by
  cases hb : build name options files with
  | error fault => exact ⟨fault, rfl⟩
  | ok b =>
    have hnone := exists_build_iff.1 ⟨b, hb⟩ file hfile i hi
    rcases le_of_mem_addressed hnone hn with hle | hmem
    · omega
    · exact absurd hmem hchecked

/-- The numbers that a program loads are as small as those that are not checked. -/
theorem forall_literals_le_iff (h : build name options files = .ok b) :
    (∀ n ∈ literals b.lines.toList, n ≤ maxLiteral) ↔
      ∀ file ∈ files, ∀ i ∈ file.instructions, ∀ n ∈ unchecked i, n ≤ maxLiteral := by
  have haccepted := exists_build_iff.1 ⟨b, h⟩
  rw [literals_of_build h]
  constructor
  · intro hle file hfile i hi n hn
    refine hle n (List.mem_append_right _ ?_)
    refine List.mem_flatMap.2 ⟨i, List.mem_flatMap.2 ⟨file, hfile, hi⟩, ?_⟩
    exact mem_addressed_of_unchecked hn
  · intro hle n hn
    -- the numbers of the bootstrap are fixed, and the others are those of the instructions
    rcases List.mem_append.1 hn with hn | hn
    · have hbootstrap : ∀ n ∈ [stackBase, frameSize], n ≤ maxLiteral := by decide
      split at hn
      · exact hbootstrap n hn
      · cases hn
    · obtain ⟨i, hi, hn⟩ := List.mem_flatMap.1 hn
      obtain ⟨file, hfile, hi⟩ := List.mem_flatMap.1 hi
      rcases le_of_mem_addressed (haccepted file hfile i hi) hn with hsmall | hmem
      · exact hsmall
      · exact hle file hfile i hi n hmem

/-- **A program loads no number that is too large exactly if its indices and its argument
counts are small enough**, and a program that needs any other number that is too large is
rejected. -/
theorem literals_le_iff (name : String) (options : Options) (files : List File) :
    (∀ file ∈ files, ∀ i ∈ file.instructions, ∀ n ∈ addressed i, maxLiteral < n →
      n ∉ unchecked i → ∃ fault, build name options files = .error fault) ∧
    ∀ b, build name options files = .ok b →
      ((∀ n ∈ literals b.lines.toList, n ≤ maxLiteral) ↔
        ∀ file ∈ files, ∀ i ∈ file.instructions, ∀ n ∈ unchecked i, n ≤ maxLiteral) := by
  constructor
  · intro file hfile i hi n hn hlarge hchecked
    exact exists_fault_of_addressed hfile hi hn hlarge hchecked
  · intro b hb
    exact forall_literals_le_iff hb

/-- The largest index and the largest argument count that a program can load. -/
theorem literals_le_iff_largest :
    let files : List File :=
      [⟨"Main.vm", "Main", [.push .constant 32767, .pop .local 32767, .call "Main.f" 32762]⟩]
    ∃ b, build "Main" ⟨true, false⟩ files = .ok b ∧
      literals b.lines.toList = [256, 5, 32767, 32767, 32767] ∧
      ∀ n ∈ literals b.lines.toList, n ≤ maxLiteral := by
  intro files
  obtain ⟨b, hb⟩ := exists_build (show (build "Main" ⟨true, false⟩ files).toOption.isSome by
    decide +kernel)
  refine ⟨b, hb, literals_of_build hb, ?_⟩
  exact ((literals_le_iff "Main" ⟨true, false⟩ files).2 b hb).2 (by decide)

/-- **An index can be too large to be loaded** and still be read and lowered. -/
theorem unloadable_index :
    let source : Source := ⟨"Main.vm", "Main", "function Main.f 0\npush local 40000\n"⟩
    let file : File := ⟨"Main.vm", "Main", [.function "Main.f" 0, .push .local 40000]⟩
    File.read source = .ok file ∧ ∃ b, build "Main" ⟨false, false⟩ [file] = .ok b ∧
      40000 ∈ literals b.lines.toList ∧ maxLiteral < 40000 := by
  intro source file
  have hread : (File.read source).toOption = some file := by decide +kernel
  obtain ⟨b, hb⟩ := exists_build (show (build "Main" ⟨false, false⟩ [file]).toOption.isSome by
    decide +kernel)
  refine ⟨?_, b, hb, ?_, by decide⟩
  · cases hfile : File.read source with
    | error fault =>
      rw [hfile] at hread
      cases hread
    | ok file' =>
      rw [hfile] at hread
      exact congrArg Except.ok (Option.some.inj hread)
  · rw [literals_of_build hb]
    decide

end JackToolchain.Hack
