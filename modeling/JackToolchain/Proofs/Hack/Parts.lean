import JackToolchain.Proofs.Hack.Emission

/-!
# Files are lowered one by one

All files go into one program, whose counts of comparisons and calls run through it. Nothing else
goes from one file to the next: a file starts outside functions and under its own stem.

* `countIn`: how many instructions of some files are of a kind.
* `Builder.behind`: a new program whose counts do not start at 0.
* `addFile_of_counts`: what a file adds depends on the counts before it and on nothing else.
* `text_addFiles`: files add the parts that each of them adds to a new program.
* `text_of_build`: **a program is the bootstrap or the halt loop, and a part for each file, which
  is that of the file alone behind the counts of the files before it**.
-/

namespace JackToolchain.Hack

open Vm

variable {b b' d d' : Builder} {c : Context} {file : File} {files : List File}
  {is : List Instruction} {options : Options} {name : String}

/-! ## Counts -/

/-- How many instructions of some files are of a kind. -/
def countIn (kind : Instruction → Bool) (files : List File) : Nat :=
  (files.flatMap File.instructions).countP kind

theorem countIn_cons (kind : Instruction → Bool) (file : File) (files : List File) :
    countIn kind (file :: files) = file.instructions.countP kind + countIn kind files := by
  rw [countIn, List.flatMap_cons, List.countP_append]
  rfl

theorem comparisons_afterAll (c : Context) (is : List Instruction) :
    (c.afterAll is).comparisons = c.comparisons + is.countP Instruction.isComparison := by
  induction is generalizing c with
  | nil => rfl
  | cons i is ih =>
    have hrest : (c.afterAll (i :: is)).comparisons = ((c.after i).afterAll is).comparisons := rfl
    rw [hrest, ih, comparisons_after, List.countP_cons]
    omega

theorem calls_afterAll (c : Context) (is : List Instruction) :
    (c.afterAll is).calls = c.calls + is.countP Instruction.isCall := by
  induction is generalizing c with
  | nil => rfl
  | cons i is ih =>
    have hrest : (c.afterAll (i :: is)).calls = ((c.after i).afterAll is).calls := rfl
    rw [hrest, ih, calls_after, List.countP_cons]
    omega

/-! ## One file -/

/-- A new program, as if so many comparisons and calls had been lowered. -/
def Builder.behind (name : String) (annotate : Bool) (comparisons calls : Nat) : Builder :=
  { Builder.new name annotate with context := { stem := name, comparisons, calls } }

theorem text_of_extends {lines : List Line} (h : b.Extends b' c lines) :
    b'.text = b.text ++ assembly lines := by
  rw [Builder.text, h.lines, assembly_append]
  rfl

theorem extends_addFile (h : b.addFile file = (b', none)) :
    b.Extends b' ((b.context.enter file.stem).afterAll file.instructions)
      ((sites (b.context.enter file.stem) file.instructions).flatMap (Site.lines b.annotate)) := by
  have hextends := extends_addAll h
  exact ⟨hextends.annotate, hextends.context, hextends.lines⟩

/-- **What a file adds depends on the counts before it** and on whether the program is annotated,
and on nothing else that was made before. -/
theorem addFile_of_counts (hannotate : d.annotate = b.annotate)
    (hcomparisons : d.context.comparisons = b.context.comparisons)
    (hcalls : d.context.calls = b.context.calls) (h : b.addFile file = (b', none)) :
    ∃ d' part, d.addFile file = (d', none) ∧ b'.text = b.text ++ part ∧
      d'.text = d.text ++ part := by
  -- the file starts at the same place
  have hplace : d.context.enter file.stem = b.context.enter file.stem := by
    rw [Context.enter, Context.enter, hcomparisons, hcalls]
  obtain ⟨d', hd⟩ : ∃ d', d.addFile file = (d', none) :=
    (exists_addAll_iff file.name).2 ((exists_addAll_iff file.name).1 ⟨b', h⟩)
  have hb := text_of_extends (extends_addFile h)
  have hd' := text_of_extends (extends_addFile hd)
  rw [hplace, hannotate] at hd'
  exact ⟨d', _, hd, hb, hd'⟩

/-! ## All files -/

/-- A new program with the counts of a program that some files were added to. -/
def Builder.behindFiles (b : Builder) (other : String) (before : List File) : Builder :=
  .behind other b.annotate (b.context.comparisons + countIn Instruction.isComparison before)
    (b.context.calls + countIn Instruction.isCall before)

/-- A file adds to the counts as the instructions in it. -/
theorem behindFiles_cons (h : b.addFile file = (b', none)) (other : String) (before : List File) :
    b'.behindFiles other before = b.behindFiles other (file :: before) := by
  have hextends := extends_addFile h
  have hcomparisons : b'.context.comparisons =
      b.context.comparisons + file.instructions.countP Instruction.isComparison := by
    rw [hextends.context, comparisons_afterAll]
    rfl
  have hcalls : b'.context.calls =
      b.context.calls + file.instructions.countP Instruction.isCall := by
    rw [hextends.context, calls_afterAll]
    rfl
  unfold Builder.behindFiles
  rw [hextends.annotate, hcomparisons, hcalls, countIn_cons, countIn_cons, Nat.add_assoc,
    Nat.add_assoc]

/-- The first file adds what it adds to a new program with the same counts. -/
theorem addFile_behindFiles_nil (h : b.addFile file = (b', none)) (other : String) :
    ((b.behindFiles other []).addFile file).2 = none ∧
      b'.text = b.text ++ ((b.behindFiles other []).addFile file).1.text := by
  obtain ⟨d', part, hd, hb, hd'⟩ :=
    addFile_of_counts (b := b) (d := b.behindFiles other []) rfl rfl rfl h
  have hempty : (b.behindFiles other []).text = "" := rfl
  rw [hempty, String.empty_append] at hd'
  rw [hd]
  refine ⟨rfl, ?_⟩
  rw [hb, hd']

/-- Files add what each of them adds to a new program with the counts before it. -/
theorem text_addFiles (other : String) (h : b.addFiles files = .ok b') :
    (∀ i file, files[i]? = some file →
      ((b.behindFiles other (files.take i)).addFile file).2 = none) ∧
    b'.text = b.text ++ String.join (files.mapIdx fun i file =>
      ((b.behindFiles other (files.take i)).addFile file).1.text) := by
  induction files generalizing b with
  | nil =>
    cases h
    constructor
    · intro i file hfile
      cases hfile
    · rw [List.mapIdx_nil, String.join_nil, String.append_empty]
  | cons first files ih =>
    rw [Builder.addFiles] at h
    cases hfirst : b.addFile first with
    | mk b₁ fault? =>
      cases fault? with
      | some fault =>
        rw [hfirst] at h
        cases h
      | none =>
        rw [hfirst] at h
        obtain ⟨hnone, htext⟩ := ih h
        obtain ⟨hnone₀, htext₀⟩ := addFile_behindFiles_nil hfirst other
        -- behind the first file, the counts are those of the file and the files behind it
        simp only [behindFiles_cons hfirst] at hnone htext
        constructor
        · intro i file hfile
          cases i with
          | zero =>
            cases hfile
            exact hnone₀
          | succ i => exact hnone i file hfile
        · rw [htext, htext₀, List.mapIdx_cons, String.join_cons, String.append_assoc]
          rfl

/-- **Files are lowered independently of their neighbours.** The text of a program is the
bootstrap if there is one, then a part for each file in their order, and the halt loop if there is
no bootstrap. The part of a file is what the file alone adds to a new program, under any name, that
starts with the numbers of comparisons and calls in the files before it. -/
theorem text_of_build (h : build name options files = .ok b) (other : String) :
    let alone (i : Nat) : Builder :=
      .behind other options.annotate (countIn Instruction.isComparison (files.take i))
        (countIn Instruction.isCall (files.take i) + if options.bootstrap then 1 else 0)
    (∀ i file, files[i]? = some file → ((alone i).addFile file).2 = none) ∧
      b.text = (if options.bootstrap then (Builder.new name options.annotate).bootstrap.text
          else "") ++
        String.join (files.mapIdx fun i file => ((alone i).addFile file).1.text) ++
        (if options.bootstrap then "" else (Builder.new name options.annotate).halt.text) := by
  intro alone
  unfold build at h
  cases hboot : options.bootstrap with
  | true =>
    have hstart (i : Nat) :
        (Builder.new name options.annotate).bootstrap.behindFiles other (files.take i) =
          alone i := by
      simp [Builder.behindFiles, Builder.bootstrap, Builder.new, Builder.emit, Context.after, alone,
        hboot, Nat.add_comm]
    simp only [hboot, if_true] at h ⊢
    obtain ⟨hnone, htext⟩ := text_addFiles other h
    simp only [hstart] at hnone htext
    exact ⟨hnone, by rw [htext, String.append_empty]⟩
  | false =>
    have hstart (i : Nat) :
        (Builder.new name options.annotate).behindFiles other (files.take i) = alone i := by
      simp [Builder.behindFiles, Builder.new, alone, hboot]
    simp only [hboot, Bool.false_eq_true, if_false] at h ⊢
    cases hfiles : (Builder.new name options.annotate).addFiles files with
    | error fault =>
      rw [hfiles] at h
      cases h
    | ok b₁ =>
      rw [hfiles] at h
      cases h
      obtain ⟨hnone, htext⟩ := text_addFiles other hfiles
      simp only [hstart] at hnone htext
      refine ⟨hnone, ?_⟩
      have hempty : (Builder.new name options.annotate).text = "" := rfl
      rw [hempty] at htext
      rw [Builder.halt, text_emit, htext, Builder.halt, text_emit, hempty]
      rfl

/-- Behind a bootstrap and a file with a comparison and a call, a file starts outside functions. -/
theorem text_of_build_two_files :
    let first : File := ⟨"A.vm", "A", [.function "A.f" 0, .operate .eq, .call "A.f" 0]⟩
    let second : File := ⟨"B.vm", "B", [.label "L", .operate .lt, .call "A.f" 1, .goto "L"]⟩
    ∃ b, build "Out" ⟨true, false⟩ [first, second] = .ok b ∧
      b.text = (Builder.new "Out" false).bootstrap.text ++
        ((Builder.behind "X" false 0 1).addFile first).1.text ++
        ((Builder.behind "X" false 1 2).addFile second).1.text ∧
      ((Builder.behind "X" false 1 2).addFile second).1.lines.toList.head? =
        some (.label "B$L") := by
  intro first second
  obtain ⟨b, hb⟩ : ∃ b, build "Out" ⟨true, false⟩ [first, second] = .ok b := ⟨_, rfl⟩
  obtain ⟨-, htext⟩ := text_of_build hb "X"
  have hnone (kind : Instruction → Bool) : countIn kind [] = 0 := rfl
  have hcomparisons : countIn Instruction.isComparison [first] = 1 := by decide
  have hcalls : countIn Instruction.isCall [first] = 1 := by decide
  refine ⟨b, hb, ?_, by decide⟩
  simpa [hnone, hcomparisons, hcalls, String.append_assoc] using htext

end JackToolchain.Hack
