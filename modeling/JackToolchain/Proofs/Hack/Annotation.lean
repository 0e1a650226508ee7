import Mathlib.Data.List.Basic
import JackToolchain.Proofs.Hack.Rejection
import JackToolchain.Proofs.Vm.Canonical

/-!
# Annotated programs

An annotated program has a comment before the lines of each instruction. Whether a program is
annotated changes neither its code nor what is wrong with it: instructions are lowered for where
they stand, and the name in a comment never ends its row.

* `withoutComments`: a text without its comment rows.
* `rows_assembly`: the rows of a program are those of its lines.
* `map_context_build`: files are lowered alike, with or without annotation.
* `build_annotated`: **an annotated program is the plain one with one more row before the code of
  each instruction**.
-/

namespace JackToolchain.Text

variable {s t : String}

/-- The rows of a text, with a line feed between them. -/
def rows (text : String) : List String :=
  (text.toList.splitOn '\n').map String.ofList

/-- Whether a row is a comment. -/
def isCommentRow (row : String) : Bool :=
  ['/', '/'].isPrefixOf row.toList

/-- A text without its comment rows. -/
def withoutComments (text : String) : String :=
  "\n".intercalate ((rows text).filter (!isCommentRow ·))

theorem rows_append_newline (s t : String) : rows (s ++ "\n" ++ t) = rows s ++ rows t := by
  have htext : (s ++ "\n" ++ t).toList = s.toList ++ '\n' :: t.toList := by
    rw [String.toList_append, String.toList_append, List.append_assoc]
    rfl
  rw [rows, htext, List.splitOn_append_cons_self, List.map_append]
  rfl

theorem rows_eq_singleton (h : '\n' ∉ s.toList) : rows s = [s] := by
  rw [rows, List.splitOn_eq_singleton h, List.map_singleton, String.ofList_toList]

end JackToolchain.Text

namespace JackToolchain.Hack

open Vm Text Files

variable {b d : Builder} {i : Instruction} {files : List File} {name : String} {s : Site}

/-! ## The rows of a program -/

/-- The rows of a line. It has more than one if there are line feeds in its name. -/
def Line.rows (line : Line) : List String :=
  Text.rows line.text

/-- The rows of the code of an instruction. -/
def Site.codeRows (s : Site) : List String :=
  (s.lines false).flatMap Line.rows

theorem assembly_cons (line : Line) (program : List Line) :
    assembly (line :: program) = line.text ++ "\n" ++ assembly program := by
  rw [assembly, assembly, List.map_cons, String.join_cons]

/-- The rows of a program are those of its lines, and an empty one behind the last line feed. -/
theorem rows_assembly (program : List Line) :
    rows (assembly program) = program.flatMap Line.rows ++ [""] := by
  induction program with
  | nil => rfl
  | cons line program ih =>
    rw [assembly_cons, rows_append_newline, ih, List.flatMap_cons, List.append_assoc]
    rfl

/-- An instruction that can be written stands in one row. -/
theorem rows_comment (hi : i.Writable) : (Line.comment i.text).rows = ["// " ++ i.text] := by
  refine rows_eq_singleton fun hmem => ?_
  rw [Line.text, String.toList_append, Instruction.toList_text] at hmem
  rcases List.mem_append.1 hmem with hmem | hmem
  · exact absurd hmem (by decide)
  · exact not_mem_spaced hi (by decide) (by decide) hmem

/-- Annotation puts a row before the code of an instruction. -/
theorem rows_lines_annotated (hs : s.instruction.Writable) :
    (s.lines true).flatMap Line.rows = ("// " ++ s.instruction.text) :: s.codeRows := by
  have hlines : s.lines true = .comment s.instruction.text :: s.lines false := rfl
  rw [hlines, List.flatMap_cons, rows_comment hs]
  rfl

/-! ## Lowering with and without annotation -/

theorem context_note (b : Builder) (i : Instruction) : (b.note i).context = b.context := by
  rw [note_eq]
  rfl

/-- What an instruction is lowered to depends on where it stands. -/
theorem map_context_add (h : b.context = d.context) (i : Instruction) :
    (b.add i).map Builder.context = (d.add i).map Builder.context := by
  rw [Builder.add, Builder.add, h]
  cases lower d.context i <;> rfl

theorem map_context_addAll (h : b.context = d.context) (fileName : String)
    (is : List Instruction) :
    (b.addAll fileName is).map Builder.context id = (d.addAll fileName is).map Builder.context id := by
  induction is generalizing b d with
  | nil => exact congrArg (·, none) h
  | cons i is ih =>
    have hnoted : (b.note i).context = (d.note i).context := by
      rw [context_note, context_note, h]
    rw [Builder.addAll, Builder.addAll]
    rcases map_eq_map_iff.1 (map_context_add hnoted i) with ⟨cause, hb, hd⟩ | ⟨b₁, d₁, hb, hd, h₁⟩
    · rw [hb, hd]
      simp only [Prod.map, hnoted]
    · rw [hb, hd]
      exact ih h₁

theorem map_context_addFiles (h : b.context = d.context) (files : List File) :
    (b.addFiles files).map Builder.context = (d.addFiles files).map Builder.context := by
  induction files generalizing b d with
  | nil => exact congrArg Except.ok h
  | cons file files ih =>
    have henter : (b.enter file.stem).context = (d.enter file.stem).context := by
      rw [Builder.enter, Builder.enter, h]
    have hfile := map_context_addAll henter file.name file.instructions
    obtain ⟨hcontext, hfault⟩ := Prod.ext_iff.1 hfile
    rw [Builder.addFiles, Builder.addFiles, Builder.addFile, Builder.addFile]
    cases hb : (b.enter file.stem).addAll file.name file.instructions with
    | mk b₁ fault? =>
      cases hd : (d.enter file.stem).addAll file.name file.instructions with
      | mk d₁ fault?' =>
        rw [hb, hd] at hcontext hfault
        obtain rfl : fault? = fault?' := hfault
        cases fault? with
        | some fault => rfl
        | none => exact ih hcontext

/-- **Files are lowered alike, with or without annotation**: to the same fault, or with the same
counts behind them. -/
theorem map_context_build (name : String) (bootstrap : Bool) (files : List File) :
    (build name ⟨bootstrap, true⟩ files).map Builder.context =
      (build name ⟨bootstrap, false⟩ files).map Builder.context := by
  unfold build
  cases bootstrap with
  | true =>
    have hstart : (Builder.new name true).bootstrap.context =
        (Builder.new name false).bootstrap.context := rfl
    exact map_context_addFiles hstart files
  | false =>
    have hstart : (Builder.new name true).context = (Builder.new name false).context := rfl
    have hfiles := map_context_addFiles hstart files
    simp only [Bool.false_eq_true, if_false]
    rcases map_eq_map_iff.1 hfiles with ⟨fault, hb, hd⟩ | ⟨b₁, d₁, hb, hd, h₁⟩
    · rw [hb, hd]
    · rw [hb, hd]
      exact congrArg Except.ok h₁

/-! ## The texts -/

/-- The rows of a program are those before its instructions, those of its instructions and those
behind them. -/
theorem rows_text {options : Options} (h : build name options files = .ok b) :
    rows b.text = (openingLines name options).flatMap Line.rows ++
      (fileSites (startContext name options) files).flatMap
        (fun s => (s.lines options.annotate).flatMap Line.rows) ++
      ((closingLines options).flatMap Line.rows ++ [""]) := by
  rw [Builder.text, rows_assembly, toList_lines_of_build h, List.flatMap_append,
    List.flatMap_append, List.flatMap_assoc, List.append_assoc]

theorem mem_of_mem_fileSites {c : Context} (hs : s ∈ fileSites c files) :
    ∃ file ∈ files, s.instruction ∈ file.instructions := by
  have hmem : s.instruction ∈ files.flatMap File.instructions := by
    rw [← map_instruction_fileSites c files]
    exact List.mem_map_of_mem hs
  exact List.mem_flatMap.1 hmem

/-- The lines of an instruction are its code if it is not rejected. -/
theorem lower_eq_lines (hs : rejection? s.instruction = none) :
    lower s.context s.instruction = .ok (s.lines false) := by
  obtain ⟨lines, hlines⟩ := exists_lower_iff.2 hs
  rw [hlines, Site.lines, hlines]
  rfl

/-- A row that is a comment is removed, whatever is written in it. -/
theorem filter_comment_cons (i : Instruction) (rest : List String) :
    (("// " ++ i.text) :: rest).filter (!isCommentRow ·) = rest.filter (!isCommentRow ·) := by
  have hcomment : isCommentRow ("// " ++ i.text) = true := by
    rw [isCommentRow, String.toList_append]
    rfl
  rw [List.filter_cons_of_neg]
  rw [hcomment]
  decide

theorem filter_annotated (opening closing : List String) (sites : List Site) :
    (opening ++ sites.flatMap (fun s => ("// " ++ s.instruction.text) :: s.codeRows) ++
      closing).filter (!isCommentRow ·) =
    (opening ++ sites.flatMap Site.codeRows ++ closing).filter (!isCommentRow ·) := by
  simp only [List.filter_append, List.filter_flatMap, filter_comment_cons]

/-- What annotation makes of a program of some files. -/
structure Annotates (files : List File) (annotated plain : Builder) : Prop where
  comparisons : annotated.context.comparisons = plain.context.comparisons
  calls : annotated.context.calls = plain.context.calls
  text : withoutComments annotated.text = withoutComments plain.text
  /-- Each instruction stands in a row in front of its code, and there are no other new rows. -/
  rows : ∃ (opening closing : List String) (sites : List Site),
    sites.map Site.instruction = files.flatMap File.instructions ∧
    (∀ s ∈ sites, lower s.context s.instruction = .ok (s.lines false)) ∧
    rows plain.text = opening ++ sites.flatMap Site.codeRows ++ closing ∧
    rows annotated.text = opening ++
      sites.flatMap (fun s => ("// " ++ s.instruction.text) :: s.codeRows) ++ closing

/-- **Annotation never changes the code.** Files that were read give the same fault with it and
without it, or two programs of the same code. -/
theorem build_annotated (name : String) (bootstrap : Bool)
    (hfiles : ∀ file ∈ files, ∃ source, File.read source = .ok file) :
    (∃ fault, build name ⟨bootstrap, true⟩ files = .error fault ∧
      build name ⟨bootstrap, false⟩ files = .error fault) ∨
    ∃ annotated plain, build name ⟨bootstrap, true⟩ files = .ok annotated ∧
      build name ⟨bootstrap, false⟩ files = .ok plain ∧ Annotates files annotated plain := by
  rcases map_eq_map_iff.1 (map_context_build name bootstrap files) with hfault |
    ⟨annotated, plain, hannotated, hplain, hcontext⟩
  · exact .inl hfault
  have hrows := rows_text hannotated
  have hwritten : ∀ s ∈ fileSites (startContext name ⟨bootstrap, true⟩) files,
      (s.lines true).flatMap Line.rows = ("// " ++ s.instruction.text) :: s.codeRows := by
    intro s hs
    obtain ⟨file, hfile, hi⟩ := mem_of_mem_fileSites hs
    obtain ⟨source, hread⟩ := hfiles file hfile
    exact rows_lines_annotated (writable_of_read hread _ hi)
  rw [List.flatMap_congr hwritten] at hrows
  have hcode : rows plain.text = _ ++ List.flatMap Site.codeRows _ ++ _ := rows_text hplain
  refine .inr ⟨annotated, plain, hannotated, hplain, by rw [hcontext], by rw [hcontext], ?_, _, _, _,
    map_instruction_fileSites _ files, ?_, hcode, hrows⟩
  · rw [withoutComments, withoutComments, hrows, hcode, filter_annotated]
    rfl
  · intro s hs
    obtain ⟨file, hfile, hi⟩ := mem_of_mem_fileSites hs
    exact lower_eq_lines (exists_build_iff.1 ⟨plain, hplain⟩ file hfile _ hi)

/-- A call and a comparison, behind a bootstrap. -/
theorem build_annotated_counts :
    ∃ file annotated plain, File.read ⟨"Main.vm", "Main", "call Main.f 2 // a/b\n\teq"⟩ = .ok file ∧
      build "Main" ⟨true, true⟩ [file] = .ok annotated ∧
      build "Main" ⟨true, false⟩ [file] = .ok plain ∧ Annotates [file] annotated plain ∧
      plain.context.calls = 2 ∧ plain.context.comparisons = 1 ∧
      "// call Main.f 2" ∈ rows annotated.text := by
  obtain ⟨file, hfile⟩ : ∃ file : File,
      file = ⟨"Main.vm", "Main", [.call "Main.f" 2, .operate .eq]⟩ := ⟨_, rfl⟩
  have hread : File.read ⟨"Main.vm", "Main", "call Main.f 2 // a/b\n\teq"⟩ = .ok file := by
    rw [hfile]
    exact toOption_eq_some_iff.1 (by decide +kernel)
  have hcounts : (build "Main" ⟨true, false⟩ [file]).toOption.map
      (fun b => (b.context.calls, b.context.comparisons)) = some (2, 1) := by
    rw [hfile]
    decide
  have hfiles : ∀ f ∈ [file], ∃ source, File.read source = .ok f :=
    List.forall_mem_singleton.2 ⟨_, hread⟩
  rcases build_annotated "Main" true hfiles with
    ⟨fault, -, hplain⟩ | ⟨annotated, plain, hannotated, hplain, hsame⟩
  · rw [hplain] at hcounts
    cases hcounts
  · rw [hplain] at hcounts
    obtain ⟨hcalls, hcomparisons⟩ := Prod.mk.inj (Option.some.inj hcounts)
    refine ⟨file, annotated, plain, hread, hannotated, hplain, hsame, hcalls, hcomparisons, ?_⟩
    obtain ⟨opening, closing, sites, hsites, -, -, hrows⟩ := hsame.rows
    have hcall : .call "Main.f" 2 ∈ sites.map Site.instruction := by
      rw [hsites, hfile]
      decide
    obtain ⟨s, hs, hcall⟩ := List.mem_map.1 hcall
    rw [hrows]
    refine List.mem_append_left _ (List.mem_append_right _ (List.mem_flatMap.2 ⟨s, hs, ?_⟩))
    rw [hcall]
    exact List.mem_cons_self

end JackToolchain.Hack
