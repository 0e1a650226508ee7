import JackToolchain.Proofs.Outcome
import JackToolchain.Proofs.Vm.Listing

/-!
# The written form of a program

A text that is read may have any blanks, comments and spellings of its numbers. What is read
from it can always be written, and its listing is read as the same program.

* `Row.writable_of_read`: an instruction that is read can be written.
* `listing_canonical`: **a listing is the written form of its program**, whether the program is
  given or read.
-/

namespace JackToolchain.Vm

open Text Files

variable {i : Instruction} {n k offset : Nat} {r : Row} {part : MissingPart} {field : TextField}
  {name : String} {content : String}

/-! ## Fields -/

/-- A number that is read can be written. -/
theorem le_of_number? {digits : String} (h : number? digits = some n) : n ≤ maxNumber := by
  obtain ⟨-, hn⟩ := Option.filter_eq_some_iff.1 h
  exact of_decide_eq_true hn

namespace Row

theorem mem_of_operand {index : Nat} (h : r.operand index part = .ok field) :
    field ∈ r.operands := by
  unfold operand at h
  split at h
  · next heq =>
    cases h
    exact List.mem_of_getElem? heq
  · cases h

theorem exists_of_name (h : r.name part = .ok name) : ∃ field ∈ r.operands, field.text = name := by
  obtain ⟨field, hfield, h⟩ := bind_eq_ok_iff.1 h
  exact ⟨field, mem_of_operand hfield, Except.ok.inj h⟩

theorem le_of_number (h : r.number part = .ok n) : n ≤ maxNumber := by
  obtain ⟨field, -, h⟩ := bind_eq_ok_iff.1 h
  split at h
  · next heq =>
    cases h
    exact le_of_number? heq
  · cases h

/-- The name and the number of an instruction are those of its operands. -/
theorem writable_of_instruction (hr : ∀ field ∈ r.operands, IsField field.text)
    (h : r.instruction = .ok (i, k)) : i.Writable := by
  have hfield {part : MissingPart} {name : String} (hn : r.name part = .ok name) :
      IsField name := by
    obtain ⟨field, hfield, rfl⟩ := exists_of_name hn
    exact hr field hfield
  unfold instruction at h
  split at h
  case h_1 | h_2 =>
    obtain ⟨segment, -, h⟩ := bind_eq_ok_iff.1 h
    obtain ⟨n, hn, h⟩ := bind_eq_ok_iff.1 h
    cases h
    exact ⟨nofun, fun m hm => Option.some.inj hm ▸ le_of_number hn⟩
  case h_3 | h_4 | h_5 =>
    obtain ⟨name, hname, h⟩ := bind_eq_ok_iff.1 h
    cases h
    exact ⟨fun m hm => Option.some.inj hm ▸ hfield hname, nofun⟩
  case h_6 | h_7 =>
    obtain ⟨name, hname, h⟩ := bind_eq_ok_iff.1 h
    obtain ⟨n, hn, h⟩ := bind_eq_ok_iff.1 h
    cases h
    exact ⟨fun m hm => Option.some.inj hm ▸ hfield hname,
      fun m hm => Option.some.inj hm ▸ le_of_number hn⟩
  case h_8 =>
    cases h
    exact ⟨nofun, nofun⟩
  case h_9 =>
    split at h
    · cases h
      exact ⟨nofun, nofun⟩
    · cases h

/-- An instruction that is read can be written. -/
theorem writable_of_read (hr : ∀ field ∈ r.operands, IsField field.text) (h : r.read = .ok i) :
    i.Writable := by
  obtain ⟨⟨j, k⟩, hj, h⟩ := bind_eq_ok_iff.1 h
  dsimp only at h
  split at h
  · cases h
  · cases h
    exact writable_of_instruction hr hj

end Row

/-! ## Lines -/

theorem writable_of_mem_readLines {ls : List (List Char)} (h : .ok i ∈ readLines offset ls) :
    i.Writable := by
  induction ls generalizing offset with
  | nil => cases h
  | cons line ls ih =>
    rw [readLines] at h
    split at h
    · exact ih h
    · next command operands hfields =>
      rcases List.mem_cons.1 h with hread | h
      · refine Row.writable_of_read (fun field hfield => ?_) hread.symm
        have hmem : field ∈ fields offset (beforeComment line) := by
          rw [hfields]
          exact List.mem_cons_of_mem _ hfield
        exact isField_of_mem_fields (no_comment_beforeComment line) hmem
      · exact ih h

/-- The instructions of a file are the outcomes of its lines. -/
theorem read_eq_ok_iff {source : Source} {file : File} : File.read source = .ok file ↔
    file.name = source.name ∧ file.stem = source.stem ∧
      readText source.content = file.instructions.map .ok := by
  unfold File.read
  rw [bind_eq_ok_iff]
  constructor
  · rintro ⟨program, hprogram, h⟩
    cases h
    exact ⟨rfl, rfl, mapM_id_eq_ok_iff.1 hprogram⟩
  · obtain ⟨fileName, stem, program⟩ := file
    rintro ⟨rfl, rfl, h⟩
    exact ⟨program, mapM_id_eq_ok_iff.2 h, rfl⟩

/-- Every instruction of a file that is read can be written. -/
theorem writable_of_read {source : Source} {file : File} (h : File.read source = .ok file) :
    ∀ i ∈ file.instructions, i.Writable := by
  obtain ⟨-, -, htext⟩ := read_eq_ok_iff.1 h
  intro i hi
  have hmem : .ok i ∈ readText source.content := by
    rw [htext]
    exact List.mem_map_of_mem hi
  exact writable_of_mem_readLines hmem

/-- **The line format is faithful.** A program whose names and numbers can be written is read
from its listing, which is the text of its file as it stands. A text that is read gives a
program of this kind, so the listing is the one written form of all texts that are read as it. -/
theorem listing_canonical (name stem : String) :
    (∀ program : List Instruction, (∀ i ∈ program, i.Writable) →
      String.ofList (unixNewlines (listing program).toList) = listing program ∧
        File.read ⟨name, stem, listing program⟩ = .ok ⟨name, stem, program⟩) ∧
    ∀ content file, File.read ⟨name, stem, content⟩ = .ok file →
      File.read ⟨name, stem, listing file.instructions⟩ = .ok file := by
  constructor
  · intro program hprogram
    refine ⟨?_, read_eq_ok_iff.2 ⟨rfl, rfl, readText_listing hprogram⟩⟩
    rw [unixNewlines_listing hprogram, String.ofList_toList]
  · intro content file hfile
    obtain ⟨hname, hstem, -⟩ := read_eq_ok_iff.1 hfile
    exact read_eq_ok_iff.2 ⟨hname, hstem, readText_listing (writable_of_read hfile)⟩

/-- Blanks of other kinds, a name with a slash at its end, a number with a sign and zeros in front,
and a comment that is cut off a field. -/
theorem listing_canonical_spellings :
    ∃ file, File.read ⟨"Main.vm", "Main",
        "\tlabel\u00a0a/ // a loop\r\n\n  push  local +007//8\n"⟩ = .ok file ∧
      (∀ i ∈ file.instructions, i.Writable) ∧
      listing file.instructions = "label a/\npush local 7\n" ∧
      File.read ⟨"Main.vm", "Main", listing file.instructions⟩ = .ok file := by
  obtain ⟨file, hfile⟩ : ∃ file : File,
      file = ⟨"Main.vm", "Main", [.label "a/", .push .local 7]⟩ := ⟨_, rfl⟩
  have hread : File.read ⟨"Main.vm", "Main",
      "\tlabel\u00a0a/ // a loop\r\n\n  push  local +007//8\n"⟩ = .ok file := by
    rw [hfile]
    exact toOption_eq_some_iff.1 (by decide +kernel)
  have hlisting : listing file.instructions = "label a/\npush local 7\n" := by
    rw [hfile]
    decide +kernel
  exact ⟨file, hread, writable_of_read hread, hlisting,
    (listing_canonical "Main.vm" "Main").2 _ file hread⟩

end JackToolchain.Vm
