import JackToolchain.Jack.Program
import JackToolchain.Proofs.Jack.Blocks
import JackToolchain.Proofs.Outcome
import JackToolchain.Proofs.Vm.Listing

/-!
# Compiled code as a text

Names go from a source text to the lines of its code as they are. What separates words in
the one also does in the other, so each stays one word.

* `IsPlain.isField`: a word of a source text is a word of a line.
* `writable_of_mem_code`: every instruction of compiled code can be written.
* `compile_listing`: **a compiled class is read back from its listing**.
-/

namespace JackToolchain.Jack

open Text Vm Files

variable {h : Header} {i : Instruction}

/-- A word of a source text is a word of a line. -/
theorem IsPlain.isField {word : String} (hw : IsPlain word) : IsField word := by
  refine .of_no_slash hw.ne_empty ?_ ?_
  · intro c hc
    have hplain := hw.plain c hc
    simp only [isSeparator, Bool.or_eq_false_iff] at hplain
    exact hplain.1.1
  · intro hslash
    exact absurd (hw.plain '/' hslash) (by decide)

theorem toList_qualifiedName (type name : String) :
    (qualifiedName type name).toList = type.toList ++ '.' :: name.toList := by
  rw [qualifiedName, String.toList_append, String.toList_append, List.append_assoc]
  rfl

theorem isField_qualifiedName {type name : String} (ht : IsPlain type) (hn : IsPlain name) :
    IsField (qualifiedName type name) := by
  have htype := ht.isField
  have hname := hn.isField
  have hslash {word : String} (hw : IsPlain word) : '/' ∉ word.toList :=
    fun hmem => absurd (hw.plain '/' hmem) (by decide)
  refine .of_no_slash ?_ ?_ ?_
  · rw [toList_qualifiedName]
    exact List.append_ne_nil_of_left_ne_nil htype.ne_empty _
  · rw [toList_qualifiedName, List.forall_mem_append, List.forall_mem_cons]
    exact ⟨htype.no_blank, by decide, hname.no_blank⟩
  · rw [toList_qualifiedName, List.mem_append, List.mem_cons]
    rintro (hmem | hmem | hmem)
    · exact hslash ht hmem
    · exact absurd hmem (by decide)
    · exact hslash hn hmem

theorem isField_label (k : Mark) (n : Nat) : IsField (k.label n) := by
  have htext := isSimple_iff.1 (show isSimple k.text by cases k <;> decide)
  have hchars : (k.label n).toList = k.text.toList ++ (toString n).toList := String.toList_append
  refine .of_no_slash ?_ ?_ ?_
  · rw [hchars]
    exact List.append_ne_nil_of_left_ne_nil htext.1 _
  · rw [hchars, List.forall_mem_append]
    exact ⟨htext.2.1, fun c hc => isBlank_of_isDigit (isDigit_of_mem_toString hc)⟩
  · rw [hchars, List.mem_append]
    rintro (hmem | hmem)
    · exact htext.2.2 hmem
    · exact not_mem_toString (by decide) n hmem

theorem isField_library {name : String} {n : Nat} (hc : (name, n) ∈ libraryCalls) :
    IsField name := by
  have hall : ∀ c ∈ libraryCalls, isSimple c.1 := by decide
  have hname : isSimple name := hall (name, n) hc
  exact .of_isSimple hname

/-- Every name in the code of statements can be written. -/
theorem Emits.isField (hi : Emits h i) {name : String} (hn : i.name? = some name) :
    IsField name := by
  cases hi with
  | library hc =>
    cases hn
    exact isField_library hc
  | call ht hm hb =>
    cases hn
    exact isField_qualifiedName ht hm
  | label k n =>
    cases hn
    exact isField_label k n
  | goto k n =>
    cases hn
    exact isField_label k n
  | ifGoto k n =>
    cases hn
    exact isField_label k n
  | scratch hi =>
    have hnone : ∀ i ∈ scratchAccesses, i.name? = none := by decide
    rw [hnone i hi] at hn
    cases hn
  | _ => cases hn

/-- Every name in the code of a subroutine can be written. -/
theorem Subroutine.Emitted.isField {s : Subroutine} (hs : s.Emitted) (hi : i ∈ s.code)
    {name : String} (hn : i.name? = some name) : IsField name := by
  rcases Subroutine.mem_code hi with hframe | hi
  · cases hframe with
    | function =>
      cases hn
      exact isField_qualifiedName hs.plain.className hs.name
    | allocate =>
      cases hn
      exact .of_isSimple (by decide)
    | _ => cases hn
  · exact (hs.body i hi).isField hn

/-- Every instruction of compiled code can be written. -/
theorem writable_of_mem_code {source : Source} {p : Program} (hp : compile source = .ok p) :
    ∀ i ∈ p.instructions, i.Writable := by
  obtain ⟨d, hd, rfl⟩ := ofTokens_eq_ok_iff.1 hp
  intro i hi
  obtain ⟨s, hs, hcode⟩ := List.mem_flatMap.1 hi
  have hemitted := emitted_of_class? (toOption_eq_some_iff.2 hd) s hs
  exact ⟨fun name hn => hemitted.isField hcode hn, hemitted.isEncodable hcode⟩

/-- **A compiled class is read back from its listing**, whatever its names are made of. -/
theorem compile_listing {source : Source} {p : Program} {name stem : String}
    (hp : compile source = .ok p) (hname : (FilePath.mk name).stem? = some stem) :
    ∃ file, Source.ofText? name (listing p.instructions) = some file ∧
      Vm.File.read file = .ok ⟨name, stem, p.instructions⟩ := by
  have hfile : Source.ofText? name (listing p.instructions) = some ⟨name, stem,
      String.ofList (unixNewlines (listing p.instructions).toList)⟩ := by
    rw [Source.ofText?, hname]
    rfl
  exact ⟨_, hfile, read_listing (writable_of_mem_code hp) hfile⟩

/-- Names with digits in front, dollars and letters of other alphabets, and a word of digits
that is too large for a constant. -/
theorem compile_listing_names :
    let source : Source := ⟨"$é.jack", "$é",
      "class $é { static 9ß 32768; function void ∀#1() { let 32768 = λ.x(32768); return; } }"⟩
    ∃ p file, compile source = .ok p ∧ p.instructions.length = 6 ∧
      Source.ofText? "$é.vm" (listing p.instructions) = some file ∧
      Vm.File.read file = .ok ⟨"$é.vm", "$é", p.instructions⟩ := by
  intro source
  have hp : compile source = .ok ⟨"$é", [.function "$é.∀#1" 0, .push .static 0, .call "λ.x" 1,
      .pop .static 0, .push .constant 0, .return]⟩ :=
    toOption_eq_some_iff.1 (by decide +kernel)
  have hname : (FilePath.mk "$é.vm").stem? = some "$é" := by decide
  obtain ⟨file, hfile, hread⟩ := compile_listing hp hname
  exact ⟨_, file, hp, rfl, hfile, hread⟩

end JackToolchain.Jack
