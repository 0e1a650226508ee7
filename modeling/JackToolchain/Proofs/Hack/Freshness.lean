import JackToolchain.Proofs.Hack.Labels

/-!
# Generated names are fresh

Three kinds of names are made while a program is lowered: the label behind a call, the two
labels of a comparison and the cell of a static variable. Each ends with a number behind a
character that is no digit, so the number can be read back whatever stands before it. The
numbers of calls and comparisons grow over the whole program, and that of a static variable is
its index.

* `staticName_inj_iff`: a static variable is known by its name.
* `FreshNames`: what is known of the names in the lines of a program.
* `freshNames_of_build`: **the names that a program generates are fresh** over all its files.
-/

namespace JackToolchain.Vm.Instruction

/-- Whether an instruction is a call. -/
def isCall : Instruction → Bool
  | .call _ _ => true
  | _ => false

/-- Whether an instruction is a comparison. -/
def isComparison : Instruction → Bool
  | .operate .eq | .operate .gt | .operate .lt => true
  | _ => false

/-- The index of the static variable that an instruction accesses. -/
def static? : Instruction → Option Nat
  | .push .static n | .pop .static n => some n
  | _ => none

end JackToolchain.Vm.Instruction

namespace JackToolchain.Hack

open Vm Text

/-- The names that lines load, beside that of the stack pointer. -/
def loadedNames (lines : List Line) : List String :=
  (lines.filterMap Line.symbol?).filter (· ≠ "SP")

/-- The name of a static variable. -/
def staticName (stem : String) (index : Nat) : String :=
  stem ++ "." ++ toString index

/-- What is known of the names in the lines of instructions. A call defines one label and a
comparison two, and no two calls and no two comparisons have one in common. A static access
loads one name, and two of them the same one exactly if they are of one index under one stem. -/
structure FreshNames (annotate : Bool) (ss : List Site) : Prop where
  call : ∀ s ∈ ss, s.instruction.isCall → (labels (s.lines annotate)).length = 1
  calls : ss.Pairwise fun s t => s.instruction.isCall → t.instruction.isCall →
    (labels (s.lines annotate)).Disjoint (labels (t.lines annotate))
  comparison : ∀ s ∈ ss, s.instruction.isComparison →
    (labels (s.lines annotate)).length = 2 ∧ (labels (s.lines annotate)).Nodup
  comparisons : ss.Pairwise fun s t => s.instruction.isComparison → t.instruction.isComparison →
    (labels (s.lines annotate)).Disjoint (labels (t.lines annotate))
  static : ∀ s ∈ ss, ∀ n, s.instruction.static? = some n →
    (loadedNames (s.lines annotate)).length = 1
  statics : ∀ s ∈ ss, ∀ t ∈ ss, ∀ m n, s.instruction.static? = some m →
    t.instruction.static? = some n →
      (loadedNames (s.lines annotate) = loadedNames (t.lines annotate) ↔
        s.context.stem = t.context.stem ∧ m = n)

variable {name : String} {options : Options} {b : Builder} {files : List File} {s t : Site}
  {annotate : Bool} {stem stem' : String} {m n : Nat}

/-! ## Labels -/

theorem labels_of_isCall (annotate : Bool) (h : s.instruction.isCall) :
    ∃ l, s.returnLabel? = some l ∧ labels (s.lines annotate) = [l] := by
  rw [labels_lines]
  obtain ⟨c, i⟩ := s
  cases i with
  | call function arguments => exact ⟨c.returnLabel, rfl, rfl⟩
  | _ => cases h

theorem labels_of_isComparison (annotate : Bool) (h : s.instruction.isComparison) :
    labels (s.lines annotate) = s.comparisonLabels ∧ s.comparisonLabels.length = 2 := by
  rw [labels_lines]
  obtain ⟨c, i⟩ := s
  cases i with
  | operate operator =>
    cases operator with
    | eq | gt | lt => exact ⟨rfl, rfl⟩
    | _ => cases h
  | _ => cases h

theorem pairwise_calls (annotate : Bool) (name : String) (options : Options)
    (files : List File) : (programSites name options files).Pairwise fun s t =>
      s.instruction.isCall → t.instruction.isCall →
        (labels (s.lines annotate)).Disjoint (labels (t.lines annotate)) := by
  refine (List.pairwise_filterMap.1 (nodup_returnLabels name options files)).imp ?_
  intro s t hne hs ht
  obtain ⟨l, hl, hlabels⟩ := labels_of_isCall annotate hs
  obtain ⟨l', hl', hlabels'⟩ := labels_of_isCall annotate ht
  -- each call has one label, so nothing in common means that the two differ
  rw [hlabels, hlabels', List.singleton_disjoint, List.mem_singleton]
  exact hne l hl l' hl'

theorem pairwise_comparisons (annotate : Bool) (name : String) (options : Options)
    (files : List File) : (programSites name options files).Pairwise fun s t =>
      s.instruction.isComparison → t.instruction.isComparison →
        (labels (s.lines annotate)).Disjoint (labels (t.lines annotate)) := by
  refine (List.nodup_flatMap.1 (nodup_comparisonLabels name options files)).2.imp ?_
  intro s t hdisjoint hs ht
  rw [(labels_of_isComparison annotate hs).1, (labels_of_isComparison annotate ht).1]
  exact hdisjoint

/-! ## Static variables -/

/-- A static variable is known by its name, whatever the stem ends with. -/
theorem staticName_inj_iff : staticName stem m = staticName stem' n ↔ stem = stem' ∧ m = n := by
  constructor
  · intro h
    obtain ⟨hstem, hindex⟩ := numbered_inj (endsPlain_append stem (by decide))
      (endsPlain_append stem' (by decide)) h
    exact ⟨(String.append_left_inj _).1 hstem, hindex⟩
  · rintro ⟨rfl, rfl⟩
    rfl

theorem staticName_ne_register (stem : String) (n : Nat) : staticName stem n ≠ "SP" := by
  intro h
  -- a register has no period in its name
  have hperiod : '.' ∈ (staticName stem n).toList := by
    simp [staticName]
  rw [h] at hperiod
  exact absurd hperiod (by decide)

theorem loadedNames_append (lines more : List Line) :
    loadedNames (lines ++ more) = loadedNames lines ++ loadedNames more := by
  rw [loadedNames, List.filterMap_append, List.filter_append]
  rfl

theorem loadedNames_staticCell (c : Context) (n : Nat) :
    loadedNames [.address (c.staticCell n)] = [staticName c.stem n] :=
  List.filter_cons_of_pos (decide_eq_true (staticName_ne_register c.stem n))

/-- A static access loads the name of its variable. -/
theorem loadedNames_of_static? (h : s.instruction.static? = some n) :
    loadedNames (s.lines annotate) = [staticName s.context.stem n] := by
  have hcomment : loadedNames (if annotate then [.comment s.instruction.text] else []) = [] := by
    cases annotate <;> rfl
  have hcell := loadedNames_staticCell s.context n
  rw [Site.lines, loadedNames_append, hcomment, List.nil_append]
  obtain ⟨c, i⟩ := s
  cases i with
  | push segment index =>
    cases segment with
    | static =>
      obtain rfl : index = n := Option.some.inj h
      have hlines : (lower c (.push .static index)).toOption.getD [] =
          [.address (c.staticCell index)] ++ (.assign .d .m :: pushD) := rfl
      rw [hlines, loadedNames_append, hcell]
      rfl
    | _ => cases h
  | pop segment index =>
    cases segment with
    | static =>
      obtain rfl : index = n := Option.some.inj h
      have hlines : (lower c (.pop .static index)).toOption.getD [] =
          popD ++ ([.address (c.staticCell index)] ++ [.assign .m .d]) := rfl
      rw [hlines, loadedNames_append, loadedNames_append, hcell]
      rfl
    | _ => cases h
  | _ => cases h

/-! ## Programs -/

theorem freshNames_programSites (annotate : Bool) (name : String) (options : Options)
    (files : List File) : FreshNames annotate (programSites name options files) where
  call s _ hs := by
    obtain ⟨l, -, hlabels⟩ := labels_of_isCall annotate hs
    rw [hlabels, List.length_singleton]
  calls := pairwise_calls annotate name options files
  comparison s _ hs := by
    obtain ⟨hlabels, hlength⟩ := labels_of_isComparison annotate hs
    rw [hlabels]
    exact ⟨hlength, s.nodup_comparisonLabels⟩
  comparisons := pairwise_comparisons annotate name options files
  static s _ n hn := by rw [loadedNames_of_static? hn, List.length_singleton]
  statics s _ t _ m n hm hn := by
    rw [loadedNames_of_static? hm, loadedNames_of_static? hn, List.singleton_inj,
      staticName_inj_iff]

/-- **The names that a program generates are fresh** over all its files, whatever their stems
and the functions and labels in them: the program is the lines of its instructions, each under
the stem of its file, and the call of the bootstrap is among its calls. -/
theorem freshNames_of_build (h : build name options files = .ok b) :
    b.lines.toList = openingLines name options ++
        (fileSites (startContext name options) files).flatMap (Site.lines options.annotate) ++
          closingLines options ∧
      (fileSites (startContext name options) files).map
          (fun s => (s.context.stem, s.instruction)) =
        files.flatMap (fun file => file.instructions.map (file.stem, ·)) ∧
      FreshNames options.annotate (programSites name options files) :=
  ⟨toList_lines_of_build h, map_place_fileSites _ _, freshNames_programSites _ name options files⟩

/-- Two files, one under a stem that ends with a digit, with calls and comparisons in both. -/
theorem freshNames_of_build_digits :
    let files : List File :=
      [⟨"A.vm", "A", [.function "A.f" 0, .push .static 10, .push .static 0, .operate .lt,
          .call "A.f1" 0, .return]⟩,
        ⟨"A1.vm", "A1", [.function "A.f1" 0, .pop .static 0, .operate .lt, .call "A.f" 0,
          .return]⟩]
    ∃ b, build "Out" ⟨true, true⟩ files = .ok b ∧
      labels b.lines.toList = ["Out$ret.0", "A.f", "__JLT_TRUE_A_0", "__JLT_END_A_0", "A.f$ret.1",
        "A.f1", "__JLT_TRUE_A1_1", "__JLT_END_A1_1", "A.f1$ret.2"] ∧
      FreshNames true (programSites "Out" ⟨true, true⟩ files) := by
  intro files
  obtain ⟨b, hb⟩ := exists_build (show (build "Out" ⟨true, true⟩ files).toOption.isSome by
    decide +kernel)
  refine ⟨b, hb, ?_, (freshNames_of_build hb).2.2⟩
  rw [labels_of_build hb]
  decide +kernel

end JackToolchain.Hack
