import Mathlib.Data.List.Pairwise
import JackToolchain.Proofs.Hack.Labels

/-!
# Names that are merged

The labels of a program are made from the names of its functions, its branch labels and its
stems, which may have any characters in them. Two of them can be the same: a label `ret.0` in
the function with the first call of a program is the label behind that call.

* `WellFormed`: functions and labels are defined once where the stack machine looks for them.
* `Unreserved`: no name looks like one that a program generates.
* `nodup_labels_of_build`: **names like these are not merged**.
* `merged_return_label`: a program in which two are.
-/

namespace JackToolchain.Hack

open Vm Text

variable {name : String} {options : Options} {b : Builder} {files : List File} {c : Context}
  {s : Site} {l : String}

/-- No function is defined twice in a program, and no label twice in a function or in the
code before a file's first function. -/
structure WellFormed (files : List File) : Prop where
  stems : (files.map (·.stem)).Nodup
  functions : (functions files).Nodup
  labels : ∀ file ∈ files, (scopedLabels none file.instructions).Nodup

/-- The names in a program are not those that it generates: none that qualifies labels has
the separator in it, no label looks like the one behind a call and no function like a label of
a comparison or of the halt loop. -/
structure Unreserved (name : String) (options : Options) (files : List File) : Prop where
  name : options.bootstrap = true → '$' ∉ name.toList
  stem : ∀ file ∈ files, '$' ∉ file.stem.toList ∧ file.stem ∉ functions files
  function : ∀ f ∈ functions files, '$' ∉ f.toList ∧ ¬ "__".toList <+: f.toList ∧ f ≠ endLabel
  label : ∀ file ∈ files, ∀ l ∈ scopedLabels none file.instructions,
    ∀ n : Nat, l.2 ≠ "ret." ++ toString n

/-- Labels are read back where what qualifies them has no separator in it. -/
theorem qualified_inj {scope scope' label label' : String} (hs : '$' ∉ scope.toList)
    (hs' : '$' ∉ scope'.toList) (h : qualified scope label = qualified scope' label') :
    scope = scope' ∧ label = label' := by
  have hlist := congrArg String.toList h
  rw [toList_qualified, toList_qualified] at hlist
  obtain ⟨hscope, hlabel⟩ := append_cons_inj_left hs hs' hlist
  exact ⟨String.toList_inj.1 hscope, String.toList_inj.1 hlabel⟩

section files

variable {file file' : File} {m m' : Option String × String}

theorem mem_functions {f : String} (hfile : file ∈ files)
    (hf : f ∈ functionNames file.instructions) : f ∈ functions files :=
  List.mem_flatMap.2 ⟨file, hfile, hf⟩

/-- A function is in one file only. -/
theorem WellFormed.eq_of_mem_functionNames (hw : WellFormed files) {f : String}
    (hfile : file ∈ files) (hfile' : file' ∈ files) (hf : f ∈ functionNames file.instructions)
    (hf' : f ∈ functionNames file'.instructions) : file = file' := by
  by_contra hne
  have hsymm : Std.Symm (Function.onFun List.Disjoint fun file : File =>
      functionNames file.instructions) := ⟨fun _ _ h _ hf hg => h hg hf⟩
  exact (List.nodup_flatMap.1 hw.functions).2.forall hfile hfile' hne hf hf'

/-- The function that a label is in is one of its file. -/
theorem function_of_mem_file (hm : m ∈ scopedLabels none file.instructions) {f : String}
    (hf : m.1 = some f) : f ∈ functionNames file.instructions :=
  (function_of_mem_scopedLabels hm f hf).resolve_left nofun

/-- The file and the function that a label is in, if any, are known by what qualifies it. -/
theorem scope_inj (hw : WellFormed files) (hu : Unreserved name options files)
    (hfile : file ∈ files) (hfile' : file' ∈ files)
    (hm : m ∈ scopedLabels none file.instructions)
    (hm' : m' ∈ scopedLabels none file'.instructions)
    (h : m.1.getD file.stem = m'.1.getD file'.stem) : file = file' ∧ m.1 = m'.1 := by
  cases hf : m.1 with
  | none =>
    rw [hf] at h
    cases hf' : m'.1 with
    | none =>
      rw [hf'] at h
      exact ⟨List.inj_on_of_nodup_map hw.stems hfile hfile' h, rfl⟩
    | some g =>
      rw [hf'] at h
      obtain rfl : file.stem = g := h
      exact absurd (mem_functions hfile' (function_of_mem_file hm' hf')) (hu.stem file hfile).2
  | some f =>
    rw [hf] at h
    cases hf' : m'.1 with
    | none =>
      rw [hf'] at h
      obtain rfl : f = file'.stem := h
      exact absurd (mem_functions hfile (function_of_mem_file hm hf)) (hu.stem file' hfile').2
    | some g =>
      rw [hf'] at h
      obtain rfl : f = g := h
      have hsame := hw.eq_of_mem_functionNames hfile hfile' (function_of_mem_file hm hf)
        (function_of_mem_file hm' hf')
      exact ⟨hsame, rfl⟩

theorem Unreserved.dollar_not_mem_scope (hu : Unreserved name options files)
    (hfile : file ∈ files) (hm : m ∈ scopedLabels none file.instructions) :
    '$' ∉ (m.1.getD file.stem).toList := by
  cases hf : m.1 with
  | none => exact (hu.stem file hfile).1
  | some f => exact (hu.function f (mem_functions hfile (function_of_mem_file hm hf))).1

/-- A label, with the file and the function that it is in, is read back from the branch
label. -/
theorem branch_inj (hw : WellFormed files) (hu : Unreserved name options files)
    (hfile : file ∈ files) (hfile' : file' ∈ files)
    (hm : m ∈ scopedLabels none file.instructions)
    (hm' : m' ∈ scopedLabels none file'.instructions)
    (h : qualified (m.1.getD file.stem) m.2 = qualified (m'.1.getD file'.stem) m'.2) :
    file = file' ∧ m = m' := by
  obtain ⟨hscope, hlabel⟩ := qualified_inj (hu.dollar_not_mem_scope hfile hm)
    (hu.dollar_not_mem_scope hfile' hm') h
  obtain ⟨hsame, hfunction⟩ := scope_inj hw hu hfile hfile' hm hm' hscope
  exact ⟨hsame, Prod.ext hfunction hlabel⟩

end files

/-- Branch labels differ if the labels or the functions that they are in do. -/
theorem nodup_branches (hw : WellFormed files) (hu : Unreserved name options files) :
    (branches files).Nodup := by
  refine List.nodup_flatMap.2 ⟨fun file hfile => ?_, ?_⟩
  · exact (hw.labels file hfile).map_on fun m hm m' hm' h =>
      (branch_inj hw hu hfile hfile hm hm' h).2
  · refine hw.stems.of_map.imp_of_mem fun {file file'} hfile hfile' hne l hl hl' => ?_
    obtain ⟨m, hm, rfl⟩ := List.mem_map.1 hl
    obtain ⟨m', hm', heq⟩ := List.mem_map.1 hl'
    exact hne (branch_inj hw hu hfile hfile' hm hm' heq.symm).1

namespace Unreserved

theorem scope (hu : Unreserved name options files) (hs : s ∈ fileSites c files) :
    '$' ∉ s.context.scope.toList := by
  rcases scope_of_mem_fileSites hs with hf | ⟨file, hfile, hscope⟩
  · exact (hu.function _ hf).1
  · rw [hscope]
    exact (hu.stem file hfile).1

theorem branch (hu : Unreserved name options files) (hl : l ∈ branches files) :
    ∃ scope label, l = qualified scope label ∧ '$' ∉ scope.toList ∧
      ∀ n : Nat, label ≠ "ret." ++ toString n := by
  obtain ⟨file, hfile, hl⟩ := List.mem_flatMap.1 hl
  obtain ⟨m, hm, rfl⟩ := List.mem_map.1 hl
  exact ⟨_, _, rfl, hu.dollar_not_mem_scope hfile hm, hu.label file hfile m hm⟩

theorem returnLabel (hu : Unreserved name options files)
    (hl : l ∈ returnLabels name options files) :
    ∃ (scope : String) (n : Nat),
      l = qualified scope ("ret." ++ toString n) ∧ '$' ∉ scope.toList := by
  rcases mem_returnLabels_iff.1 hl with ⟨hboot, rfl⟩ | ⟨s, hs, hl⟩
  · exact ⟨name, 0, rfl, hu.name hboot⟩
  · rw [(Site.eq_of_returnLabel? hl).1, ← qualified_return]
    exact ⟨_, _, rfl, hu.scope hs⟩

theorem comparisonLabel (hu : Unreserved name options files)
    (hl : l ∈ comparisonLabels name options files) :
    "__".toList <+: l.toList ∧ '$' ∉ l.toList := by
  have hdollar := not_mem_of_mem_comparisonLabels (by decide) (by decide)
    (fun file h => (hu.stem file h).1) hl
  refine ⟨?_, hdollar⟩
  obtain ⟨s, -, hl⟩ := mem_comparisonLabels_iff.1 hl
  obtain ⟨condition, -, branch, -, rfl, -⟩ := Site.eq_of_mem_comparisonLabels hl
  simp [Hack.comparisonLabel]

end Unreserved

/-- **No two labels of a program are merged** if none of its names is one that qualified and
generated labels can have. -/
theorem nodup_labels_of_build (hw : WellFormed files) (hu : Unreserved name options files)
    (h : build name options files = .ok b) : (labels b.lines.toList).Nodup := by
  refine (nodup_labels_iff h).2 ⟨hw.functions, nodup_branches hw hu, ?_, ?_⟩
  · intro f hf hb
    obtain ⟨scope, label, rfl, -, -⟩ := hu.branch hb
    exact (hu.function _ hf).1 (dollar_mem_qualified scope label)
  · intro l hl
    rcases mem_generated_iff.1 hl with hl | hl | ⟨-, rfl⟩
    · obtain ⟨scope, n, rfl, hscope⟩ := hu.returnLabel hl
      refine ⟨fun hf => (hu.function _ hf).1 (dollar_mem_qualified ..), fun hb => ?_⟩
      obtain ⟨scope', label, heq, hscope', hlabel⟩ := hu.branch hb
      exact hlabel n (qualified_inj hscope hscope' heq).2.symm
    · obtain ⟨hbeginning, hdollar⟩ := hu.comparisonLabel hl
      refine ⟨fun hf => (hu.function _ hf).2.1 hbeginning, fun hb => ?_⟩
      obtain ⟨scope, label, rfl, -, -⟩ := hu.branch hb
      exact hdollar (dollar_mem_qualified scope label)
    · refine ⟨fun hf => (hu.function _ hf).2.2 rfl, fun hb => ?_⟩
      obtain ⟨scope, label, heq, -, -⟩ := hu.branch hb
      have hdollar := dollar_mem_qualified scope label
      rw [← heq] at hdollar
      exact absurd hdollar (by decide)

/-- Files with one label in two functions and outside them, a comparison and a call. -/
def loops : List File :=
  [⟨"Main.vm", "Main", [.label "loop", .function "Main.f" 0, .label "loop", .push .constant 0,
      .push .constant 1, .operate .eq, .ifGoto "loop", .push .constant 0, .return]⟩,
    ⟨"Sys.vm", "Sys", [.function "Sys.init" 0, .label "loop", .call "Main.f" 0, .goto "loop"]⟩]

theorem nodup_labels_of_build_loops :
    WellFormed loops ∧ Unreserved "Main" ⟨true, true⟩ loops ∧
      ∃ b, build "Main" ⟨true, true⟩ loops = .ok b ∧
        labels b.lines.toList = ["Main$ret.0", "Main$loop", "Main.f", "Main.f$loop",
          "__JEQ_TRUE_Main_0", "__JEQ_END_Main_0", "Sys.init", "Sys.init$loop",
          "Sys.init$ret.1"] ∧
        (labels b.lines.toList).Nodup := by
  have hw : WellFormed loops := ⟨by decide, by decide, by decide⟩
  have hlabels : ∀ file ∈ loops, ∀ l ∈ scopedLabels none file.instructions, l.2 = "loop" := by
    decide
  have hu : Unreserved "Main" ⟨true, true⟩ loops := by
    refine ⟨by decide, by decide, by decide, fun file hfile l hl n heq => ?_⟩
    have hlist := congrArg String.toList ((hlabels file hfile l hl).symm.trans heq)
    simp at hlist
  obtain ⟨b, hb⟩ := exists_build (show (build "Main" ⟨true, true⟩ loops).toOption.isSome by
    decide +kernel)
  refine ⟨hw, hu, b, hb, ?_, nodup_labels_of_build hw hu hb⟩
  rw [labels_of_build hb]
  decide +kernel

/-- **A branch label can be merged with the label behind a call**: it is spelled like one, in
the function of that call. -/
theorem merged_return_label :
    let files : List File :=
      [⟨"Main.vm", "Main", [.function "Main.f" 0, .label "ret.0", .call "Main.f" 0]⟩]
    WellFormed files ∧ ∃ b, build "Main" ⟨false, false⟩ files = .ok b ∧
      labels b.lines.toList = ["Main.f", "Main.f$ret.0", "Main.f$ret.0", "END"] ∧
      ¬ (labels b.lines.toList).Nodup := by
  intro files
  obtain ⟨b, hb⟩ := exists_build (show (build "Main" ⟨false, false⟩ files).toOption.isSome by
    decide +kernel)
  have hlabels : labels b.lines.toList = ["Main.f", "Main.f$ret.0", "Main.f$ret.0", "END"] := by
    rw [labels_of_build hb]
    decide +kernel
  refine ⟨⟨by decide, by decide, by decide⟩, b, hb, hlabels, ?_⟩
  rw [hlabels]
  decide

end JackToolchain.Hack
