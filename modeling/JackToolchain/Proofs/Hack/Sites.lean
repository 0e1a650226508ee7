import JackToolchain.Hack.Builder

/-!
# Where instructions stand

The lines of an instruction depend on where it stands: in which file and function, and behind
how many calls and comparisons. A program is the lines of its instructions, each lowered where
it stands.

* `fileSites`: the instructions of some files with where they stand.
* `map_place_fileSites`: they are those of the files, each under the stem of its file.
* `toList_lines_of_build`: **a program is the lines of its instructions in their order**.
* `pairwise_programSites`: the counts of an instruction are behind those of the instructions
  before it.
-/

namespace JackToolchain.Hack

open Vm

/-- An instruction and where it stands. -/
structure Site where
  context : Context
  instruction : Instruction
deriving DecidableEq, Repr

/-- The lines of an instruction, behind a comment if the program is annotated. -/
def Site.lines (annotate : Bool) (s : Site) : List Line :=
  (if annotate then [.comment s.instruction.text] else []) ++
    (lower s.context s.instruction).toOption.getD []

/-- Instructions with where they stand, the first of them in a given context. -/
def sites (c : Context) : List Instruction → List Site
  | [] => []
  | i :: is => ⟨c, i⟩ :: sites (c.after i) is

namespace Context

/-- Where the instruction behind some others stands. -/
def afterAll (c : Context) (is : List Instruction) : Context :=
  is.foldl after c

/-- Where a file starts, outside its functions. -/
def enter (c : Context) (stem : String) : Context :=
  { c with stem, function? := none }

/-- No fewer calls and comparisons were lowered before one place than before another. -/
structure Le (c d : Context) : Prop where
  calls : c.calls ≤ d.calls
  comparisons : c.comparisons ≤ d.comparisons

end Context

/-- The instructions of files with where they stand, the first file behind a given context. -/
def fileSites (c : Context) : List File → List Site
  | [] => []
  | file :: rest =>
    sites (c.enter file.stem) file.instructions ++
      fileSites ((c.enter file.stem).afterAll file.instructions) rest

section program

variable (name : String) (options : Options)

/-- The call of the entry function. -/
def entrySite : Site :=
  ⟨{ stem := name }, .call entryFunction 0⟩

/-- Where the first file of a program starts. -/
def startContext : Context :=
  if options.bootstrap then (entrySite name).context.after (entrySite name).instruction
  else (entrySite name).context

/-- The instructions of a program with where they stand. -/
def programSites (files : List File) : List Site :=
  (if options.bootstrap then [entrySite name] else []) ++
    fileSites (startContext name options) files

/-- The lines before those of the files. -/
def openingLines : List Line :=
  if options.bootstrap then
    [.comment "bootstrap"] ++ loadConstant stackBase ++ storeCell (.symbol "SP") ++
      (entrySite name).lines false
  else []

/-- The lines behind those of the files. -/
def closingLines : List Line :=
  if options.bootstrap then [] else [.comment "end", .label endLabel] ++ goto endLabel

end program

variable {name : String} {options : Options} {b b' : Builder} {file : File} {files : List File}
  {is : List Instruction}

theorem sites_append (c : Context) (is js : List Instruction) :
    sites c (is ++ js) = sites c is ++ sites (c.afterAll is) js := by
  induction is generalizing c with
  | nil => rfl
  | cons i is ih => exact congrArg (⟨c, i⟩ :: ·) (ih (c.after i))

theorem stem_after (c : Context) (i : Instruction) : (c.after i).stem = c.stem := by
  unfold Context.after
  split <;> rfl

theorem map_place_sites (c : Context) (is : List Instruction) :
    (sites c is).map (fun s => (s.context.stem, s.instruction)) = is.map (c.stem, ·) := by
  induction is generalizing c with
  | nil => rfl
  | cons i is ih =>
    have hrest := ih (c.after i)
    rw [stem_after] at hrest
    exact congrArg ((c.stem, i) :: ·) hrest

/-- The instructions of files stand under the stems of their files, in their order. -/
theorem map_place_fileSites (c : Context) (files : List File) :
    (fileSites c files).map (fun s => (s.context.stem, s.instruction)) =
      files.flatMap fun file => file.instructions.map (file.stem, ·) := by
  induction files generalizing c with
  | nil => rfl
  | cons file files ih =>
    rw [fileSites, List.map_append, map_place_sites, ih, List.flatMap_cons]
    rfl

theorem map_instruction_fileSites (c : Context) (files : List File) :
    (fileSites c files).map Site.instruction = files.flatMap File.instructions := by
  have hplaces := congrArg (List.map Prod.snd) (map_place_fileSites c files)
  simpa [List.map_flatMap, Function.comp_def] using hplaces

/-! ## The lines of a program -/

theorem toList_lines_emit (b : Builder) (lines : List Line) :
    (b.emit lines).lines.toList = b.lines.toList ++ lines := by
  simp [Builder.emit]

theorem note_eq (b : Builder) (i : Instruction) :
    b.note i = b.emit (if b.annotate then [.comment i.text] else []) := by
  unfold Builder.note
  split
  · rfl
  · simp [Builder.emit]

/-- What a builder is when instructions are lowered: it has their lines behind its own. -/
structure Builder.Extends (b b' : Builder) (context : Context) (lines : List Line) : Prop where
  annotate : b'.annotate = b.annotate
  context : b'.context = context
  lines : b'.lines.toList = b.lines.toList ++ lines

theorem extends_add {i : Instruction} (h : (b.note i).add i = .ok b') :
    b.Extends b' (b.context.after i) (Site.lines b.annotate ⟨b.context, i⟩) := by
  rw [note_eq, Builder.add] at h
  have hcontext (lines : List Line) : (b.emit lines).context = b.context := rfl
  rw [hcontext] at h
  cases hlines : lower b.context i with
  | error cause =>
    rw [hlines] at h
    cases h
  | ok lines =>
    rw [hlines] at h
    cases h
    refine ⟨rfl, rfl, ?_⟩
    rw [toList_lines_emit, toList_lines_emit, List.append_assoc, Site.lines, hlines]
    rfl

theorem extends_addAll {fileName : String} (h : b.addAll fileName is = (b', none)) :
    b.Extends b' (b.context.afterAll is) ((sites b.context is).flatMap (Site.lines b.annotate)) := by
  induction is generalizing b with
  | nil =>
    cases h
    exact ⟨rfl, rfl, (List.append_nil _).symm⟩
  | cons i is ih =>
    rw [Builder.addAll] at h
    split at h
    · cases h
    · next b₁ hadd =>
      have hfirst := extends_add hadd
      have hrest := ih h
      rw [hfirst.context, hfirst.annotate] at hrest
      refine ⟨hrest.annotate.trans hfirst.annotate, hrest.context, ?_⟩
      rw [hrest.lines, hfirst.lines, sites, List.flatMap_cons, List.append_assoc]

theorem extends_addFiles (h : b.addFiles files = .ok b') :
    b'.lines.toList =
      b.lines.toList ++ (fileSites b.context files).flatMap (Site.lines b.annotate) := by
  induction files generalizing b with
  | nil =>
    cases h
    exact (List.append_nil _).symm
  | cons file files ih =>
    rw [Builder.addFiles] at h
    split at h
    · cases h
    · next b₁ hfile =>
      have hfirst := extends_addAll hfile
      rw [ih h, hfirst.context, hfirst.annotate, hfirst.lines, fileSites, List.flatMap_append,
        List.append_assoc]
      rfl

theorem entrySite_lines (name : String) :
    (entrySite name).lines false = lowerCall (entrySite name).context entryFunction 0 :=
  List.nil_append _

/-- The bootstrap sets up the stack and then is a call of the entry function. -/
theorem extends_bootstrap (b : Builder) (name : String) (h : b.context = (entrySite name).context) :
    b.Extends b.bootstrap ((entrySite name).context.after (entrySite name).instruction)
      ([.comment "bootstrap"] ++ loadConstant stackBase ++ storeCell (.symbol "SP") ++
        (entrySite name).lines false) := by
  unfold Builder.bootstrap
  refine ⟨?_, ?_, ?_⟩
  · simp only [Builder.emit]
  · rw [← h]
    dsimp only [entrySite]
  · dsimp only
    rw [toList_lines_emit, entrySite_lines, ← h]

/-- **A program is the lines of its instructions in their order**, each lowered where it
stands, behind the bootstrap or before the halt loop. -/
theorem toList_lines_of_build (h : build name options files = .ok b) :
    b.lines.toList = openingLines name options ++
      (fileSites (startContext name options) files).flatMap (Site.lines options.annotate) ++
        closingLines options := by
  unfold build at h
  unfold openingLines closingLines startContext
  cases hboot : options.bootstrap with
  | true =>
    simp only [hboot, if_true] at h ⊢
    have hstart := extends_bootstrap (Builder.new name options.annotate) name rfl
    rw [extends_addFiles h, hstart.lines, hstart.context, hstart.annotate, List.append_nil]
    rfl
  | false =>
    simp only [hboot, Bool.false_eq_true, if_false] at h ⊢
    cases hfiles : (Builder.new name options.annotate).addFiles files with
    | error fault =>
      rw [hfiles] at h
      cases h
    | ok b₁ =>
      rw [hfiles] at h
      cases h
      rw [Builder.halt, toList_lines_emit, extends_addFiles hfiles]
      rfl

theorem exists_build (h : (build name options files).toOption.isSome) :
    ∃ b, build name options files = .ok b := by
  cases hb : build name options files with
  | ok b => exact ⟨b, rfl⟩
  | error fault =>
    rw [hb] at h
    cases h

/-! ## Counts -/

namespace Context.Le

variable {c d e : Context}

theorem refl (c : Context) : c.Le c := ⟨Nat.le_refl _, Nat.le_refl _⟩

theorem trans (h : c.Le d) (h' : d.Le e) : c.Le e :=
  ⟨Nat.le_trans h.calls h'.calls, Nat.le_trans h.comparisons h'.comparisons⟩

theorem after (c : Context) (i : Instruction) : c.Le (c.after i) := by
  unfold Context.after
  split <;> exact ⟨by simp, by simp⟩

theorem afterAll (c : Context) (is : List Instruction) : c.Le (c.afterAll is) := by
  induction is generalizing c with
  | nil => exact refl c
  | cons i is ih => exact (after c i).trans (ih (c.after i))

theorem enter (c : Context) (stem : String) : c.Le (c.enter stem) :=
  ⟨Nat.le_refl _, Nat.le_refl _⟩

end Context.Le

/-- The counts of one place take in the instruction at another. -/
def Site.Before (s t : Site) : Prop :=
  (s.context.after s.instruction).Le t.context

theorem le_of_mem_sites {c : Context} {s : Site} (hs : s ∈ sites c is) : c.Le s.context := by
  induction is generalizing c with
  | nil => cases hs
  | cons i is ih =>
    rcases List.mem_cons.1 hs with rfl | hs
    · exact .refl c
    · exact (Context.Le.after c i).trans (ih hs)

theorem le_afterAll_of_mem_sites {c : Context} {s : Site} (hs : s ∈ sites c is) :
    (s.context.after s.instruction).Le (c.afterAll is) := by
  induction is generalizing c with
  | nil => cases hs
  | cons i is ih =>
    rcases List.mem_cons.1 hs with rfl | hs
    · exact .afterAll (c.after i) is
    · exact ih hs

theorem pairwise_sites (c : Context) (is : List Instruction) :
    (sites c is).Pairwise Site.Before := by
  induction is generalizing c with
  | nil => exact .nil
  | cons i is ih => exact .cons (fun _ hs => le_of_mem_sites hs) (ih (c.after i))

theorem le_of_mem_fileSites {c : Context} {s : Site} (hs : s ∈ fileSites c files) :
    c.Le s.context := by
  induction files generalizing c with
  | nil => cases hs
  | cons file files ih =>
    rcases List.mem_append.1 hs with hs | hs
    · exact (Context.Le.enter c file.stem).trans (le_of_mem_sites hs)
    · exact (Context.Le.enter c file.stem).trans ((Context.Le.afterAll _ _).trans (ih hs))

theorem pairwise_fileSites (c : Context) (files : List File) :
    (fileSites c files).Pairwise Site.Before := by
  induction files generalizing c with
  | nil => exact .nil
  | cons file files ih =>
    refine List.pairwise_append.2 ⟨pairwise_sites _ _, ih _, ?_⟩
    intro s hs t ht
    exact (le_afterAll_of_mem_sites hs).trans (le_of_mem_fileSites ht)

/-- The counts of an instruction take in every instruction before it, across functions and
files. -/
theorem pairwise_programSites (name : String) (options : Options) (files : List File) :
    (programSites name options files).Pairwise Site.Before := by
  unfold programSites
  refine List.pairwise_append.2 ⟨?_, pairwise_fileSites _ _, ?_⟩
  · split
    · exact List.pairwise_singleton ..
    · exact .nil
  · intro s hs t ht
    have hle := le_of_mem_fileSites ht
    unfold startContext at hle
    split at hs
    · next hboot =>
      rw [if_pos hboot] at hle
      rw [List.mem_singleton.1 hs]
      exact hle
    · cases hs

end JackToolchain.Hack
