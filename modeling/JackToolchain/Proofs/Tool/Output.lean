import JackToolchain.Proofs.Files.Output
import JackToolchain.Proofs.Files.Roster
import JackToolchain.Proofs.Tool.Work

/-!
# What a compilation writes

The compiler writes the program of each source file to a file of its own, one after another.

* `ClassFiles`: source files of classes that a machine holds.
* `Lossless`: each program is in its own file, and no other file has changed.
* `lossless_iff`: **a batch that is written is without loss exactly if no two files of different
  programs have the same name in a given directory, and no file lay where one is drafted.**
* `lossless_work_iff`: so it is for a whole compilation that succeeds.
* `loses_output`: two such files, and a file that is lost.
-/

namespace JackToolchain.Tool.Compiler

open Terminal Files FilePath

variable {m m' : Machine} {directory : Option FilePath} {files : List Source}
  {programs : List Jack.Program} {source other : Source} {text : String} {place : Location}

/-- The text of the program that a source file compiles to. -/
def programText? (source : Source) : Option String :=
  (Jack.compile source).toOption.map fun program => Vm.listing program.instructions

/-- The source files with the texts of their programs. -/
def outputs (files : List Source) (programs : List Jack.Program) : List (Source × String) :=
  files.zip (programs.map fun program => Vm.listing program.instructions)

/-- If all files compile, the output of each is the text of its program. -/
theorem mem_outputs_iff (h : files.mapM Jack.compile = .ok programs) :
    (source, text) ∈ outputs files programs ↔ source ∈ files ∧ programText? source = some text := by
  induction files generalizing programs with
  | nil => simp [outputs]
  | cons first files ih =>
    rw [List.mapM_cons] at h
    obtain ⟨program, hprogram, h⟩ := bind_eq_ok_iff.1 h
    obtain ⟨rest, hrest, h⟩ := bind_eq_ok_iff.1 h
    cases h
    have hfirst : programText? first = some (Vm.listing program.instructions) := by
      rw [programText?, hprogram]
      rfl
    have hcons : outputs (first :: files) (program :: rest) =
        (first, Vm.listing program.instructions) :: outputs files rest := rfl
    rw [hcons, List.mem_cons, List.mem_cons, ih hrest, Prod.mk.injEq]
    constructor
    · rintro (⟨rfl, rfl⟩ | ⟨hmem, htext⟩)
      · exact ⟨.inl rfl, hfirst⟩
      · exact ⟨.inr hmem, htext⟩
    · rintro ⟨rfl | hmem, htext⟩
      · exact .inl ⟨rfl, Option.some.inj (htext.symm.trans hfirst)⟩
      · exact .inr ⟨hmem, htext⟩

/-- Source files of classes that a machine holds. -/
structure ClassFiles (m : Machine) (files : List Source) : Prop where
  extension : ∀ source ∈ files, source.path.extension? = some "jack"
  held : ∀ source ∈ files,
    (m.tree.read? m.here source.path).bind (Source.ofText? source.name) = some source

/-- Each program is in its own file, and every other file is as it was. -/
structure Lossless (m m' : Machine) (directory : Option FilePath) (files : List Source) : Prop where
  present : ∀ source ∈ files, ∃ place text, placeOf "vm" m directory source = some place ∧
    programText? source = some text ∧ m'.tree.get? place = some (.file (.text text))
  unchanged : ∀ l content, m.tree.get? l = some (.file content) →
    (∀ source ∈ files, placeOf "vm" m directory source ≠ some l) →
      m'.tree.get? l = some (.file content)

namespace ClassFiles

theorem lies (h : ClassFiles m files) (hsource : source ∈ files) :
    ∃ base stem parent, Lies m source base stem parent := by
  obtain ⟨text, hread, -⟩ := Option.bind_eq_some_iff.1 (h.held source hsource)
  have hfile : m.tree.isFile m.here source.path = true := by
    unfold FileTree.read? at hread
    split at hread
    · next hfind =>
      rw [FileTree.isFile, hfind]
    · cases hread
  obtain ⟨base, stem, parent, hsegments, hstem, -, hlocated⟩ :=
    FileTree.lies_of_isFile hfile (h.extension source hsource)
  exact ⟨base, stem, parent, hsegments, hstem, hlocated⟩

/-- Files that lie in the same place have the same program. -/
theorem programText?_eq (h : ClassFiles m files) (hsource : source ∈ files) (hother : other ∈ files)
    (hplace : m.tree.locate m.here source.path = m.tree.locate m.here other.path) :
    programText? source = programText? other := by
  obtain ⟨text, hread, htext⟩ := Option.bind_eq_some_iff.1 (h.held source hsource)
  obtain ⟨text', hread', htext'⟩ := Option.bind_eq_some_iff.1 (h.held other hother)
  unfold FileTree.read? FileTree.find? at hread hread'
  rw [hplace] at hread
  cases hread.symm.trans hread'
  obtain ⟨stem, -, hcontent⟩ := Option.map_eq_some_iff.1 htext
  obtain ⟨stem', -, hcontent'⟩ := Option.map_eq_some_iff.1 htext'
  have hsame : source.content = other.content := by rw [← hcontent, ← hcontent']
  rw [programText?, programText?, Jack.compile, Jack.compile, hsame]

/-- Files whose output goes to the same place have the same program, unless a directory is given and
they have the same name. -/
theorem programText?_eq_of_placeOf (h : ClassFiles m files) (hsource : source ∈ files)
    (hother : other ∈ files)
    (hnames : directory ≠ none → source.path.fileName? = other.path.fileName? →
      programText? source = programText? other)
    (hplace : placeOf "vm" m directory source = some place)
    (hplace' : placeOf "vm" m directory other = some place) :
    programText? source = programText? other := by
  obtain ⟨base, stem, parent, hlies⟩ := h.lies hsource
  obtain ⟨base', stem', parent', hlies'⟩ := h.lies hother
  obtain ⟨hname, hlocated⟩ := hlies.eq_of_placeOf hlies' hplace hplace'
  by_cases hdirectory : directory = none
  · exact h.programText?_eq hsource hother (hlocated hdirectory)
  · exact hnames hdirectory hname

end ClassFiles

/-- No two files of different programs have the same name. -/
def NamesApart (files : List Source) : Prop :=
  ∀ source ∈ files, ∀ other ∈ files, source.path.fileName? = other.path.fileName? →
    programText? source = programText? other

/-- No file lies where the output of another is drafted. -/
def DraftsFree (m : Machine) (directory : Option FilePath) (files : List Source) : Prop :=
  ∀ source ∈ files, ∀ l content, placeOf "vm.tmp" m directory source = some l →
    m.tree.get? l ≠ some (.file content)

/-- What is left of a batch in any case: each place of output holds the program of a file that is to
go there, and nothing but these places and the drafts has changed. -/
structure Left (m m' : Machine) (directory : Option FilePath) (files : List Source) : Prop where
  held : ∀ source ∈ files, ∃ place, placeOf "vm" m directory source = some place ∧
    ∃ other ∈ files, placeOf "vm" m directory other = some place ∧
      ∃ text, programText? other = some text ∧ m'.tree.get? place = some (.file (.text text))
  frame : ∀ l, (∀ source ∈ files, placeOf "vm" m directory source ≠ some l ∧
    placeOf "vm.tmp" m directory source ≠ some l) → m'.tree.get? l = m.tree.get? l

/-- A source file that compiles is one of the outputs. -/
theorem exists_output (hprograms : files.mapM Jack.compile = .ok programs)
    (hsource : source ∈ files) :
    ∃ text, (source, text) ∈ outputs files programs := by
  obtain ⟨hcompiled, -⟩ := mapM_eq_ok_iff.1 hprograms
  obtain ⟨program, hprogram⟩ := hcompiled source hsource
  refine ⟨Vm.listing program.instructions, (mem_outputs_iff hprograms).2 ⟨hsource, ?_⟩⟩
  rw [programText?, hprogram]
  rfl

theorem left_of_filed (hprograms : files.mapM Jack.compile = .ok programs)
    (h : Filed m m' directory (outputs files programs)) : Left m m' directory files := by
  constructor
  · intro source hsource
    obtain ⟨text, hmem⟩ := exists_output hprograms hsource
    obtain ⟨place, -, hplace, -⟩ := h.placed _ hmem
    obtain ⟨⟨other, text'⟩, hother, hplace', hcontent⟩ := h.content _ hmem place hplace
    obtain ⟨hfile, htext⟩ := (mem_outputs_iff hprograms).1 hother
    exact ⟨place, hplace, other, hfile, hplace', text', htext, hcontent⟩
  · intro l hl
    refine h.frame l fun e he => ?_
    obtain ⟨source, text⟩ := e
    exact hl source ((mem_outputs_iff hprograms).1 he).1

theorem lossless_iff_of_filed (hfiles : ClassFiles m files)
    (hprograms : files.mapM Jack.compile = .ok programs)
    (h : Filed m m' directory (outputs files programs)) :
    Lossless m m' directory files ↔
      (directory ≠ none → NamesApart files) ∧ DraftsFree m directory files := by
  constructor
  · rintro ⟨hpresent, hunchanged⟩
    constructor
    · intro hdirectory source hsource other hother hname
      obtain ⟨base, stem, parent, hlies⟩ := hfiles.lies hsource
      obtain ⟨base', stem', parent', hlies'⟩ := hfiles.lies hother
      obtain ⟨place, text, hplace, htext, hcontent⟩ := hpresent source hsource
      obtain ⟨place', text', hplace', htext', hcontent'⟩ := hpresent other hother
      rw [hlies.placeOf_congr_name hlies' hdirectory hname, hplace'] at hplace
      cases hplace
      cases hcontent.symm.trans hcontent'
      rw [htext, htext']
    · -- a file that lies where output is drafted is gone in the end
      intro source hsource l content hdraft hfile
      obtain ⟨text, hmem⟩ := exists_output hprograms hsource
      have hgone := h.drafts _ hmem l hdraft
      rw [hunchanged l content hfile fun other _ hplace =>
        placeOf_ne_draft hplace hdraft rfl] at hgone
      cases hgone
  · rintro ⟨hnames, hdrafts⟩
    -- each place holds the program of some file that goes there, so that it has to be the same one
    obtain ⟨hheld, hframe⟩ := left_of_filed hprograms h
    constructor
    · intro source hsource
      obtain ⟨place, hplace, other, hother, hplace', text, htext, hcontent⟩ := hheld source hsource
      refine ⟨place, text, hplace, ?_, hcontent⟩
      rw [← htext]
      exact hfiles.programText?_eq_of_placeOf hsource hother
        (fun hdirectory => hnames hdirectory source hsource other hother) hplace hplace'
    · intro l content hfile hl
      rw [hframe l fun source hsource => ⟨hl source hsource, fun hdraft =>
        hdrafts source hsource l content hdraft hfile⟩, hfile]

/-- The source files of the outputs lie somewhere. -/
theorem ClassFiles.lies_outputs (h : ClassFiles m files)
    (hprograms : files.mapM Jack.compile = .ok programs) :
    ∀ e ∈ outputs files programs, ∃ base stem parent, Lies m e.1 base stem parent := by
  intro e he
  obtain ⟨source, text⟩ := e
  exact h.lies ((mem_outputs_iff hprograms).1 he).1

/-- **A batch that is written is without loss exactly if no two files of different programs have the
same name in a given directory, and no file lay where one is drafted.** In any case nothing but the
output and the drafts has changed. A batch that is not written fails for the file system, or for a
file that has a lone dot as its stem and a directory to go to. -/
theorem lossless_iff {r : Except Fault (List FilePath)} (hfiles : ClassFiles m files)
    (hprograms : files.mapM Jack.compile = .ok programs)
    (h : (writeOutputs "vm" directory (outputs files programs) :
      Attempt Fault (List FilePath)).run.run m = (r, m')) :
    (∀ fault, r = .error fault → fault.OfSystem ∨ fault = .noFileName ∧ directory ≠ none ∧
      ∃ source ∈ files, source.path.fileName? = some "..jack") ∧
    ∀ written, r = .ok written → Left m m' directory files ∧
      (Lossless m m' directory files ↔
        (directory ≠ none → NamesApart files) ∧ DraftsFree m directory files) := by
  obtain ⟨hfaults, hfiled⟩ := filed_of_writeOutputs (hfiles.lies_outputs hprograms) h
  constructor
  · intro fault hfault
    refine (hfaults fault hfault).imp_right fun ⟨hname, hdirectory, e, he, hstem⟩ => ?_
    obtain ⟨source, text⟩ := e
    exact ⟨hname, hdirectory, source, ((mem_outputs_iff hprograms).1 he).1, hstem⟩
  · intro written hwritten
    have hfiled := hfiled written hwritten
    exact ⟨left_of_filed hprograms hfiled, lossless_iff_of_filed hfiles hprograms hfiled⟩

/-! ## A whole compilation -/

section work

variable {palette : Palette} {settings : CommandLine.Settings} {parameters : List String}

/-- What is gathered are source files that the machine holds. -/
theorem classFiles_of_gather
    (h : (gather "jack" parameters : Attempt Fault (List Source)).run.run m = (.ok files, m')) :
    m' = m ∧ ClassFiles m files := by
  rw [run_gather] at h
  obtain ⟨hread, rfl⟩ := Prod.mk.inj h
  refine ⟨rfl, ?_⟩
  split at hread
  · cases hread
  · obtain ⟨-, rfl⟩ := mapM_eq_ok_iff.1 hread
    have hentry (source : Source) (hsource : source ∈ (rosterOn "jack" parameters m).filterMap
        fun e => (e.readOn "jack" m).toOption) :
        ∃ e ∈ rosterOn "jack" parameters m, e.readOn "jack" m = .ok source := by
      obtain ⟨e, he, hsource⟩ := List.mem_filterMap.1 hsource
      exact ⟨e, he, toOption_eq_some_iff.1 hsource⟩
    constructor
    · intro source hsource
      obtain ⟨e, he, hread⟩ := hentry source hsource
      rw [path_of_readOn hread]
      rcases mem_flatMap_entriesOn.1 (Roster.mem_of_mem_ofList he) with
        ⟨-, a, -, -, l, -, name, -, -, hextension, -⟩ | ⟨hexplicit, -⟩
      · exact hextension
      · exact (readOn_eq_ok_iff.1 hread).1 hexplicit
    · intro source hsource
      obtain ⟨e, -, hread⟩ := hentry source hsource
      obtain ⟨-, text, htext, hsource⟩ := readOn_eq_ok_iff.1 hread
      have hpath : e.path = source.path := (path_of_readOn hread).symm
      rw [hpath] at htext hsource
      rw [htext]
      exact hsource

/-- Making a directory changes no source file. -/
theorem ClassFiles.prepared (h : ClassFiles m files) (hm : m.Prepared directory m') :
    ClassFiles m' files := by
  refine ⟨h.extension, fun source hsource => ?_⟩
  obtain ⟨text, hread, htext⟩ := Option.bind_eq_some_iff.1 (h.held source hsource)
  rw [hm.here, hm.grown.read? hread]
  exact htext

/-- Files that are read without a fault have compiled. -/
theorem mapM_compile_of_collected
    (h : collected (fun file => (Jack.compile file).mapError (·.report palette file)) files =
      .ok programs) : files.mapM Jack.compile = .ok programs := by
  obtain ⟨hok, hresults⟩ := mapM_eq_ok_iff.1 (mapM_of_collected _ h)
  refine mapM_eq_ok_iff.2 ⟨fun file hfile => ?_, hresults.trans ?_⟩
  · obtain ⟨program, hprogram⟩ := hok file hfile
    cases hcompile : Jack.compile file with
    | ok program => exact ⟨program, rfl⟩
    | error fault =>
      rw [hcompile] at hprogram
      cases hprogram
  · refine List.filterMap_congr fun file _ => ?_
    cases Jack.compile file <;> rfl

/-- A compilation that succeeds has compiled all files and written a batch of output. -/
theorem exists_batch_of_work
    (h : (work palette settings parameters : Attempt Failure Unit).run.run m = (.ok (), m')) :
    ∃ files programs before after written,
      (gather "jack" parameters : Attempt Fault (List Source)).run.run m = (.ok files, m) ∧
      files.mapM Jack.compile = .ok programs ∧
      m.Prepared (settings.output?.map FilePath.mk) before ∧
      (writeOutputs "vm" (settings.output?.map FilePath.mk) (outputs files programs) :
        Attempt Fault (List FilePath)).run.run before = (.ok written, after) ∧
      after.Alike m' := by
  obtain ⟨files, m₁, hgather, hrest⟩ := exists_run_of_bind_ok h
  have hgather := run_of_adapt_ok hgather
  obtain ⟨hm₁, -⟩ := classFiles_of_gather hgather
  obtain ⟨programs, m₂, hread, hrest⟩ := exists_run_of_bind_ok hrest
  obtain ⟨m₂', hread', hm₂⟩ := gives_readAll (gives_compileFile palette settings) palette files m₁
  obtain ⟨hprograms, hsame⟩ := Prod.mk.inj (hread'.symm.trans hread)
  obtain ⟨⟨⟩, m₃, hlog, hrest⟩ := exists_run_of_bind_ok hrest
  have hm₃ := (quiet_log _ _ _).alike hlog
  extract_lets directory texts write at hrest
  -- only messages follow the output
  have hwrite (before : Machine) (h : (write ()).run.run before = (.ok (), m')) :
      ∃ written after, (writeOutputs "vm" directory (outputs files programs) :
        Attempt Fault (List FilePath)).run.run before = (.ok written, after) ∧ after.Alike m' := by
    obtain ⟨written, after, hwritten, hlogs⟩ := exists_run_of_bind_ok h
    have hquiet : Quiet (do
        written.forM fun p => log palette .info ("Wrote `" ++ p.spelled ++ "`")
        logSuccess palette "Compilation successful!" : Attempt Failure Unit) :=
      (Quiet.forM (fun p => quiet_log _ _ _) written).bind fun _ => quiet_log _ _ _
    exact ⟨written, after, run_of_adapt_ok hwritten, hquiet.alike hlogs⟩
  obtain ⟨before, hprepared, hend⟩ : ∃ before, m₃.Prepared directory before ∧
      (write ()).run.run before = (.ok (), m') := by
    cases hdirectory : directory with
    | none =>
      rw [hdirectory] at hrest
      exact ⟨m₃, .alike (.refl m₃), hrest⟩
    | some d =>
      rw [hdirectory] at hrest
      obtain ⟨⟨⟩, before, hmade, hrest⟩ := exists_run_of_bind_ok hrest
      obtain ⟨r, m₄, hmade', hprepared, -⟩ := prepares_ensureDirectory palette d m₃
      obtain ⟨-, rfl⟩ := Prod.mk.inj (hmade'.symm.trans (run_of_adapt_ok hmade))
      exact ⟨m₄, hprepared, hrest⟩
  subst hm₁ hsame
  obtain ⟨written, after, hwritten, hafter⟩ := hwrite before hend
  exact ⟨files, programs, before, after, written, hgather, mapM_compile_of_collected hprograms,
    .of_alike_trans (hm₂.trans hm₃) hprepared, hwritten, hafter⟩

/-- **What a compilation leaves that succeeds.** But for the output directory, which may have been
made, only the places of the programs and of their drafts have changed. Nothing is lost exactly if no
two files of different programs have the same name in that directory and no file lay where one is
drafted. -/
theorem lossless_work_iff
    (h : (work palette settings parameters : Attempt Failure Unit).run.run m = (.ok (), m')) :
    ∃ files before,
      (gather "jack" parameters : Attempt Fault (List Source)).run.run m = (.ok files, m) ∧
      m.Prepared (settings.output?.map FilePath.mk) before ∧
      Left before m' (settings.output?.map FilePath.mk) files ∧
      (Lossless before m' (settings.output?.map FilePath.mk) files ↔
        (settings.output?.map FilePath.mk ≠ none → NamesApart files) ∧
          DraftsFree before (settings.output?.map FilePath.mk) files) := by
  obtain ⟨files, programs, before, after, written, hgather, hprograms, hprepared, hwritten,
    hafter⟩ := exists_batch_of_work h
  have hfiles : ClassFiles before files := (classFiles_of_gather hgather).2.prepared hprepared
  have hfiled : Filed before m' _ (outputs files programs) :=
    ((filed_of_writeOutputs (hfiles.lies_outputs hprograms) hwritten).2 written rfl).trans_alike
      hafter
  exact ⟨files, before, hgather, hprepared, left_of_filed hprograms hfiled,
    lossless_iff_of_filed hfiles hprograms hfiled⟩

end work

/-! ## Files that are lost -/

/-- A class with a function that returns a number. -/
def mainClass (n : String) : String :=
  "class Main \x7b function int f() \x7b return " ++ n ++ "; \x7d \x7d"

/-- What it compiles to. -/
def mainProgram (n : Nat) : Jack.Program :=
  ⟨"Main", [.function "Main.f" 0, .push .constant n, .return]⟩

/-- A file with it in a directory. -/
def mainFile (directory stem n : String) : Source :=
  ⟨directory ++ "/" ++ stem ++ ".jack", stem, mainClass n⟩

/-- A machine with classes in different directories, and a file where the output of one is
drafted. -/
def desk : Machine where
  tree := ⟨[(["a"], .directory), (["a", "Main.jack"], .file (.text (mainClass "1"))),
    (["b"], .directory), (["b", "Main.jack"], .file (.text (mainClass "2"))),
    (["b", "Other.jack"], .file (.text (mainClass "2"))), (["b", "Main.vm.tmp"], .file (.text "")),
    (["out"], .directory)]⟩
  here := []

theorem classFiles_desk
    (h : files ⊆ [mainFile "a" "Main" "1", mainFile "b" "Main" "2", mainFile "b" "Other" "2"]) :
    ClassFiles desk files := by
  have hextension : ∀ source ∈ [mainFile "a" "Main" "1", mainFile "b" "Main" "2",
      mainFile "b" "Other" "2"], source.path.extension? = some "jack" := by decide +kernel
  have hheld : ∀ source ∈ [mainFile "a" "Main" "1", mainFile "b" "Main" "2",
      mainFile "b" "Other" "2"], (desk.tree.read? desk.here source.path).bind
        (Source.ofText? source.name) = some source := by
    decide +kernel
  exact ⟨fun source hsource => hextension source (h hsource),
    fun source hsource => hheld source (h hsource)⟩

/-- Two files of different names. -/
theorem lossless_iff_desk :
    ∃ m', (writeOutputs "vm" (some ⟨"out"⟩) (outputs [mainFile "a" "Main" "1", mainFile "b" "Other" "2"]
        [mainProgram 1, mainProgram 2]) : Attempt Fault (List FilePath)).run.run desk =
          (.ok [⟨"out/Main.vm"⟩, ⟨"out/Other.vm"⟩], m') ∧
      Lossless desk m' (some ⟨"out"⟩) [mainFile "a" "Main" "1", mainFile "b" "Other" "2"] := by
  have hfiles : ClassFiles desk [mainFile "a" "Main" "1", mainFile "b" "Other" "2"] :=
    classFiles_desk (by decide +kernel)
  have hprograms : [mainFile "a" "Main" "1", mainFile "b" "Other" "2"].mapM Jack.compile =
      .ok [mainProgram 1, mainProgram 2] :=
    toOption_eq_some_iff.1 (by decide +kernel)
  have hrun : ((writeOutputs "vm" (some ⟨"out"⟩)
      (outputs [mainFile "a" "Main" "1", mainFile "b" "Other" "2"] [mainProgram 1, mainProgram 2]) :
        Attempt Fault (List FilePath)).run.run desk).1.toOption =
          some [⟨"out/Main.vm"⟩, ⟨"out/Other.vm"⟩] := by
    decide +kernel
  obtain ⟨m', h⟩ := exists_run_of_toOption hrun
  refine ⟨m', h, (((lossless_iff hfiles hprograms h).2 _ rfl).2.2 ⟨fun _ => ?_, ?_⟩)⟩
  · unfold NamesApart
    decide +kernel
  · intro source hsource l content hl
    have hfree : ∀ source ∈ [mainFile "a" "Main" "1", mainFile "b" "Other" "2"],
        (placeOf "vm.tmp" desk (some ⟨"out"⟩) source).bind desk.tree.get? = none := by
      decide +kernel
    have hnone := hfree source hsource
    rw [hl, Option.bind_some] at hnone
    rw [hnone]
    exact nofun

/-- Different files are written, but not without loss. -/
def Loses (m : Machine) (directory : Option FilePath) (files : List Source) : Prop :=
  ClassFiles m files ∧
    (files.Pairwise fun source other =>
      m.tree.locate m.here source.path ≠ m.tree.locate m.here other.path) ∧
    ∃ programs written m', files.mapM Jack.compile = .ok programs ∧
      (writeOutputs "vm" directory (outputs files programs) :
        Attempt Fault (List FilePath)).run.run m = (.ok written, m') ∧
      ¬Lossless m m' directory files

/-- Output is lost, and so is a file that has nothing to do with it. The first program is
overwritten by the second one, which has the same name in the output directory. The other file lies
where the output is drafted. -/
theorem loses_output :
    Loses desk (some ⟨"out"⟩) [mainFile "a" "Main" "1", mainFile "b" "Main" "2"] ∧
      Loses desk none [mainFile "b" "Main" "2"] := by
  constructor
  · have hrun : ((writeOutputs "vm" (some ⟨"out"⟩)
        (outputs [mainFile "a" "Main" "1", mainFile "b" "Main" "2"] [mainProgram 1, mainProgram 2]) :
          Attempt Fault (List FilePath)).run.run desk).1.toOption =
            some [⟨"out/Main.vm"⟩, ⟨"out/Main.vm"⟩] := by
      decide +kernel
    have hcontent : ((writeOutputs "vm" (some ⟨"out"⟩)
        (outputs [mainFile "a" "Main" "1", mainFile "b" "Main" "2"] [mainProgram 1, mainProgram 2]) :
          Attempt Fault (List FilePath)).run.run desk).2.tree.get? ["out", "Main.vm"] =
            some (.file (.text "function Main.f 0\npush constant 2\nreturn\n")) := by
      decide +kernel
    obtain ⟨m', h⟩ := exists_run_of_toOption hrun
    rw [h] at hcontent
    refine ⟨classFiles_desk (by decide +kernel), by decide +kernel, _, _, m',
      toOption_eq_some_iff.1 (by decide +kernel), h, fun hlossless => ?_⟩
    obtain ⟨place, text, hplace, htext, hpresent⟩ := hlossless.present _ List.mem_cons_self
    have hplace' : placeOf "vm" desk (some ⟨"out"⟩) (mainFile "a" "Main" "1") =
        some ["out", "Main.vm"] := by decide +kernel
    have htext' : programText? (mainFile "a" "Main" "1") =
        some "function Main.f 0\npush constant 1\nreturn\n" := by decide +kernel
    cases hplace'.symm.trans hplace
    cases htext'.symm.trans htext
    rw [hcontent] at hpresent
    revert hpresent
    decide
  · have hrun : ((writeOutputs "vm" none (outputs [mainFile "b" "Main" "2"] [mainProgram 2]) :
        Attempt Fault (List FilePath)).run.run desk).1.toOption = some [⟨"b/Main.vm"⟩] := by
      decide +kernel
    have hgone : ((writeOutputs "vm" none (outputs [mainFile "b" "Main" "2"] [mainProgram 2]) :
        Attempt Fault (List FilePath)).run.run desk).2.tree.get? ["b", "Main.vm.tmp"] = none := by
      decide +kernel
    obtain ⟨m', h⟩ := exists_run_of_toOption hrun
    rw [h] at hgone
    refine ⟨classFiles_desk (by decide +kernel), by decide +kernel, _, _, m',
      toOption_eq_some_iff.1 (by decide +kernel), h, fun hlossless => ?_⟩
    have hplaces : ∀ source ∈ [mainFile "b" "Main" "2"],
        placeOf "vm" desk none source ≠ some ["b", "Main.vm.tmp"] := by decide +kernel
    have hkept := hlossless.unchanged ["b", "Main.vm.tmp"] (.text "") (by decide +kernel) hplaces
    rw [hgone] at hkept
    cases hkept

end JackToolchain.Tool.Compiler
