import JackToolchain.Proofs.Files.Actions
import JackToolchain.Proofs.Hack.Rejection
import JackToolchain.Proofs.Outcome
import JackToolchain.Tool.Compiler
import JackToolchain.Tool.Translator

/-!
# Work on faulty inputs

The compiler and the translator first gather their inputs and read all of them. The compiler then
knows that nothing is wrong with them. The translator does not: it may still reject an instruction,
and it looks for the place of its program before.

* `inputs`: the files that parameters stand for.
* `gives_readAll`: what reading a batch of files amounts to.
* `Compiler.gives_work`: the compiler gives up on a faulty input before it changes any file.
* `Translator.prepares_work`: the translator gives up before it writes its program, but it may have
  made a directory for it.
-/

namespace JackToolchain.Tool

open Terminal CommandLine Files

variable {α : Type} {palette : Palette} {m : Machine} {settings : Settings}
  {parameters : List String}

/-! ## Reading -/

/-- What reading some files amounts to, given the outcome for each. -/
def collected (outcome : Source → Except String α) (files : List Source) : Except Failure (List α) :=
  match (files.map outcome).countP (!·.isOk) with
  | 0 => .ok ((files.map outcome).filterMap Except.toOption)
  | failed => .error (.filesFailed failed files.length)

section collected

variable (outcome : Source → Except String α) {files : List Source}

/-- A batch fails if one of its files does. -/
theorem collected_eq_error (h : ∃ file ∈ files, (outcome file).isOk = false) :
    ∃ failure, collected outcome files = .error failure := by
  obtain ⟨file, hfile, hfault⟩ := h
  have hfailed : 0 < (files.map outcome).countP (!·.isOk) :=
    List.countP_pos_iff.2 ⟨outcome file, List.mem_map_of_mem hfile, by rw [hfault]; rfl⟩
  unfold collected
  split
  · next hnone => omega
  · exact ⟨_, rfl⟩

/-- A batch gives the results of its files if none of them fails. -/
theorem collected_eq_ok (h : ∀ file ∈ files, (outcome file).isOk = true) :
    collected outcome files = .ok ((files.map outcome).filterMap Except.toOption) := by
  have hnone : (files.map outcome).countP (!·.isOk) = 0 := by
    rw [List.countP_eq_zero]
    intro r hr
    obtain ⟨file, hfile, rfl⟩ := List.mem_map.1 hr
    rw [h file hfile]
    decide
  unfold collected
  rw [hnone]
  rfl

/-- The results of a batch are those of its files, one after another. -/
theorem mapM_of_collected {results : List α} (h : collected outcome files = .ok results) :
    files.mapM outcome = .ok results := by
  have hall : ∀ file ∈ files, (outcome file).isOk = true := by
    intro file hfile
    cases hok : (outcome file).isOk with
    | true => rfl
    | false =>
      obtain ⟨failure, hfailed⟩ := collected_eq_error outcome ⟨file, hfile, hok⟩
      rw [hfailed] at h
      cases h
  rw [collected_eq_ok outcome hall] at h
  cases h
  rw [mapM_eq_ok_iff, List.filterMap_map]
  refine ⟨fun file hfile => ?_, rfl⟩
  have hok := hall file hfile
  cases hresult : outcome file with
  | ok result => exact ⟨result, rfl⟩
  | error report =>
    rw [hresult] at hok
    cases hok

end collected

theorem gives_readAll {read : Source → StateT Machine Id (Except String α)}
    {outcome : Source → Except String α} (hread : ∀ file m, Gives (read file) m (outcome file))
    (palette : Palette) (files : List Source) (m : Machine) :
    Gives (readAll palette files read).run m (collected outcome files) := by
  unfold readAll collected
  refine (Gives.mapM_ok (g := outcome) (fun file m => ?_) files m).bind_ok fun m₁ _ => ?_
  · refine (hread file m).lift.bind_ok fun m₁ _ => ?_
    split
    · exact (gives_log_ok _ _ _ m₁).bind_ok fun m₂ _ => .pure _ m₂
    · exact .pure _ m₁
  · cases (files.map outcome).countP (!·.isOk) with
    | zero => exact .pure _ m₁
    | succ failed => exact .pure _ m₁

theorem gives_printIndented (lines : List String) (m : Machine) :
    Gives (Compiler.printIndented lines) m () :=
  .forM (fun _ m => gives_print _ _ m) lines m

theorem gives_compileFile (palette : Palette) (settings : Settings) (file : Source) (m : Machine) :
    Gives (Compiler.compileFile palette settings file) m
      ((Jack.compile file).mapError (·.report palette file)) := by
  refine (gives_log _ _ _ m).bind fun m₁ _ => ?_
  extract_lets tokens progress finish printSymbols
  have hfinish (m : Machine) :
      Gives (finish ()) m ((Jack.compile file).mapError (·.report palette file)) := by
    have houtcome : Jack.compile file = progress.outcome := rfl
    rw [houtcome]
    simp only [finish]
    cases progress.outcome with
    | error fault => exact .pure _ m
    | ok program =>
      dsimp only
      split
      · refine (gives_log _ _ _ m).bind fun m₁ _ => ?_
        exact (gives_printIndented _ m₁).bind fun m₂ _ => .pure _ m₂
      · exact .pure _ m
  have hsymbols (m : Machine) :
      Gives (printSymbols ()) m ((Jack.compile file).mapError (·.report palette file)) := by
    simp only [printSymbols]
    split
    · refine (Gives.forM (fun header m => ?_) progress.headers m).bind fun m₁ _ => hfinish m₁
      exact (gives_log _ _ _ m).bind fun m₁ _ => gives_print _ _ m₁
    · exact hfinish m
  split
  · refine (gives_log _ _ _ m₁).bind fun m₂ _ => ?_
    exact (gives_printIndented _ m₂).bind fun m₃ _ => hsymbols m₃
  · exact hsymbols m₁

theorem gives_readFile (palette : Palette) (file : Source) (m : Machine) :
    Gives (Translator.readFile palette file) m
      ((Vm.File.read file).mapError (·.report palette file)) :=
  (gives_log _ _ _ m).bind fun m₁ _ => .pure _ m₁

/-! ## Inputs -/

/-- The files that parameters stand for on a machine. There are none if one of them cannot be
gathered. -/
def inputs (extension : String) (parameters : List String) (m : Machine) : List Source :=
  ((gather extension parameters : Attempt Files.Fault (List Source)).run.run m).1.toOption.getD []

theorem gives_gather {extension : String} {source : Source}
    (h : source ∈ inputs extension parameters m) :
    Gives (ExceptT.adapt Failure.files (gather extension parameters)).run m
      (.ok (inputs extension parameters m)) := by
  obtain ⟨r, m', hgather, hm⟩ := quiet_gather extension parameters m
  have hinputs : inputs extension parameters m = r.toOption.getD [] := by
    rw [inputs, hgather]
  cases r with
  | error fault =>
    rw [hinputs] at h
    cases h
  | ok sources =>
    rw [hinputs]
    exact Gives.adapt Failure.files ⟨m', hgather, hm⟩

/-! ## The compiler -/

namespace Compiler

/-- Whether a file does not compile. -/
def Faulty (source : Source) : Prop :=
  ∃ fault, Jack.compile source = .error fault

/-- The compiler gives up before it changes any file. -/
theorem gives_work (h : ∃ source ∈ inputs "jack" parameters m, Faulty source) :
    ∃ failure, Gives (work palette settings parameters).run m (.error failure) := by
  obtain ⟨source, hsource, hfault⟩ := h
  obtain ⟨failure, hfailed⟩ := collected_eq_error
    (fun file => (Jack.compile file).mapError (·.report palette file))
    ⟨source, hsource, (isOk_mapError _ _).trans (isOk_eq_false_iff.2 hfault)⟩
  refine ⟨failure, (gives_gather hsource).bind_ok fun m₁ _ => ?_⟩
  have hread := gives_readAll (gives_compileFile palette settings) palette
    (inputs "jack" parameters m) m₁
  rw [hfailed] at hread
  exact hread.bind_error

end Compiler

/-! ## The translator -/

namespace Translator

/-- Whether a file is not translated: it is not read as stack machine code, or one of its
instructions has no lines. -/
def Faulty (source : Source) : Prop :=
  (∃ fault, Vm.File.read source = .error fault) ∨
    ∃ file, Vm.File.read source = .ok file ∧ ∃ i ∈ file.instructions, Hack.rejection? i ≠ none

/-- The directory that the output setting asks for: itself, or the one of a program. -/
def outputDirectory? (settings : Settings) : Option FilePath :=
  match settings.output?.map FilePath.mk with
  | none => none
  | some p =>
    if p.extension? = some "asm" then p.parent?.filter (·.spelled ≠ "") else some p

/-- The name of a program is looked up without a trace, whatever its place is otherwise. -/
theorem quiet_named (parameters : List String) {beside : Attempt Failure FilePath}
    (hbeside : Quiet beside) : Quiet (do
      if let [parameter] := parameters then
        let directory : FilePath := ⟨parameter⟩
        if ← Host.isDirectory directory then
          let some name ← Host.ownName directory | throw (.unnamedOutput directory)
          return directory.join (name ++ ".asm")
      beside) := by
  split
  · refine (quiet_isDirectory _).bind fun isDirectory => ?_
    split
    · refine (quiet_ownName _).bind fun name? => ?_
      cases name? with
      | none => exact .throw_bind _ _
      | some name => exact .pure _
    · exact hbeside
  · exact hbeside

theorem quiet_defaultTarget (parameters : List String) (files : List Source) :
    Quiet (defaultTarget parameters files : Attempt Failure FilePath) := by
  cases files with
  | nil => exact quiet_named parameters (.throw _)
  | cons first rest => exact quiet_named parameters (.pure _)

/-- The directory that a faulty input may leave behind, which is there only if all inputs are
read. -/
def leftover? (settings : Settings) (sources : List Source) : Option FilePath :=
  if sources.all fun source => (Vm.File.read source).isOk then outputDirectory? settings else none

/-- Looking for the place of the program makes its directory. -/
theorem prepares_target (palette : Palette) (settings : Settings) (parameters : List String)
    (files : List Source) (m : Machine) :
    Prepares (outputDirectory? settings) (target palette settings parameters files) m
      fun _ => True := by
  refine .quiet_bind (quiet_defaultTarget parameters files) (fun _ => trivial) fun default m₁ _ => ?_
  unfold outputDirectory?
  cases settings.output?.map FilePath.mk with
  | none => exact .of_gives (.pure _ m₁) trivial
  | some p =>
    dsimp only
    split
    · cases p.parent? with
      | none => exact .of_gives (.pure _ m₁) trivial
      | some parent =>
        by_cases hparent : parent.spelled = ""
        · simp only [hparent, if_true]
          exact .of_gives (.pure _ m₁) trivial
        · simp only [Option.filter, hparent, ne_eq, not_false_eq_true, decide_true, if_true, if_false]
          exact (prepares_ensureDirectory palette parent m₁).adapt.bind_quiet fun _ => .pure _
    · cases default.fileName? with
      | none => exact .of_gives (.pure _ m₁) trivial
      | some name =>
        exact (prepares_ensureDirectory palette p m₁).adapt.bind_quiet fun _ => .pure _

/-- The translator gives up before it writes its program. It may have made its output directory by
then, but not if some file is not read. -/
theorem prepares_work (h : ∃ source ∈ inputs "vm" parameters m, Faulty source) :
    Prepares (leftover? settings (inputs "vm" parameters m)) (work palette settings parameters) m
      fun r => ∃ failure, r = .error failure := by
  obtain ⟨source, hsource, hfaulty⟩ := h
  refine .gives_bind (gives_gather hsource) fun m₁ _ => ?_
  have hread := gives_readAll (gives_readFile palette) palette (inputs "vm" parameters m) m₁
  unfold leftover?
  split
  · next hall =>
    rw [List.all_eq_true] at hall
    rw [collected_eq_ok _ fun source hsource =>
      (isOk_mapError _ _).trans (hall source hsource)] at hread
    refine .gives_bind hread fun m₂ _ => .gives_bind (gives_log_ok _ _ _ m₂) fun m₃ _ => ?_
    extract_lets bootstrap translate
    -- the rejected instruction is in one of the files that were read
    have hrejected : ∃ file ∈ ((inputs "vm" parameters m).map fun source =>
        (Vm.File.read source).mapError (·.report palette source)).filterMap Except.toOption,
        ∃ i ∈ file.instructions, Hack.rejection? i ≠ none := by
      rcases hfaulty with ⟨fault, hfault⟩ | ⟨file, hfile, hi⟩
      · have hfine := hall source hsource
        rw [hfault] at hfine
        cases hfine
      · refine ⟨file, List.mem_filterMap.2 ⟨_, List.mem_map_of_mem hsource, ?_⟩, hi⟩
        rw [hfile]
        rfl
    have hfails (m : Machine) : Prepares (outputDirectory? settings) (translate ()) m
        fun r => ∃ failure, r = .error failure := by
      refine (prepares_target palette settings parameters _ m).bind_gives (fun e => ⟨e, rfl⟩)
        fun target m' => ?_
      cases target.stem? with
      | none => exact ⟨_, .pure _ m', _, rfl⟩
      | some name =>
        obtain ⟨fault, hfault⟩ := Hack.exists_fault_of_rejected hrejected name
          ⟨bootstrap, settings.isSet .annotate⟩
        dsimp only
        rw [hfault]
        exact ⟨_, .pure _ m', _, rfl⟩
    split
    · exact .gives_bind (gives_log_ok _ _ _ m₃) fun m₄ _ => hfails m₄
    · exact hfails m₃
  · next hsome =>
    rw [Bool.not_eq_true, List.all_eq_false] at hsome
    obtain ⟨source, hsource, hfault⟩ := hsome
    obtain ⟨failure, hfailed⟩ := collected_eq_error
      (fun source => (Vm.File.read source).mapError (·.report palette source))
      ⟨source, hsource, (isOk_mapError _ _).trans (eq_false_of_ne_true hfault)⟩
    rw [hfailed] at hread
    exact .of_gives hread.bind_error ⟨failure, rfl⟩

end Translator

end JackToolchain.Tool
