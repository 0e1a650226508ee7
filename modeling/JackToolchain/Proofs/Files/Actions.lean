import JackToolchain.Files.Output
import JackToolchain.Files.Roster
import JackToolchain.Proofs.Files.FileTree

/-!
# Actions that leave the files alone

Most of what a tool does on a machine is to look for files and to print messages. Such an action
gives a result and leaves all files as they are. Before a tool writes its output, it may make a
directory for it.

* `Gives`: an action gives a result and leaves the files alone.
* `quiet_gather`: files are gathered without a trace.
* `Prepares`: an action changes nothing but that it may make a given directory.
* `prepares_ensureDirectory`: an output directory is made if it is missing.
-/

namespace JackToolchain.Files

open Terminal

/-- An action that can fail, on a machine. -/
abbrev Attempt (ε α : Type) := ExceptT ε (StateT Machine Id) α

/-- Two machines have the same files, whatever is printed on them. -/
structure Machine.Alike (m m' : Machine) : Prop where
  tree : m'.tree = m.tree
  here : m'.here = m.here

namespace Machine.Alike

variable {m m' m'' : Machine}

theorem refl (m : Machine) : m.Alike m := ⟨rfl, rfl⟩

theorem trans (h : m.Alike m') (h' : m'.Alike m'') : m.Alike m'' :=
  ⟨h'.tree.trans h.tree, h'.here.trans h.here⟩

theorem print (channel : Channel) (text : String) (m : Machine) :
    m.Alike (m.print channel text) := by
  cases channel <;> exact ⟨rfl, rfl⟩

end Machine.Alike

variable {ε ε' α β γ : Type} {m m' : Machine} {a : α} {b : β} {e : ε}

/-! ## Results -/

/-- An action that ends well leaves some machine behind. -/
theorem exists_run_of_toOption {x : Attempt ε α} (h : (x.run.run m).1.toOption = some a) :
    ∃ m', x.run.run m = (.ok a, m') :=
  ⟨_, Prod.ext (toOption_eq_some_iff.1 h) rfl⟩

theorem run_adapt {x : Attempt ε α} {r : Except ε α} (f : ε → ε') (h : x.run.run m = (r, m')) :
    (x.adapt f).run.run m = (r.mapError f, m') := by
  have hmap : (x.adapt f).run.run m = (fun p => (p.1.mapError f, p.2)) <$> x.run.run m := rfl
  rw [hmap, h]
  rfl

theorem run_of_adapt_ok {x : Attempt ε α} {f : ε → ε'}
    (h : (x.adapt f).run.run m = (.ok a, m')) : x.run.run m = (.ok a, m') := by
  cases hx : x.run.run m with
  | mk r m₁ =>
    rw [run_adapt f hx] at h
    cases r with
    | error e => cases h
    | ok a =>
      cases h
      rfl

/-- An action gives a result on a machine and leaves its files alone. -/
def Gives (x : StateT Machine Id α) (m : Machine) (a : α) : Prop :=
  ∃ m', x.run m = (a, m') ∧ m.Alike m'

namespace Gives

theorem pure (a : α) (m : Machine) : Gives (Pure.pure a) m a := ⟨m, rfl, .refl m⟩

theorem bind {x : StateT Machine Id α} {f : α → StateT Machine Id β} (hx : Gives x m a)
    (hf : ∀ m', m.Alike m' → Gives (f a) m' b) : Gives (x >>= f) m b := by
  obtain ⟨m₁, hx, h₁⟩ := hx
  obtain ⟨m₂, hf, h₂⟩ := hf m₁ h₁
  refine ⟨m₂, ?_, h₁.trans h₂⟩
  rw [StateT.run_bind, hx]
  exact hf

theorem forM {f : γ → StateT Machine Id Unit} (hf : ∀ c m, Gives (f c) m ()) (cs : List γ)
    (m : Machine) : Gives (cs.forM f) m () := by
  induction cs generalizing m with
  | nil => exact pure _ m
  | cons c cs ih => exact (hf c m).bind fun m₁ _ => ih m₁

/-! An action that can fail gives a result or a fault. -/

theorem bind_ok {x : Attempt ε α} {f : α → Attempt ε β} {r : Except ε β}
    (hx : Gives x.run m (.ok a)) (hf : ∀ m', m.Alike m' → Gives (f a).run m' r) :
    Gives (x >>= f).run m r := by
  obtain ⟨m₁, hx, h₁⟩ := hx
  obtain ⟨m₂, hf, h₂⟩ := hf m₁ h₁
  exact ⟨m₂, (run_bind_ok hx).trans hf, h₁.trans h₂⟩

theorem bind_error {x : Attempt ε α} {f : α → Attempt ε β} (hx : Gives x.run m (.error e)) :
    Gives (x >>= f).run m (.error e) := by
  obtain ⟨m₁, hx, h₁⟩ := hx
  exact ⟨m₁, run_bind_error hx, h₁⟩

theorem lift {x : StateT Machine Id α} (hx : Gives x m a) :
    Gives (liftM x : Attempt ε α).run m (.ok a) := by
  obtain ⟨m', hx, h⟩ := hx
  refine ⟨m', ?_, h⟩
  have hmap : (liftM x : Attempt ε α).run.run m = (fun p => (.ok p.1, p.2)) <$> x.run m := rfl
  rw [hmap, hx]
  rfl

theorem adapt {x : Attempt ε α} {r : Except ε α} (f : ε → ε') (hx : Gives x.run m r) :
    Gives (x.adapt f).run m (r.mapError f) := by
  obtain ⟨m', hx, h⟩ := hx
  exact ⟨m', run_adapt f hx, h⟩

theorem mapM_ok {f : γ → Attempt ε α} {g : γ → α} (hf : ∀ c m, Gives (f c).run m (.ok (g c)))
    (cs : List γ) (m : Machine) : Gives (cs.mapM f).run m (.ok (cs.map g)) := by
  induction cs generalizing m with
  | nil => exact pure _ m
  | cons c cs ih =>
    rw [List.mapM_cons]
    refine (hf c m).bind_ok fun m₁ _ => ?_
    exact (ih m₁).bind_ok fun m₂ _ => pure _ m₂

end Gives

/-! ## Messages -/

theorem gives_print (channel : Channel) (text : String) (m : Machine) :
    Gives (Host.print channel text) m () :=
  ⟨_, rfl, .print channel text m⟩

theorem gives_log (palette : Palette) (severity : Severity) (message : String) (m : Machine) :
    Gives (log palette severity message) m () :=
  ⟨_, rfl, .print _ _ m⟩

theorem gives_log_ok (palette : Palette) (severity : Severity) (message : String) (m : Machine) :
    Gives (log palette severity message : Attempt ε Unit).run m (.ok ()) :=
  ⟨_, rfl, .print _ _ m⟩

/-! ## Files that are looked for -/

/-- Whether an action leaves the files of every machine alone, whatever its result is. -/
def Quiet (x : Attempt ε α) : Prop :=
  ∀ m, ∃ r, Gives x.run m r

namespace Quiet

theorem pure (a : α) : Quiet (Pure.pure a : Attempt ε α) :=
  fun m => ⟨_, .pure _ m⟩

/-- Whatever such an action ends with, the files are as they were. -/
theorem alike {x : Attempt ε α} {r : Except ε α} (hx : Quiet x) (h : x.run.run m = (r, m')) :
    m.Alike m' := by
  obtain ⟨r', m₁, hx, h₁⟩ := hx m
  cases hx.symm.trans h
  exact h₁

theorem throw (e : ε) : Quiet (MonadExcept.throw e : Attempt ε α) :=
  fun m => ⟨_, .pure _ m⟩

/-- What would follow a fault does not matter. -/
theorem throw_bind (e : ε) (f : α → Attempt ε β) : Quiet (MonadExcept.throw e >>= f) :=
  fun m => ⟨_, .bind_error (.pure _ m)⟩

theorem bind {x : Attempt ε α} {f : α → Attempt ε β} (hx : Quiet x) (hf : ∀ a, Quiet (f a)) :
    Quiet (x >>= f) := by
  intro m
  obtain ⟨r, m₁, hx, h₁⟩ := hx m
  cases r with
  | error e => exact ⟨_, m₁, run_bind_error hx, h₁⟩
  | ok a =>
    obtain ⟨r, m₂, hf, h₂⟩ := hf a m₁
    exact ⟨r, m₂, (run_bind_ok hx).trans hf, h₁.trans h₂⟩

theorem mapM {f : γ → Attempt ε α} (hf : ∀ c, Quiet (f c)) (cs : List γ) :
    Quiet (cs.mapM f) := by
  induction cs with
  | nil => exact pure []
  | cons c cs ih =>
    rw [List.mapM_cons]
    exact (hf c).bind fun a => ih.bind fun as => pure (a :: as)

theorem forM {f : γ → Attempt ε PUnit} (hf : ∀ c, Quiet (f c)) (cs : List γ) :
    Quiet (cs.forM f) := by
  induction cs with
  | nil => exact pure _
  | cons c cs ih => exact (hf c).bind fun _ => ih

theorem filterM {p : α → Attempt ε Bool} (hp : ∀ a, Quiet (p a)) (as : List α) :
    Quiet (as.filterM p) := by
  have haux (kept : List α) : Quiet (as.filterAuxM p kept) := by
    induction as generalizing kept with
    | nil => exact pure kept
    | cons a as ih => exact (hp a).bind fun b => ih _
  exact (haux []).bind fun kept => pure kept.reverse

end Quiet

theorem quiet_log (palette : Palette) (severity : Severity) (message : String) :
    Quiet (log palette severity message : Attempt ε Unit) :=
  fun m => ⟨_, gives_log_ok palette severity message m⟩

theorem quiet_isDirectory (p : FilePath) : Quiet (Host.isDirectory p : Attempt ε Bool) :=
  fun m => ⟨_, m, rfl, .refl m⟩

theorem quiet_isFile (p : FilePath) : Quiet (Host.isFile p : Attempt ε Bool) :=
  fun m => ⟨_, m, rfl, .refl m⟩

theorem quiet_names (p : FilePath) : Quiet (Host.names p : Attempt ε (Option (List String))) :=
  fun m => ⟨_, m, rfl, .refl m⟩

theorem quiet_read (p : FilePath) : Quiet (Host.read p : Attempt ε (Option String)) :=
  fun m => ⟨_, m, rfl, .refl m⟩

theorem quiet_ownName (p : FilePath) : Quiet (Host.ownName p : Attempt ε (Option String)) :=
  fun m => ⟨_, m, rfl, .refl m⟩

theorem quiet_entriesAt (extension : String) (p : FilePath) :
    Quiet (entriesAt extension p : Attempt Fault (List Entry)) := by
  refine (quiet_isDirectory p).bind fun isDirectory => ?_
  split
  · refine (quiet_names p).bind fun names? => ?_
    split
    · exact (Quiet.filterM quiet_isFile _).bind fun files => .pure _
    · exact .throw _
  · exact .pure _

theorem quiet_entryRead (extension : String) (e : Entry) :
    Quiet (e.read extension : Attempt Fault Source) := by
  unfold Entry.read
  split
  · exact .throw_bind _ _
  · refine (quiet_read e.path).bind fun text? => ?_
    split
    · split
      · exact .pure _
      · exact .throw _
    · exact .throw _

/-- Files are gathered without a trace. -/
theorem quiet_gather (extension : String) (arguments : List String) :
    Quiet (gather extension arguments : Attempt Fault (List Source)) := by
  refine (Quiet.mapM (fun a => quiet_entriesAt extension ⟨a⟩) arguments).bind fun entries => ?_
  split
  · exact .throw _
  · exact .mapM (quiet_entryRead extension) _

/-! ## The output directory -/

/-- The files of one machine are those of another but for a directory, if one is given, that was
missing and has been made. -/
inductive Machine.Prepared (directory? : Option FilePath) (m m' : Machine) : Prop where
  | alike (h : m.Alike m')
  | made (p : FilePath) (given : directory? = some p) (missing : m.tree.isDirectory m.here p = false)
      (tree : m'.tree = (m.tree.makeDirectories m.here p.ancestors).1) (here : m'.here = m.here)

namespace Machine.Prepared

variable {directory? : Option FilePath} {m'' : Machine}

theorem trans_alike (h : m.Prepared directory? m') (h' : m'.Alike m'') :
    m.Prepared directory? m'' := by
  cases h with
  | alike h => exact .alike (h.trans h')
  | made p given missing tree here =>
    exact .made p given missing (h'.tree.trans tree) (h'.here.trans here)

theorem of_alike_trans (h : m.Alike m') (h' : m'.Prepared directory? m'') :
    m.Prepared directory? m'' := by
  cases h' with
  | alike h' => exact .alike (h.trans h')
  | made p given missing tree here =>
    rw [h.tree, h.here] at missing tree
    exact .made p given missing tree (here.trans h.here)

theorem grown (h : m.Prepared directory? m') : m.tree.Grown m'.tree := by
  cases h with
  | alike h =>
    rw [h.tree]
    exact .refl _
  | made p given missing tree here =>
    rw [tree]
    exact FileTree.grown_makeDirectories _ _ _

theorem here (h : m.Prepared directory? m') : m'.here = m.here := by
  cases h with
  | alike h => exact h.here
  | made p given missing tree here => exact here

theorem alike_of_none (h : m.Prepared none m') : m.Alike m' := by
  cases h with
  | alike h => exact h
  | made p given => cases given

end Machine.Prepared

/-- An action ends with some result and leaves the files of a machine alone, but for a directory
that it may make. -/
def Prepares (directory? : Option FilePath) (x : Attempt ε α) (m : Machine)
    (R : Except ε α → Prop) : Prop :=
  ∃ r m', x.run.run m = (r, m') ∧ m.Prepared directory? m' ∧ R r

namespace Prepares

variable {directory? : Option FilePath} {x : Attempt ε α} {f : α → Attempt ε β}
  {R : Except ε β → Prop}

theorem of_gives {r : Except ε β} {x : Attempt ε β} (hx : Gives x.run m r) (hr : R r) :
    Prepares directory? x m R := by
  obtain ⟨m', hx, h⟩ := hx
  exact ⟨r, m', hx, .alike h, hr⟩

theorem adapt {g : ε → ε'} (hx : Prepares directory? x m fun _ => True) :
    Prepares directory? (x.adapt g) m fun _ => True := by
  obtain ⟨r, m', hx, h, hr⟩ := hx
  exact ⟨r.mapError g, m', run_adapt g hx, h, hr⟩

/-- Nothing that comes before has changed the files. -/
theorem gives_bind (hx : Gives x.run m (.ok a))
    (hf : ∀ m', m.Alike m' → Prepares directory? (f a) m' R) :
    Prepares directory? (x >>= f) m R := by
  obtain ⟨m₁, hx, h₁⟩ := hx
  obtain ⟨r, m₂, hf, h₂, hr⟩ := hf m₁ h₁
  exact ⟨r, m₂, (run_bind_ok hx).trans hf, .of_alike_trans h₁ h₂, hr⟩

theorem quiet_bind (hx : Quiet x) (he : ∀ e, R (.error e))
    (hf : ∀ a m', m.Alike m' → Prepares directory? (f a) m' R) :
    Prepares directory? (x >>= f) m R := by
  obtain ⟨r, hx⟩ := hx m
  cases r with
  | error e => exact .of_gives hx.bind_error (he e)
  | ok a => exact .gives_bind hx (hf a)

/-- Nothing that follows changes the files. -/
theorem bind_gives {R' : Except ε α → Prop} (hx : Prepares directory? x m R')
    (he : ∀ e, R (.error e)) (hf : ∀ a m', ∃ r, Gives (f a).run m' r ∧ R r) :
    Prepares directory? (x >>= f) m R := by
  obtain ⟨r, m₁, hx, h₁, -⟩ := hx
  cases r with
  | error e => exact ⟨.error e, m₁, run_bind_error hx, h₁, he e⟩
  | ok a =>
    obtain ⟨r, ⟨m₂, hf, h₂⟩, hr⟩ := hf a m₁
    exact ⟨r, m₂, (run_bind_ok hx).trans hf, h₁.trans_alike h₂, hr⟩

theorem bind_quiet {R' : Except ε α → Prop} (hx : Prepares directory? x m R')
    (hf : ∀ a, Quiet (f a)) : Prepares directory? (x >>= f) m fun _ => True := by
  refine hx.bind_gives (fun _ => trivial) fun a m' => ?_
  obtain ⟨r, hr⟩ := hf a m'
  exact ⟨r, hr, trivial⟩

end Prepares

theorem prepares_makeDirectories {p : FilePath} (h : m.tree.isDirectory m.here p = false) :
    Prepares (some p) (Host.makeDirectories p : Attempt ε Bool) m fun _ => True :=
  ⟨_, _, rfl, .made p rfl h rfl rfl, trivial⟩

/-- An output directory is made if it is missing. -/
theorem prepares_ensureDirectory (palette : Palette) (p : FilePath) (m : Machine) :
    Prepares (some p) (ensureDirectory palette p) m fun _ => True := by
  have hask : (Host.isDirectory p : Attempt Fault Bool).run.run m =
      (.ok (m.tree.isDirectory m.here p), m) := rfl
  cases hdirectory : m.tree.isDirectory m.here p with
  | true =>
    rw [hdirectory] at hask
    exact ⟨.ok (), m, run_bind_ok hask, .alike (.refl m), trivial⟩
  | false =>
    rw [hdirectory] at hask
    have hmake : Prepares (some p) (do
        unless ← Host.makeDirectories p do
          throw (.directoryNotMade p)
        log palette .info ("Created output directory: `" ++ p.spelled ++ "`") :
          Attempt Fault Unit) m fun _ => True := by
      refine (prepares_makeDirectories hdirectory).bind_quiet fun made => ?_
      split
      · exact quiet_log _ _ _
      · exact .throw_bind _ _
    obtain ⟨r, m', hmake, h, hr⟩ := hmake
    exact ⟨r, m', (run_bind_ok hask).trans hmake, h, hr⟩

end JackToolchain.Files
