import JackToolchain.Proofs.Files.Actions
import JackToolchain.Proofs.Files.Walk

/-!
# What writing output leaves behind

A file is first written as a draft beside its place. Moving it there takes whatever lay at its place
and at that of the draft, and nothing else.

* `Placed`: what writing a file does to a tree.
* `placed_of_writeFile`: a file that is written is placed.
* `placeOf`: where the output of a source file goes.
* `filed_of_writeOutputs`: **a batch of output changes its places and those of its drafts only, and
  each place holds a text that is to go there.**
-/

namespace JackToolchain.Files

open FilePath FileTree

/-! ## One file -/

theorem sameDirectories_put {t : FileTree} {l : Location} {content : Content}
    (h : t.get? l ≠ some .directory) : t.SameDirectories (t.put l (.file content)) := by
  have hl : l ≠ [] := by
    rintro rfl
    exact h rfl
  intro k
  by_cases hk : k = l
  · subst hk
    simp [h, get?_put_self hl]
  · rw [get?_put_of_ne t _ hk]

/-- Writing a text to a place by way of a draft changes these two places only. -/
structure Placed (t t' : FileTree) (place draft : Location) (text : String) : Prop where
  place_free : t.get? place ≠ some .directory
  draft_free : t.get? draft ≠ some .directory
  get? (k : Location) : t'.get? k =
    if k = place then some (.file (.text text)) else if k = draft then none else t.get? k

namespace Placed

variable {t t' : FileTree} {place draft : Location} {text : String}

theorem sameDirectories (h : Placed t t' place draft text) : t.SameDirectories t' := by
  intro k
  rw [h.get? k]
  by_cases hplace : k = place
  · subst hplace
    simp [h.place_free]
  · by_cases hdraft : k = draft
    · subst hdraft
      simp [h.draft_free, hplace]
    · rw [if_neg hplace, if_neg hdraft]

theorem of_put (hplace : t.get? place ≠ some .directory) (hdraft : t.get? draft ≠ some .directory) :
    Placed t (((t.put draft (.file (.text text))).erase draft).put place (.file (.text text)))
      place draft text := by
  have hroot {k : Location} (hk : t.get? k ≠ some .directory) : k ≠ [] := by
    rintro rfl
    exact hk rfl
  refine ⟨hplace, hdraft, fun k => ?_⟩
  by_cases hk : k = place
  · subst hk
    rw [if_pos rfl, get?_put_self (hroot hplace)]
  · rw [if_neg hk, get?_put_of_ne _ _ hk]
    by_cases hk' : k = draft
    · subst hk'
      rw [if_pos rfl, get?_erase_self (hroot hdraft)]
    · rw [if_neg hk', get?_erase_of_ne _ hk', get?_put_of_ne _ _ hk']

end Placed

variable {m m' : Machine} {p : FilePath} {text : String} {fault : Fault}

/-- Writing a file on a machine. -/
theorem run_writeFile (p : FilePath) (text : String) (m : Machine) :
    (writeFile p text : Attempt Fault Unit).run.run m =
      match m.tree.write m.here p.temporary text with
      | .error _ => (.error (.notWritten p.temporary), m)
      | .ok t =>
        match t.move m.here p.temporary p with
        | .error obstacle =>
          (.error (.notMoved p obstacle), { m with tree := t.remove m.here p.temporary })
        | .ok t' => (.ok (), { m with tree := t' }) := by
  have hwrite : (Host.write p.temporary text : Attempt Fault Bool).run.run m =
      (.ok (m.change (·.write · p.temporary text)).1.isOk,
        (m.change (·.write · p.temporary text)).2) := rfl
  rw [writeFile, run_bind_ok hwrite, Machine.change]
  cases m.tree.write m.here p.temporary text with
  | error obstacle => rfl
  | ok t =>
    have hmove (m : Machine) :
        (Host.move p.temporary p : Attempt Fault (Except Obstacle Unit)).run.run m =
          (.ok (m.change (·.move · p.temporary p)).1, (m.change (·.move · p.temporary p)).2) := rfl
    refine (run_bind_ok (hmove _)).trans ?_
    dsimp only
    rw [Machine.change]
    cases t.move m.here p.temporary p <;> rfl

/-- Whether a fault is one of the file system. -/
def Fault.OfSystem : Fault → Prop
  | .notWritten _ | .notMoved _ _ => True
  | _ => False

theorem ofSystem_of_writeFile
    (h : (writeFile p text : Attempt Fault Unit).run.run m = (.error fault, m')) :
    fault.OfSystem := by
  rw [run_writeFile] at h
  split at h
  · cases h
    trivial
  · split at h
    · cases h
      trivial
    · cases h

theorem FileTree.exists_of_write {t t' : FileTree} {here : Location}
    (h : t.write here p text = .ok t') :
    ∃ l, t.locate here p = .ok l ∧ t.get? l ≠ some .directory ∧
      t' = t.put l (.file (.text text)) := by
  obtain ⟨l, hl, h⟩ := bind_eq_ok_iff.1 h
  split at h
  · cases h
  · next hfree =>
    cases h
    exact ⟨l, hl, hfree, rfl⟩

/-- No file is moved to a path that goes up in the end. -/
theorem FileTree.exists_of_move {t t' : FileTree} {here : Location} {target : FilePath}
    (h : t.move here p target = .ok t') :
    target.segments.getLast? ≠ some ".." ∧
      ∃ l l' n, t.locate here p = .ok l ∧ t.locate here target = .ok l' ∧ t.get? l = some n ∧
        t.get? l' ≠ some .directory ∧ t' = (t.erase l).put l' n := by
  obtain ⟨l, hl, h⟩ := bind_eq_ok_iff.1 h
  dsimp only at h
  split at h
  · cases h
  · next hlast =>
    split at h
    · cases h
    · obtain ⟨l', hl', h⟩ := bind_eq_ok_iff.1 h
      split at h
      · cases h
      · cases h
      · next n hn hfree =>
        cases h
        refine ⟨fun hup => hlast (.inr ?_), l, l', n, hl, hl', hn, hfree, rfl⟩
        rw [List.getLast?_eq_head?_reverse] at hup
        obtain ⟨rest, hrest⟩ := List.head?_eq_some_iff.1 hup
        rw [hrest]
        rfl

/-- A file that is written is placed. -/
theorem placed_of_writeFile
    (h : (writeFile p text : Attempt Fault Unit).run.run m = (.ok (), m')) :
    m'.here = m.here ∧ p.segments.getLast? ≠ some ".." ∧
      ∃ place draft, m.tree.locate m.here p = .ok place ∧
        m.tree.locate m.here p.temporary = .ok draft ∧
          Placed m.tree m'.tree place draft text := by
  rw [run_writeFile] at h
  split at h
  · cases h
  · next t hwrite =>
    split at h
    · cases h
    · next t' hmove =>
      cases h
      obtain ⟨draft, hdraft, hfree, rfl⟩ := FileTree.exists_of_write hwrite
      obtain ⟨hup, draft', place, n, hdraft', hplace, hn, hfree', rfl⟩ :=
        FileTree.exists_of_move hmove
      -- the draft is no directory, so paths still name what they named before
      have hne : draft ≠ [] := by
        rintro rfl
        exact hfree rfl
      have hput : m.tree.SameDirectories (m.tree.put draft (.file (.text text))) :=
        sameDirectories_put hfree
      cases (hput.locate hdraft).symm.trans hdraft'
      rw [get?_put_self hne] at hn
      cases hn
      refine ⟨rfl, hup, place, draft, hput.symm.locate hplace, hdraft, ?_⟩
      exact .of_put (fun h => hfree' ((hput place).1 h)) hfree

/-! ## Places -/

/-- The directory for the output of a source file at a location: its own one, or a given one. What
is written into an empty path lies in the working directory. -/
def parentOf (m : Machine) (directory : Option FilePath) (l : Location) : Option Location :=
  match directory with
  | none => some l.dropLast
  | some d => if d.spelled = "" then some m.here else (m.tree.locate m.here d).toOption

/-- Where the output of a source file goes. It has the stem of the source file and another
ending. -/
def placeOf (ending : String) (m : Machine) (directory : Option FilePath) (source : Source) :
    Option Location := do
  let l ← (m.tree.locate m.here source.path).toOption
  let stem ← source.path.stem?
  let parent ← parentOf m directory l
  return parent ++ [stem ++ "." ++ ending]

/-- A source file ends in a stem and the ending of classes, and lies somewhere. -/
structure Lies (m : Machine) (source : Source) (base : List String) (stem : String)
    (parent : Location) : Prop where
  segments : source.path.segments = base ++ [stem ++ "." ++ "jack"]
  stem_ne : stem ≠ ""
  located : m.tree.locate m.here source.path = .ok (parent ++ [stem ++ "." ++ "jack"])

variable {source : Source} {base : List String} {stem ending : String}
  {parent place draft : Location} {directory : Option FilePath} {d : FilePath}

namespace Lies

theorem no_slash (h : Lies m source base stem parent) : '/' ∉ stem.toList := by
  have hname : '/' ∉ (stem ++ "." ++ "jack").toList := by
    refine not_mem_of_mem_segments (p := source.path) ?_
    rw [h.segments]
    exact List.mem_append_right _ List.mem_cons_self
  exact fun hmem => hname (by simp [hmem])

theorem isName (h : Lies m source base stem parent) (hending : ending ≠ "")
    (hslash : '/' ∉ ending.toList) : IsName (stem ++ "." ++ ending) :=
  isName_dotted h.stem_ne hending h.no_slash hslash

theorem fileName? (h : Lies m source base stem parent) :
    source.path.fileName? = some (stem ++ "." ++ "jack") :=
  fileName?_of_segments h.segments (h.isName (by decide) (by decide))

theorem stem? (h : Lies m source base stem parent) : source.path.stem? = some stem := by
  have hsplit : splitName (stem ++ "." ++ "jack") = (stem, some "jack") :=
    splitName_eq_iff.2 ⟨h.stem_ne, by decide, rfl⟩
  rw [FilePath.stem?, h.fileName?, Option.map_some, hsplit]

/-- A source file still lies there when only files have changed. -/
theorem congr (h : Lies m source base stem parent) (hhere : m'.here = m.here)
    (hdirectories : m.tree.SameDirectories m'.tree) : Lies m' source base stem parent :=
  ⟨h.segments, h.stem_ne, by rw [hhere]; exact hdirectories.locate h.located⟩

theorem placeOf_eq (h : Lies m source base stem parent) (ending : String)
    (directory : Option FilePath) :
    placeOf ending m directory source =
      (parentOf m directory (parent ++ [stem ++ "." ++ "jack"])).map
        (· ++ [stem ++ "." ++ ending]) := by
  have hlocated : (m.tree.locate m.here source.path).toOption =
      some (parent ++ [stem ++ "." ++ "jack"]) :=
    toOption_eq_some_iff.2 h.located
  unfold placeOf
  rw [hlocated, h.stem?]
  cases hdirectory : parentOf m directory (parent ++ [stem ++ "." ++ "jack"]) <;> simp [hdirectory]

/-- In a given directory, files of the same name have the same place. -/
theorem placeOf_congr_name {source' : Source} {base' : List String} {stem' : String}
    {parent' : Location} (h : Lies m source base stem parent)
    (h' : Lies m source' base' stem' parent') (hdirectory : directory ≠ none)
    (hname : source.path.fileName? = source'.path.fileName?) (ending : String) :
    placeOf ending m directory source = placeOf ending m directory source' := by
  have hstem : source.path.stem? = source'.path.stem? := by
    rw [FilePath.stem?, FilePath.stem?, hname]
  rw [h.stem?, h'.stem?] at hstem
  cases hstem
  rw [h.placeOf_eq, h'.placeOf_eq]
  cases directory with
  | none => exact absurd rfl hdirectory
  | some d => rfl

/-- Files of the same place have the same name, and they are the same file unless a directory is
given. -/
theorem eq_of_placeOf {source' : Source} {base' : List String} {stem' : String}
    {parent' : Location} (h : Lies m source base stem parent)
    (h' : Lies m source' base' stem' parent')
    (hplace : placeOf ending m directory source = some place)
    (hplace' : placeOf ending m directory source' = some place) :
    source.path.fileName? = source'.path.fileName? ∧
      (directory = none →
        m.tree.locate m.here source.path = m.tree.locate m.here source'.path) := by
  rw [h.placeOf_eq] at hplace
  rw [h'.placeOf_eq] at hplace'
  obtain ⟨k, hk, rfl⟩ := Option.map_eq_some_iff.1 hplace
  obtain ⟨k', hk', heq⟩ := Option.map_eq_some_iff.1 hplace'
  obtain ⟨rfl, hname⟩ := List.append_inj' heq rfl
  have hstem : stem' = stem := by
    have hchars : (stem' ++ "." ++ ending).toList = (stem ++ "." ++ ending).toList :=
      congrArg String.toList (List.cons.inj hname).1
    simp only [String.append_assoc, String.toList_append] at hchars
    exact String.toList_injective (List.append_cancel_right hchars)
  subst hstem
  refine ⟨by rw [h.fileName?, h'.fileName?], ?_⟩
  rintro rfl
  rw [parentOf, List.dropLast_concat] at hk hk'
  cases hk
  cases hk'
  rw [h.located, h'.located]

theorem segments_beside (h : Lies m source base stem parent) {s : String} (hs : '/' ∉ s.toList) :
    (ofSegments (base ++ [s])).segments = base ++ [s] := by
  refine segments_ofSegments (List.append_ne_nil_of_right_ne_nil _ (List.cons_ne_nil _ _)) ?_
  intro s' hs'
  rcases List.mem_append.1 hs' with hs' | hs'
  · refine not_mem_of_mem_segments (p := source.path) ?_
    rw [h.segments]
    exact List.mem_append_left _ hs'
  · rwa [List.mem_singleton.1 hs']

/-! What is written under the stem of the source file lies where output is to go. -/

theorem placeOf_none (h : Lies m source base stem parent) (hending : ending ≠ "")
    (hslash : '/' ∉ ending.toList)
    (hplace : m.tree.locate m.here (ofSegments (base ++ [stem ++ "." ++ ending])) = .ok place) :
    placeOf ending m none source = some place := by
  have hname := h.isName hending hslash
  obtain ⟨k, hk, -, rfl⟩ := locate_name (h.segments_beside hname.no_slash) hname hplace
  obtain ⟨k', hk', -, hparent⟩ :=
    locate_name h.segments (h.isName (by decide) (by decide)) h.located
  cases hk.symm.trans hk'
  obtain ⟨rfl, -⟩ := List.append_inj' hparent rfl
  rw [h.placeOf_eq, parentOf, List.dropLast_concat]
  rfl

theorem placeOf_some (h : Lies m source base stem parent) (hending : ending ≠ "")
    (hslash : '/' ∉ ending.toList)
    (hplace : m.tree.locate m.here (d.join (stem ++ "." ++ ending)) = .ok place) :
    placeOf ending m (some d) source = some place := by
  have hname := h.isName hending hslash
  rw [h.placeOf_eq]
  unfold parentOf
  dsimp only
  by_cases hd : d.spelled = ""
  · have hinner : d.leadingSegments = [] := by
      obtain ⟨spelled⟩ := d
      cases hd
      rfl
    obtain ⟨k, hk, -, rfl⟩ := locate_name (segments_join d hname.no_slash) hname hplace
    rw [hinner] at hk
    cases hk
    rw [if_pos hd]
    rfl
  · obtain ⟨k, hk, rfl⟩ := locate_inside hd hname hplace
    rw [if_neg hd, hk]
    rfl

theorem outputPath_none (h : Lies m source base stem parent) (ending : String) :
    outputPath ending none source =
      .ok (ofSegments (base ++ [if stem = "." then ".." else stem ++ "." ++ ending])) :=
  congrArg Except.ok
    (withExtension_eq h.segments h.stem_ne (by decide) (by decide) (by decide))

theorem outputPath_some (h : Lies m source base stem parent) (hending : ending ≠ "")
    (hslash : '/' ∉ ending.toList) (d : FilePath) :
    outputPath ending (some d) source =
      if stem = "." then .error .noFileName else .ok (d.join (stem ++ "." ++ ending)) := by
  have hbeside : source.path.withExtension ending =
      ofSegments (base ++ [if stem = "." then ".." else stem ++ "." ++ ending]) :=
    withExtension_eq h.segments h.stem_ne (by decide) (by decide) (by decide)
  rw [outputPath, hbeside]
  by_cases hstem : stem = "."
  · rw [if_pos hstem, if_pos hstem, fileName?_up (h.segments_beside (by decide))]
  · have hname := h.isName hending hslash
    rw [if_neg hstem, if_neg hstem,
      fileName?_of_segments (h.segments_beside hname.no_slash) hname]

theorem fault_of_outputPath (h : Lies m source base stem parent)
    (hpath : outputPath "vm" directory source = .error fault) :
    fault = .noFileName ∧ directory ≠ none ∧ source.path.fileName? = some "..jack" := by
  cases directory with
  | none =>
    rw [h.outputPath_none] at hpath
    cases hpath
  | some d =>
    rw [h.outputPath_some (by decide) (by decide)] at hpath
    split at hpath
    · next hstem =>
      cases hpath
      rw [h.fileName?, hstem]
      exact ⟨rfl, Option.some_ne_none d, rfl⟩
    · cases hpath

/-- The output of a source file is placed. -/
theorem placed (h : Lies m source base stem parent)
    (hpath : outputPath "vm" directory source = .ok p)
    (hwritten : (writeFile p text : Attempt Fault Unit).run.run m = (.ok (), m')) :
    m'.here = m.here ∧ ∃ place draft, placeOf "vm" m directory source = some place ∧
      placeOf "vm.tmp" m directory source = some draft ∧
        Placed m.tree m'.tree place draft text := by
  obtain ⟨hhere, hup, place, draft, hplace, hdraft, hplaced⟩ := placed_of_writeFile hwritten
  refine ⟨hhere, place, draft, ?_⟩
  have hdrafted : stem ++ "." ++ "vm" ++ ".tmp" = stem ++ "." ++ "vm.tmp" := String.append_assoc
  cases directory with
  | none =>
    rw [h.outputPath_none] at hpath
    cases hpath
    -- a file is not moved to the directory above
    have hstem : stem ≠ "." := by
      rintro rfl
      rw [if_pos rfl, h.segments_beside (by decide), List.getLast?_concat] at hup
      exact hup rfl
    rw [if_neg hstem] at hplace hdraft
    rw [temporary_ofSegments, hdrafted] at hdraft
    exact ⟨h.placeOf_none (by decide) (by decide) hplace,
      h.placeOf_none (by decide) (by decide) hdraft, hplaced⟩
  | some d =>
    rw [h.outputPath_some (by decide) (by decide)] at hpath
    split at hpath
    · cases hpath
    · cases hpath
      rw [join_eq, temporary_ofSegments, hdrafted, ← join_eq] at hdraft
      exact ⟨h.placeOf_some (by decide) (by decide) hplace,
        h.placeOf_some (by decide) (by decide) hdraft, hplaced⟩

end Lies

/-! ## A batch -/

/-- What a batch of output leaves on a machine. Its places are those that its sources have on the
machine before. -/
structure Filed (m m' : Machine) (directory : Option FilePath) (batch : List (Source × String)) :
    Prop where
  here : m'.here = m.here
  directories : m.tree.SameDirectories m'.tree
  placed : ∀ e ∈ batch, ∃ place draft,
    placeOf "vm" m directory e.1 = some place ∧ placeOf "vm.tmp" m directory e.1 = some draft
  content : ∀ e ∈ batch, ∀ place, placeOf "vm" m directory e.1 = some place →
    ∃ f ∈ batch, placeOf "vm" m directory f.1 = some place ∧
      m'.tree.get? place = some (.file (.text f.2))
  drafts : ∀ e ∈ batch, ∀ draft, placeOf "vm.tmp" m directory e.1 = some draft →
    m'.tree.get? draft = none
  frame : ∀ l, (∀ e ∈ batch, placeOf "vm" m directory e.1 ≠ some l ∧
    placeOf "vm.tmp" m directory e.1 ≠ some l) → m'.tree.get? l = m.tree.get? l

theorem exists_of_placeOf (h : placeOf ending m directory source = some place) :
    ∃ parent stem, place = parent ++ [stem ++ "." ++ ending] := by
  obtain ⟨l, -, h⟩ := Option.bind_eq_some_iff.1 h
  obtain ⟨stem, -, h⟩ := Option.bind_eq_some_iff.1 h
  obtain ⟨parent, -, h⟩ := Option.bind_eq_some_iff.1 h
  cases h
  exact ⟨parent, stem, rfl⟩

/-- Places and drafts are told apart by their endings. -/
theorem placeOf_ne_draft {source' : Source} (h : placeOf "vm" m directory source = some place)
    (h' : placeOf "vm.tmp" m directory source' = some draft) : place ≠ draft := by
  obtain ⟨parent, stem, rfl⟩ := exists_of_placeOf h
  obtain ⟨parent', stem', rfl⟩ := exists_of_placeOf h'
  intro heq
  obtain ⟨-, hname⟩ := List.append_inj' heq rfl
  have hlast : (stem ++ "." ++ "vm").toList.getLast? = (stem' ++ "." ++ "vm.tmp").toList.getLast? :=
    congrArg (fun name : String => name.toList.getLast?) (List.cons.inj hname).1
  simp at hlast

/-- Where output goes depends on directories only. -/
theorem placeOf_congr (hhere : m'.here = m.here) (hdirectories : m.tree.SameDirectories m'.tree)
    (ending : String) (directory : Option FilePath) (source : Source) :
    placeOf ending m' directory source = placeOf ending m directory source := by
  unfold placeOf parentOf
  simp only [hhere, hdirectories.toOption_locate]

namespace Filed

theorem nil (m : Machine) (directory : Option FilePath) : Filed m m directory [] :=
  ⟨rfl, .refl _, nofun, nofun, nofun, fun _ _ => rfl⟩

theorem trans_alike {m'' : Machine} {batch : List (Source × String)}
    (h : Filed m m' directory batch) (h' : m'.Alike m'') : Filed m m'' directory batch := by
  obtain ⟨hhere, hdirectories, hplaced, hcontent, hdrafts, hframe⟩ := h
  simp only [← h'.tree] at hdirectories hcontent hdrafts hframe
  exact ⟨h'.here.trans hhere, hdirectories, hplaced, hcontent, hdrafts, hframe⟩

/-- What comes later may take the place of what came before, but no draft. -/
theorem cons {m₁ : Machine} {batch : List (Source × String)} (hhere : m₁.here = m.here)
    (hplace : placeOf "vm" m directory source = some place)
    (hdraft : placeOf "vm.tmp" m directory source = some draft)
    (hplaced : Placed m.tree m₁.tree place draft text) (h : Filed m₁ m' directory batch) :
    Filed m m' directory ((source, text) :: batch) := by
  have hsame (ending : String) (source : Source) :
      placeOf ending m₁ directory source = placeOf ending m directory source :=
    placeOf_congr hhere hplaced.sameDirectories ending directory source
  obtain ⟨hhere', hdirectories, hbatch, hcontent, hdrafts, hframe⟩ := h
  simp only [hsame] at hbatch hcontent hdrafts hframe
  refine ⟨hhere'.trans hhere, hplaced.sameDirectories.trans hdirectories, ?_, ?_, ?_, ?_⟩
  · intro e he
    rcases List.mem_cons.1 he with rfl | he
    · exact ⟨place, draft, hplace, hdraft⟩
    · exact hbatch e he
  · intro e he l hl
    -- a later file with the same place decides what lies there
    by_cases hlater : ∃ f ∈ batch, placeOf "vm" m directory f.1 = some l
    · obtain ⟨f, hf, hfl⟩ := hlater
      obtain ⟨g, hg, hgl, hcontent⟩ := hcontent f hf l hfl
      exact ⟨g, List.mem_cons_of_mem _ hg, hgl, hcontent⟩
    · rcases List.mem_cons.1 he with rfl | he
      · cases hplace.symm.trans hl
        refine ⟨(source, text), List.mem_cons_self, hplace, ?_⟩
        rw [hframe place fun f hf => ⟨fun hfl => hlater ⟨f, hf, hfl⟩, fun hfl =>
          placeOf_ne_draft hplace hfl rfl⟩, hplaced.get? place, if_pos rfl]
      · exact absurd ⟨e, he, hl⟩ hlater
  · intro e he l hl
    by_cases hlater : ∃ f ∈ batch, placeOf "vm.tmp" m directory f.1 = some l
    · obtain ⟨f, hf, hfl⟩ := hlater
      exact hdrafts f hf l hfl
    · rcases List.mem_cons.1 he with rfl | he
      · cases hdraft.symm.trans hl
        rw [hframe draft fun f hf => ⟨fun hfl => placeOf_ne_draft hfl hdraft rfl, fun hfl =>
          hlater ⟨f, hf, hfl⟩⟩, hplaced.get? draft, if_neg (placeOf_ne_draft hplace hdraft).symm,
          if_pos rfl]
      · exact absurd ⟨e, he, hl⟩ hlater
  · intro l hl
    obtain ⟨hne, hne'⟩ := hl (source, text) List.mem_cons_self
    have hplace' : l ≠ place := fun heq => hne (heq ▸ hplace)
    have hdraft' : l ≠ draft := fun heq => hne' (heq ▸ hdraft)
    rw [hframe l fun e he => hl e (List.mem_cons_of_mem _ he), hplaced.get? l, if_neg hplace',
      if_neg hdraft']

end Filed

/-- A batch ends where a file has no path, where one is not written, or where the files behind it
end. -/
theorem writeOutputs_cons_cases {batch : List (Source × String)} {r : Except Fault (List FilePath)}
    (h : (writeOutputs ending directory ((source, text) :: batch) :
      Attempt Fault (List FilePath)).run.run m = (r, m')) :
    (∃ fault, r = .error fault ∧ (outputPath ending directory source = .error fault ∨
      ∃ p, (writeFile p text : Attempt Fault Unit).run.run m = (.error fault, m'))) ∨
    ∃ p m₁ r', outputPath ending directory source = .ok p ∧
      (writeFile p text : Attempt Fault Unit).run.run m = (.ok (), m₁) ∧
      (writeOutputs ending directory batch : Attempt Fault (List FilePath)).run.run m₁ = (r', m') ∧
      r = r'.map (p :: ·) := by
  rw [writeOutputs] at h
  have hlift : (liftM (outputPath ending directory source) : Attempt Fault FilePath).run.run m =
      (outputPath ending directory source, m) := rfl
  rcases run_bind_cases h with ⟨fault, hpath, rfl⟩ | ⟨p, m₁, hpath, h⟩
  · obtain ⟨herror, -⟩ := Prod.mk.inj (hlift.symm.trans hpath)
    exact .inl ⟨fault, rfl, .inl herror⟩
  · obtain ⟨hp, rfl⟩ := Prod.mk.inj (hlift.symm.trans hpath)
    rcases run_bind_cases h with ⟨fault, hwrite, rfl⟩ | ⟨⟨⟩, m₂, hwrite, h⟩
    · exact .inl ⟨fault, rfl, .inr ⟨p, hwrite⟩⟩
    · refine .inr ⟨p, m₂, ?_⟩
      rcases run_bind_cases h with ⟨fault, hrest, rfl⟩ | ⟨written, m₃, hrest, h⟩
      · exact ⟨.error fault, hp, hwrite, hrest, rfl⟩
      · cases h
        exact ⟨.ok written, hp, hwrite, hrest, rfl⟩

/-- A batch of output is filed. It fails if the file system does, or if a directory is given for the
output of a source file whose stem is a lone dot. -/
theorem filed_of_writeOutputs {batch : List (Source × String)} {r : Except Fault (List FilePath)}
    (hlies : ∀ e ∈ batch, ∃ base stem parent, Lies m e.1 base stem parent)
    (h : (writeOutputs "vm" directory batch : Attempt Fault (List FilePath)).run.run m = (r, m')) :
    (∀ fault, r = .error fault → fault.OfSystem ∨ fault = .noFileName ∧ directory ≠ none ∧
      ∃ e ∈ batch, e.1.path.fileName? = some "..jack") ∧
    ∀ written, r = .ok written → Filed m m' directory batch := by
  induction batch generalizing m r with
  | nil =>
    cases h
    exact ⟨nofun, fun _ _ => .nil _ directory⟩
  | cons e batch ih =>
    obtain ⟨source, text⟩ := e
    obtain ⟨base, stem, parent, hsource⟩ := hlies _ List.mem_cons_self
    rcases writeOutputs_cons_cases h with
      ⟨fault, rfl, hpath | ⟨p, hwrite⟩⟩ | ⟨p, m₁, r', hpath, hwrite, hrest, rfl⟩
    · refine ⟨fun fault' hfault => .inr ?_, nofun⟩
      cases hfault
      obtain ⟨hfault, hdirectory, hname⟩ := hsource.fault_of_outputPath hpath
      exact ⟨hfault, hdirectory, _, List.mem_cons_self, hname⟩
    · refine ⟨fun fault' hfault => .inl ?_, nofun⟩
      cases hfault
      exact ofSystem_of_writeFile hwrite
    · obtain ⟨hhere, place, draft, hplace, hdraft, hplaced⟩ := hsource.placed hpath hwrite
      -- the other source files still lie where they lay
      have hlies' : ∀ e ∈ batch, ∃ base stem parent, Lies m₁ e.1 base stem parent := by
        intro e he
        obtain ⟨base, stem, parent, he⟩ := hlies e (List.mem_cons_of_mem _ he)
        exact ⟨base, stem, parent, he.congr hhere hplaced.sameDirectories⟩
      obtain ⟨hfaults, hfiled⟩ := ih hlies' hrest
      cases r' with
      | error fault =>
        refine ⟨fun fault' hfault => ?_, nofun⟩
        cases hfault
        rcases hfaults fault rfl with hsystem | ⟨hfault, hdirectory, e, he, hname⟩
        · exact .inl hsystem
        · exact .inr ⟨hfault, hdirectory, e, List.mem_cons_of_mem _ he, hname⟩
      | ok written =>
        exact ⟨nofun, fun _ _ => .cons hhere hplace hdraft hplaced (hfiled written rfl)⟩

end JackToolchain.Files
