import JackToolchain.Proofs.Files.FileTree
import JackToolchain.Proofs.Files.Paths

/-!
# The locations that paths name

A path is walked one segment at a time, and each step leaves a directory. What a path names thus
depends on the directories of a tree alone.

* `SameDirectories`: two trees have the same directories, so that **paths name the same locations in
  both** (`SameDirectories.locate`).
* `locate_name`: a path that ends in a name names something in the directory before it.
* `locate_inside`: what lies inside a directory is named through the location of the directory.
* `lies_of_isFile`: a path of a file with an extension ends in a name.
-/

namespace JackToolchain.Files.FileTree

open FilePath

variable {t t' t'' : FileTree} {here k l : Location} {p d : FilePath} {base ss : List String}
  {s extension : String} {n : Node}

/-- Where a segment leads from a directory. -/
def nextLocation (l : Location) (s : String) : Except Obstacle Location :=
  if isIdle s then .ok l
  else if s = ".." then .ok l.dropLast
  else if maxNameSize < s.utf8ByteSize then .error .nameTooLong
  else .ok (l ++ [s])

theorem walk_cons (t : FileTree) (l : Location) (s : String) (ss : List String) :
    t.walk l (s :: ss) =
      match t.get? l with
      | none => .error .missing
      | some (.file _) => .error .notDirectory
      | some .directory => nextLocation l s >>= fun k => t.walk k ss := by
  rw [walk]
  cases t.get? l with
  | none => rfl
  | some node =>
    cases node with
    | file content => rfl
    | directory =>
      dsimp only
      unfold nextLocation
      split
      · rfl
      · split
        · rfl
        · split <;> rfl

theorem walk_cons_eq_ok_iff :
    t.walk l (s :: ss) = .ok k ↔
      t.get? l = some .directory ∧ ∃ l', nextLocation l s = .ok l' ∧ t.walk l' ss = .ok k := by
  rw [walk_cons]
  split
  · next hl => simp [hl]
  · next hl => simp [hl]
  · next hl => rw [bind_eq_ok_iff, and_iff_right hl]

/-- A path is walked part by part. -/
theorem walk_append (t : FileTree) (l : Location) (ss ss' : List String) :
    t.walk l (ss ++ ss') = t.walk l ss >>= fun k => t.walk k ss' := by
  induction ss generalizing l with
  | nil => rfl
  | cons s ss ih =>
    rw [List.cons_append, walk_cons, walk_cons]
    split
    · rfl
    · rfl
    · cases nextLocation l s with
      | error obstacle => rfl
      | ok l' => exact ih l'

/-! ## Trees with the same directories -/

section directories

variable (h : ∀ l, t.get? l = some .directory → t'.get? l = some .directory)
include h

theorem walk_of_directories (hwalk : t.walk l ss = .ok k) : t'.walk l ss = .ok k := by
  induction ss generalizing l with
  | nil => exact hwalk
  | cons s ss ih =>
    obtain ⟨hl, l', hnext, hwalk⟩ := walk_cons_eq_ok_iff.1 hwalk
    exact walk_cons_eq_ok_iff.2 ⟨h l hl, l', hnext, ih hwalk⟩

/-- A path names the same location in a tree with more directories. -/
theorem locate_of_directories (hlocate : t.locate here p = .ok l) : t'.locate here p = .ok l := by
  unfold FileTree.locate locateSegments at hlocate ⊢
  split at hlocate
  · cases hlocate
  · split at hlocate
    · cases hlocate
    · next hempty hlong =>
      rw [if_neg hempty, if_neg hlong]
      exact walk_of_directories h hlocate

end directories

/-- Files are still there when directories have been made. -/
theorem Grown.get?_eq (h : t.Grown t') (hnode : t.get? l = some n) : t'.get? l = some n := by
  rcases h l with hsame | ⟨hnone, -⟩
  · rw [hsame, hnode]
  · rw [hnone] at hnode
    cases hnode

theorem Grown.read? (h : t.Grown t') {text : String} (hread : t.read? here p = some text) :
    t'.read? here p = some text := by
  unfold FileTree.read? find? at hread ⊢
  cases hlocate : t.locate here p with
  | error obstacle => simp [hlocate] at hread
  | ok l =>
    rw [locate_of_directories (fun l => h.get?_eq) hlocate]
    cases hnode : t.get? l with
    | none => simp [hlocate, hnode] at hread
    | some node =>
      simp only [h.get?_eq hnode]
      simpa [hlocate, hnode] using hread

/-- Two trees have the same directories. -/
def SameDirectories (t t' : FileTree) : Prop :=
  ∀ l, t.get? l = some .directory ↔ t'.get? l = some .directory

namespace SameDirectories

theorem refl (t : FileTree) : t.SameDirectories t := fun _ => Iff.rfl

theorem symm (h : t.SameDirectories t') : t'.SameDirectories t := fun l => (h l).symm

theorem trans (h : t.SameDirectories t') (h' : t'.SameDirectories t'') : t.SameDirectories t'' :=
  fun l => (h l).trans (h' l)

/-- Paths name the same locations in trees with the same directories. -/
theorem locate (h : t.SameDirectories t') (hlocate : t.locate here p = .ok l) :
    t'.locate here p = .ok l :=
  locate_of_directories (fun l => (h l).1) hlocate

theorem toOption_locate (h : t.SameDirectories t') (here : Location) (p : FilePath) :
    (t.locate here p).toOption = (t'.locate here p).toOption := by
  refine Option.ext fun l => ?_
  rw [toOption_eq_some_iff, toOption_eq_some_iff]
  exact ⟨h.locate, h.symm.locate⟩

end SameDirectories

/-! ## Names -/

/-- Where a path starts that has some segments before its last one. -/
def origin (here : Location) (base : List String) : Location :=
  if base.head? = some "" then [] else here

theorem walk_name (hs : IsName s) (h : t.walk l [s] = .ok k) :
    t.get? l = some .directory ∧ k = l ++ [s] := by
  obtain ⟨hl, l', hnext, hwalk⟩ := walk_cons_eq_ok_iff.1 h
  cases hwalk
  rw [nextLocation, if_neg (by simp [hs.active]), if_neg hs.ne_up] at hnext
  split at hnext
  · cases hnext
  · cases hnext
    exact ⟨hl, rfl⟩

theorem walk_idle_iff (hs : isIdle s = true) :
    t.walk l [s] = .ok k ↔ t.get? l = some .directory ∧ k = l := by
  rw [walk_cons_eq_ok_iff, nextLocation, if_pos hs]
  constructor
  · rintro ⟨hl, l', hnext, hwalk⟩
    cases hnext
    cases hwalk
    exact ⟨hl, rfl⟩
  · rintro ⟨hl, rfl⟩
    exact ⟨hl, k, rfl, rfl⟩

theorem exists_walk_of_locate (hsegments : p.segments = base ++ [s])
    (h : t.locate here p = .ok l) :
    p.spelled.utf8ByteSize ≤ maxPathSize ∧
      ∃ k, t.walk (origin here base) base = .ok k ∧ t.walk k [s] = .ok l := by
  unfold locate locateSegments at h
  split at h
  · cases h
  · split at h
    · cases h
    · next hlong =>
      have horigin : (if p.isAbsolute = true then [] else here) = origin here base := by
        rw [isAbsolute_of_segments hsegments, origin]
        simp
      rw [horigin, hsegments, walk_append] at h
      exact ⟨Nat.le_of_not_lt hlong, bind_eq_ok_iff.1 h⟩

/-- A path that ends in a name names something in the directory before it. -/
theorem locate_name (hsegments : p.segments = base ++ [s]) (hs : IsName s)
    (h : t.locate here p = .ok l) :
    ∃ k, t.walk (origin here base) base = .ok k ∧ t.get? k = some .directory ∧ l = k ++ [s] := by
  obtain ⟨-, k, hk, hl⟩ := exists_walk_of_locate hsegments h
  obtain ⟨hdirectory, rfl⟩ := walk_name hs hl
  exact ⟨k, hk, hdirectory, rfl⟩

/-- What lies inside a directory is named through the location of the directory. -/
theorem locate_inside (hd : d.spelled ≠ "") (hs : IsName s) (h : t.locate here (d.join s) = .ok l) :
    ∃ k, t.locate here d = .ok k ∧ l = k ++ [s] := by
  obtain ⟨hsize, k, hwalk, hlast⟩ := exists_walk_of_locate (segments_join d hs.no_slash) h
  obtain ⟨hdirectory, rfl⟩ := walk_name hs hlast
  obtain ⟨base, last, hsegments⟩ : ∃ base last, d.segments = base ++ [last] :=
    ⟨_, _, (List.dropLast_append_getLast d.segments_ne_nil).symm⟩
  have hsize' : ¬maxPathSize < d.spelled.utf8ByteSize :=
    Nat.not_lt.2 (Nat.le_trans (size_le_join d s) hsize)
  have horigin : (if d.isAbsolute = true then [] else here) = origin here d.leadingSegments := by
    rw [isAbsolute_of_segments hsegments, origin, leadingSegments, hsegments, List.getLast?_concat,
      List.dropLast_concat]
    by_cases hlast : last = ""
    · simp [hlast]
    · cases base <;> simp [hlast]
  refine ⟨k, ?_, rfl⟩
  rw [locate, locateSegments, if_neg hd, if_neg hsize', horigin]
  unfold leadingSegments at hwalk ⊢
  split at hwalk
  · next hempty =>
    -- the last segment stays where it is
    have hsplit : d.segments = d.segments.dropLast ++ [""] := by
      rw [hsegments, List.getLast?_concat] at hempty
      rw [hsegments, List.dropLast_concat, Option.some.inj hempty]
    rw [if_pos hempty, hsplit, walk_append, List.dropLast_concat]
    exact bind_eq_ok_iff.2 ⟨k, hwalk, (walk_idle_iff rfl).2 ⟨hdirectory, rfl⟩⟩
  · next hfull =>
    rw [if_neg hfull]
    exact hwalk

theorem exists_locate_of_isFile (h : t.isFile here p = true) :
    ∃ l content, t.locate here p = .ok l ∧ t.get? l = some (.file content) := by
  unfold isFile find? at h
  cases hlocate : t.locate here p with
  | error obstacle => simp [hlocate] at h
  | ok l =>
    cases hnode : t.get? l with
    | none => simp [hlocate, hnode] at h
    | some node =>
      cases node with
      | directory => simp [hlocate, hnode] at h
      | file content => exact ⟨l, content, rfl, hnode⟩

/-- A path of a file with an extension ends in a stem with that extension, and so does its
location. -/
theorem lies_of_isFile (hfile : t.isFile here p = true)
    (hextension : p.extension? = some extension) :
    ∃ base stem k, p.segments = base ++ [stem ++ "." ++ extension] ∧ stem ≠ "" ∧
      '.' ∉ extension.toList ∧ t.locate here p = .ok (k ++ [stem ++ "." ++ extension]) := by
  obtain ⟨l, content, hlocate, hnode⟩ := exists_locate_of_isFile hfile
  obtain ⟨base, last, hsegments⟩ : ∃ base last, p.segments = base ++ [last] :=
    ⟨_, _, (List.dropLast_append_getLast p.segments_ne_nil).symm⟩
  obtain ⟨-, k, -, hlast⟩ := exists_walk_of_locate hsegments hlocate
  -- a step that stays where it is would leave a directory
  have hactive : isIdle last = false := by
    by_contra hidle
    obtain ⟨hdirectory, rfl⟩ := (walk_idle_iff (by simpa using hidle)).1 hlast
    rw [hnode] at hdirectory
    cases hdirectory
  obtain ⟨name, hname, hsplit⟩ := Option.bind_eq_some_iff.1 hextension
  rw [fileName?, hsegments, dropIdle_append_of_active hactive, List.getLast?_concat,
    Option.filter_eq_some_iff] at hname
  obtain ⟨hsome, hup⟩ := hname
  cases hsome
  obtain ⟨hstem, hdot, hshape⟩ := splitName_eq_iff.1 (Prod.ext rfl hsplit)
  have hname : IsName last := by
    refine ⟨hactive, by simpa using hup, not_mem_of_mem_segments (p := p) ?_⟩
    rw [hsegments]
    exact List.mem_append_right _ List.mem_cons_self
  obtain ⟨-, rfl⟩ := walk_name hname hlast
  refine ⟨base, (splitName last).1, k, ?_, hstem, hdot, ?_⟩
  · rw [hsegments]
    exact congrArg (fun s => base ++ [s]) hshape
  · rw [hlocate]
    exact congrArg (fun s => Except.ok (k ++ [s])) hshape

end JackToolchain.Files.FileTree
