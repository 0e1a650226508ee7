import JackToolchain.Files.Output
import JackToolchain.Proofs.Text.Words
import Mathlib.Data.List.Basic

/-!
# Paths by their segments

A path is what its segments spell, and what is made of it is spelled by nearly the same segments.

* `ofSegments_segments`, `segments_ofSegments`: a path and its segments.
* `IsName`: a segment that names something in a directory.
* `splitName_eq_iff`: a file name is a stem, a dot and an extension without dots.
* `withExtension_eq`, `join_eq`, `temporary_ofSegments`: the paths made of a path.
-/

namespace JackToolchain.Files.FilePath

variable {p : FilePath} {base ss : List String} {name s stem ending : String}

/-! ## Segments -/

theorem not_mem_of_mem_segments (h : s ∈ p.segments) : '/' ∉ s.toList := by
  obtain ⟨cs, hcs, rfl⟩ := List.mem_map.1 h
  rw [String.toList_ofList]
  exact Text.not_mem_of_mem_splitOn hcs

theorem segments_ne_nil (p : FilePath) : p.segments ≠ [] := by
  rw [segments, ne_eq, List.map_eq_nil_iff]
  exact List.splitOn_ne_nil _ _

/-- A path is what its segments spell. -/
theorem ofSegments_segments (p : FilePath) : ofSegments p.segments = p := by
  have hsame : String.toList ∘ String.ofList = id := funext fun cs => String.toList_ofList
  refine congrArg FilePath.mk (String.toList_injective ?_)
  rw [String.toList_intercalate, segments, List.map_map, hsame, List.map_id]
  exact List.intercalate_splitOn '/'

theorem segments_ofSegments (hne : ss ≠ []) (h : ∀ s ∈ ss, '/' ∉ s.toList) :
    (ofSegments ss).segments = ss := by
  have hsplit : (['/'].intercalate (ss.map String.toList)).splitOn '/' = ss.map String.toList := by
    refine List.splitOn_intercalate '/' (fun cs hcs => ?_) (by simpa using hne)
    obtain ⟨s, hs, rfl⟩ := List.mem_map.1 hcs
    exact h s hs
  have hsame : String.ofList ∘ String.toList = id := funext fun s => String.ofList_toList
  rw [segments, ofSegments, String.toList_intercalate]
  exact (congrArg (List.map String.ofList) hsplit).trans (by rw [List.map_map, hsame, List.map_id])

/-- What is added to a path is added to its last segment. -/
theorem ofSegments_append (base : List String) (s added : String) :
    (⟨(ofSegments (base ++ [s])).spelled ++ added⟩ : FilePath) =
      ofSegments (base ++ [s ++ added]) := by
  unfold ofSegments
  rcases eq_or_ne base [] with rfl | hbase
  · rw [List.nil_append, List.nil_append, String.intercalate_singleton,
      String.intercalate_singleton]
  · rw [String.intercalate_append_of_ne_nil hbase (List.cons_ne_nil _ _),
      String.intercalate_append_of_ne_nil hbase (List.cons_ne_nil _ _),
      String.intercalate_singleton, String.intercalate_singleton, String.append_assoc]

theorem temporary_ofSegments (base : List String) (s : String) :
    (ofSegments (base ++ [s])).temporary = ofSegments (base ++ [s ++ ".tmp"]) :=
  ofSegments_append base s ".tmp"

/-- A path starts at the top of the tree if nothing stands before its first separator. -/
theorem isAbsolute_of_segments (h : p.segments = base ++ [s]) :
    p.isAbsolute = (base.head? == some "") := by
  have hslash : '/' ∉ s.toList :=
    not_mem_of_mem_segments (p := p) (by rw [h]; exact List.mem_append_right _ List.mem_cons_self)
  rw [← ofSegments_segments p, h, isAbsolute, ofSegments, String.toList_intercalate]
  cases base with
  | nil =>
    have hhead : s.toList.head? ≠ some '/' := fun hhead => hslash (List.mem_of_mem_head? hhead)
    simpa using hhead
  | cons first base =>
    have hfirst : '/' ∉ first.toList :=
      not_mem_of_mem_segments (p := p) (by rw [h]; exact List.mem_cons_self)
    rw [List.cons_append, List.map_cons, List.intercalate_cons_of_ne_nil (by simp)]
    cases hcs : first.toList with
    | nil =>
      have hempty : first = "" := String.toList_eq_nil_iff.1 hcs
      rw [hempty]
      rfl
    | cons c cs =>
      rw [hcs] at hfirst
      have hc : c ≠ '/' := fun hc => hfirst (hc ▸ List.mem_cons_self)
      have hne : first ≠ "" := by
        rintro rfl
        cases hcs
      simp [hc, hne]

/-! ## Names -/

/-- A segment that names something in a directory. -/
structure IsName (s : String) : Prop where
  active : isIdle s = false
  ne_up : s ≠ ".."
  no_slash : '/' ∉ s.toList

/-- A stem with an ending is a name. -/
theorem isName_dotted (hstem : stem ≠ "") (hending : ending ≠ "") (hslash : '/' ∉ stem.toList)
    (hslash' : '/' ∉ ending.toList) : IsName (stem ++ "." ++ ending) := by
  have hlength : 3 ≤ (stem ++ "." ++ ending).length := by
    have hstem' : 0 < stem.length := by
      rw [← String.length_toList]
      exact List.length_pos_iff.2 fun h => hstem (String.toList_eq_nil_iff.1 h)
    have hending' : 0 < ending.length := by
      rw [← String.length_toList]
      exact List.length_pos_iff.2 fun h => hending (String.toList_eq_nil_iff.1 h)
    have hdot : ".".length = 1 := rfl
    rw [String.length_append, String.length_append]
    omega
  have hne (s : String) (hs : s.length < 3) : stem ++ "." ++ ending ≠ s := by
    rintro rfl
    omega
  refine ⟨?_, hne ".." (by decide), ?_⟩
  · rw [isIdle, Bool.or_eq_false_iff, beq_eq_false_iff_ne, beq_eq_false_iff_ne]
    exact ⟨hne "" (by decide), hne "." (by decide)⟩
  · simp [hslash, hslash']

theorem dropIdle_append_of_active (h : isIdle s = false) :
    dropIdle (base ++ [s]) = base ++ [s] := by
  simp [dropIdle, h]

theorem fileName?_of_segments (h : p.segments = base ++ [s]) (hs : IsName s) :
    p.fileName? = some s := by
  rw [fileName?, h, dropIdle_append_of_active hs.active]
  simp [hs.ne_up]

/-- A path that goes up in the end names no file. -/
theorem fileName?_up (h : p.segments = base ++ [".."]) : p.fileName? = none := by
  rw [fileName?, h, dropIdle_append_of_active rfl]
  simp

theorem splitName_dotted (h : '.' ∉ ending.toList) :
    splitName (stem ++ "." ++ ending) =
      if stem = "" then (stem ++ "." ++ ending, none) else (stem, some ending) := by
  have hname : (stem ++ "." ++ ending).toList = stem.toList ++ '.' :: ending.toList := by
    rw [String.toList_append, String.toList_append, List.append_assoc]
    rfl
  have hextension :
      ((stem.toList ++ '.' :: ending.toList).reverse.takeWhile (· ≠ '.')).reverse =
        ending.toList := by
    rw [List.reverse_append, List.reverse_cons, List.append_assoc,
      List.takeWhile_append_of_pos (by simpa using fun c hc => ne_of_mem_of_not_mem hc h)]
    simp
  have hlength : (stem.toList ++ '.' :: ending.toList).length - ending.toList.length - 1 =
      stem.toList.length := by
    rw [List.length_append, List.length_cons]
    omega
  have hdot : '.' ∈ stem.toList ++ '.' :: ending.toList :=
    List.mem_append_right _ List.mem_cons_self
  unfold splitName
  simp only [hname, hextension, hlength, List.take_left, hdot, true_and, String.ofList_toList]
  by_cases hstem : stem = ""
  · rw [if_pos hstem, if_neg (by simp [hstem])]
  · rw [if_neg hstem, if_pos fun hnil => hstem (String.toList_eq_nil_iff.1 hnil)]

/-- A file name is a stem, a dot and an extension without dots. -/
theorem splitName_eq_iff :
    splitName name = (stem, some ending) ↔
      stem ≠ "" ∧ '.' ∉ ending.toList ∧ name = stem ++ "." ++ ending := by
  constructor
  · intro h
    by_cases hdot : '.' ∈ name.toList
    · -- the dot that counts is the last one
      obtain ⟨after, before, hname, hafter⟩ :=
        List.eq_append_cons_of_mem (List.mem_reverse.2 hdot)
      have hreverse : name.toList = before.reverse ++ '.' :: after.reverse := by
        rw [← List.reverse_reverse name.toList, hname, List.reverse_append, List.reverse_cons,
          List.append_assoc]
        rfl
      have hshape : name = String.ofList before.reverse ++ "." ++ String.ofList after.reverse := by
        refine String.toList_injective ?_
        rw [hreverse, String.toList_append, String.toList_append, List.append_assoc]
        simp
      have hending : '.' ∉ (String.ofList after.reverse).toList := by
        rw [String.toList_ofList, List.mem_reverse]
        exact hafter
      rw [hshape, splitName_dotted hending] at h
      split at h
      · cases h
      · next hstem =>
        cases h
        exact ⟨hstem, hending, hshape⟩
    · unfold splitName at h
      simp [hdot] at h
  · rintro ⟨hstem, hending, rfl⟩
    rw [splitName_dotted hending, if_neg hstem]

/-! ## Paths made of a path -/

/-- The path of a file with another extension. A lone dot is no stem that an extension could be put
behind. -/
theorem withExtension_eq {old : String} (h : p.segments = base ++ [stem ++ "." ++ old])
    (hstem : stem ≠ "") (hold : old ≠ "") (hdot : '.' ∉ old.toList) (hslash : '/' ∉ old.toList) :
    p.withExtension ending =
      ofSegments (base ++ [if stem = "." then ".." else stem ++ "." ++ ending]) := by
  have hwhole : '/' ∉ (stem ++ "." ++ old).toList :=
    not_mem_of_mem_segments (p := p) (by rw [h]; exact List.mem_append_right _ List.mem_cons_self)
  have hname : IsName (stem ++ "." ++ old) :=
    isName_dotted hstem hold (fun hmem => hwhole (by simp [hmem])) hslash
  have hsplit : splitName (stem ++ "." ++ old) = (stem, some old) :=
    splitName_eq_iff.2 ⟨hstem, hdot, rfl⟩
  unfold withExtension
  rw [fileName?_of_segments h hname, h, dropIdle_append_of_active hname.active]
  simp only [hsplit, List.dropLast_concat, Option.isSome_some, and_self, and_true]
  split <;> rfl

/-- The segments of a path that what lies inside it starts with. -/
def leadingSegments (p : FilePath) : List String :=
  if p.segments.getLast? = some "" then p.segments.dropLast else p.segments

/-- A path is empty or ends in a separator if its last segment is empty. -/
theorem ends_iff (h : p.segments = base ++ [s]) :
    (p.spelled = "" || p.spelled.toList.getLast? == some '/') = true ↔ s = "" := by
  have hslash : '/' ∉ s.toList :=
    not_mem_of_mem_segments (p := p) (by rw [h]; exact List.mem_append_right _ List.mem_cons_self)
  have hlast : s.toList.getLast? ≠ some '/' := fun hmem => hslash (List.mem_of_getLast? hmem)
  rw [← ofSegments_segments p, h, ofSegments]
  rcases eq_or_ne base [] with rfl | hbase
  · simp [hlast]
  · rw [String.intercalate_append_of_ne_nil hbase (List.cons_ne_nil _ _),
      String.intercalate_singleton]
    by_cases hs : s = ""
    · simp [hs]
    · obtain ⟨c, cs, hcs⟩ := List.exists_cons_of_ne_nil (mt String.toList_eq_nil_iff.1 hs)
      rw [hcs] at hlast
      simp [hs, hcs, List.getLast?_cons_cons, hlast]

/-- A name inside a directory is one more segment, but for a last empty one. -/
theorem join_eq (p : FilePath) (name : String) :
    p.join name = ofSegments (p.leadingSegments ++ [name]) := by
  obtain ⟨base, last, hsegments⟩ : ∃ base last, p.segments = base ++ [last] :=
    ⟨_, _, (List.dropLast_append_getLast p.segments_ne_nil).symm⟩
  have hspelled : p.spelled = (ofSegments (base ++ [last])).spelled := by
    rw [← hsegments, ofSegments_segments]
  unfold join leadingSegments
  rw [hsegments, List.getLast?_concat, List.dropLast_concat]
  by_cases hlast : last = ""
  · rw [if_pos ((ends_iff hsegments).2 hlast), if_pos (congrArg some hlast), hspelled,
      ofSegments_append, hlast, String.empty_append]
  · have hsome : some last ≠ some "" := fun h => hlast (Option.some.inj h)
    rw [if_neg (mt (ends_iff hsegments).1 hlast), if_neg hsome, hspelled]
    unfold ofSegments
    rw [String.intercalate_append_of_ne_nil (List.append_ne_nil_of_right_ne_nil _ (by simp))
      (List.cons_ne_nil name []), String.intercalate_singleton]

theorem segments_join (p : FilePath) (h : '/' ∉ name.toList) :
    (p.join name).segments = p.leadingSegments ++ [name] := by
  rw [join_eq, segments_ofSegments (List.append_ne_nil_of_right_ne_nil _ (List.cons_ne_nil _ _))]
  intro s hs
  rcases List.mem_append.1 hs with hs | hs
  · unfold leadingSegments at hs
    split at hs
    · exact not_mem_of_mem_segments (List.dropLast_subset _ hs)
    · exact not_mem_of_mem_segments hs
  · rwa [List.mem_singleton.1 hs]

theorem size_le_join (p : FilePath) (name : String) :
    p.spelled.utf8ByteSize ≤ (p.join name).spelled.utf8ByteSize := by
  unfold join
  split
  · rw [String.utf8ByteSize_append]
    omega
  · rw [String.utf8ByteSize_append, String.utf8ByteSize_append]
    omega

end JackToolchain.Files.FilePath
