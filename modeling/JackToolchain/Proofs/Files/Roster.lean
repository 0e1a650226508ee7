import JackToolchain.Proofs.Files.Actions
import JackToolchain.Proofs.Outcome
import Mathlib.Data.List.Basic
import Mathlib.Data.List.Pairwise

/-!
# The files that arguments stand for

The roster is a list in order without repetition. It orders entries by path and then by how they
came, so that a path which came both ways has two entries.

* `sorted_ofList`, `mem_of_mem_ofList`, `exists_mem_ofList`: a roster has its entries in order, and
  each of them once.
* `run_gather`: what gathering files amounts to on a machine.
* `Lists`: a list of paths that is strictly increasing and has exactly some paths.
* `gather_lists`: **the files that are found and the files that are named are listed once each**, but
  a file that is both is listed twice.
* `read_twice`: such a file.
-/

namespace JackToolchain.Files

open Std

/-! ## Order -/

namespace Component

/-- How components of different kinds are ordered. -/
def rank : Component → Nat
  | root => 0
  | here => 1
  | up => 2
  | name _ => 3

/-- The text of a name. -/
def text : Component → String
  | name text => text
  | _ => ""

theorem compare_eq (c d : Component) :
    compare c d = compareLex (compareOn rank) (compareOn text) c d := by
  cases c <;> cases d <;> first
    | rfl
    | exact Ordering.then_eq

instance : TransOrd Component := by
  rw [TransOrd, funext₂ compare_eq]
  infer_instance

instance : LawfulEqOrd Component where
  compare_self {c} := by
    rw [compare_eq]
    exact ReflCmp.compare_self
  eq_of_compare {c d} h := by
    cases c <;> cases d <;> first
      | rfl
      | cases h
      | next text text' =>
        rw [compare_eq] at h
        exact congrArg name (LawfulEqOrd.eq_of_compare (a := text) (b := text') h)

theorem compare_self (cs : List Component) : compare cs cs = .eq :=
  ReflCmp.compare_self

end Component

namespace Entry

instance : TransCmp Entry.compare :=
  inferInstanceAs (TransCmp (compareLex (compareOn fun e : Entry => e.path.components)
    (compareOn fun e : Entry => e.explicit)))

theorem compare_self (e : Entry) : e.compare e = .eq :=
  ReflCmp.compare_self

theorem compare_eq_eq_iff {e f : Entry} :
    e.compare f = .eq ↔ e.path.components = f.path.components ∧ e.explicit = f.explicit := by
  rw [compare, Ordering.then_eq_eq, LawfulEqCmp.compare_eq_iff_eq, LawfulEqCmp.compare_eq_iff_eq]

theorem compare_eq_lt_iff {e f : Entry} :
    e.compare f = .lt ↔ Ord.compare e.path.components f.path.components = .lt ∨
      e.path.components = f.path.components ∧ e.explicit = false ∧ f.explicit = true := by
  have hexplicit : Ord.compare e.explicit f.explicit = .lt ↔
      e.explicit = false ∧ f.explicit = true := by
    cases e.explicit <;> cases f.explicit <;> decide
  rw [compare, Ordering.then_eq_lt, LawfulEqCmp.compare_eq_iff_eq, hexplicit]

end Entry

/-! ## The roster -/

namespace Roster

variable {r : Roster} {e f : Entry} {entries : List Entry}

/-- Whether a roster has its entries in order, and none twice. -/
def Sorted (r : Roster) : Prop :=
  r.Pairwise fun e f => e.compare f = .lt

theorem mem_of_mem_insert (h : f ∈ r.insert e) : f = e ∨ f ∈ r := by
  fun_induction Roster.insert r e with
  | case1 => exact .inl (List.mem_singleton.1 h)
  | case2 => exact List.mem_cons.1 h
  | case3 => exact .inr h
  | case4 g rest e hcompare ih =>
    rcases List.mem_cons.1 h with rfl | h
    · exact .inr List.mem_cons_self
    · exact (ih h).imp_right (List.mem_cons_of_mem g)

theorem mem_insert_of_mem (h : f ∈ r) : f ∈ r.insert e := by
  fun_induction Roster.insert r e with
  | case1 => cases h
  | case2 => exact List.mem_cons_of_mem _ h
  | case3 => exact h
  | case4 g rest e hcompare ih =>
    rcases List.mem_cons.1 h with rfl | h
    · exact List.mem_cons_self
    · exact List.mem_cons_of_mem g (ih h)

/-- The roster has an entry for the one that is added. -/
theorem exists_mem_insert (r : Roster) (e : Entry) : ∃ f ∈ r.insert e, e.compare f = .eq := by
  fun_induction Roster.insert r e with
  | case1 e => exact ⟨e, List.mem_singleton_self e, e.compare_self⟩
  | case2 g rest e => exact ⟨e, List.mem_cons_self, e.compare_self⟩
  | case3 g rest e hcompare => exact ⟨g, List.mem_cons_self, hcompare⟩
  | case4 g rest e hcompare ih =>
    obtain ⟨f, hf, hef⟩ := ih
    exact ⟨f, List.mem_cons_of_mem g hf, hef⟩

theorem Sorted.insert (h : r.Sorted) (e : Entry) : (r.insert e).Sorted := by
  fun_induction Roster.insert r e with
  | case1 => exact List.pairwise_singleton _ _
  | case2 g rest e hcompare =>
    refine List.pairwise_cons.2 ⟨fun f hf => ?_, h⟩
    rcases List.mem_cons.1 hf with rfl | hf
    · exact hcompare
    · exact TransCmp.lt_trans hcompare ((List.pairwise_cons.1 h).1 f hf)
  | case3 => exact h
  | case4 g rest e hcompare ih =>
    obtain ⟨hg, hrest⟩ := List.pairwise_cons.1 h
    refine List.pairwise_cons.2 ⟨fun f hf => ?_, ih hrest⟩
    rcases mem_of_mem_insert hf with rfl | hf
    · exact OrientedCmp.gt_iff_lt.1 hcompare
    · exact hg f hf

/-! Entries are added one after another to what the roster has. -/

theorem sorted_foldl (h : r.Sorted) : (entries.foldl Roster.insert r).Sorted := by
  induction entries generalizing r with
  | nil => exact h
  | cons e entries ih => exact ih (h.insert e)

theorem mem_of_mem_foldl (h : f ∈ entries.foldl Roster.insert r) : f ∈ r ∨ f ∈ entries := by
  induction entries generalizing r with
  | nil => exact .inl h
  | cons e entries ih =>
    rcases ih h with hr | hentries
    · rcases mem_of_mem_insert hr with rfl | hr
      · exact .inr List.mem_cons_self
      · exact .inl hr
    · exact .inr (List.mem_cons_of_mem e hentries)

theorem exists_mem_foldl (h : (∃ f ∈ r, e.compare f = .eq) ∨ e ∈ entries) :
    ∃ f ∈ entries.foldl Roster.insert r, e.compare f = .eq := by
  induction entries generalizing r with
  | nil => exact h.resolve_right List.not_mem_nil
  | cons a entries ih =>
    refine ih ?_
    rcases h with ⟨f, hf, hef⟩ | h
    · exact .inl ⟨f, mem_insert_of_mem hf, hef⟩
    · rcases List.mem_cons.1 h with rfl | h
      · exact .inl (exists_mem_insert r e)
      · exact .inr h

theorem sorted_ofList (entries : List Entry) : (ofList entries).Sorted :=
  sorted_foldl .nil

theorem mem_of_mem_ofList (h : f ∈ ofList entries) : f ∈ entries :=
  (mem_of_mem_foldl h).resolve_left List.not_mem_nil

theorem exists_mem_ofList (h : e ∈ entries) : ∃ f ∈ ofList entries, e.compare f = .eq :=
  exists_mem_foldl (.inr h)

end Roster

/-! ## Gathering -/

section run

variable {ε α γ : Type} {m : Machine}

/-- A step that leaves a machine alone is taken for all elements of a list. -/
theorem run_mapM {f : γ → Attempt ε α} {g : γ → Except ε α}
    (hf : ∀ c, (f c).run.run m = (g c, m)) (cs : List γ) :
    (cs.mapM f).run.run m = (cs.mapM g, m) := by
  induction cs with
  | nil => rfl
  | cons c cs ih =>
    rw [List.mapM_cons, List.mapM_cons]
    have hc := hf c
    cases hg : g c with
    | error e =>
      rw [hg] at hc
      exact run_bind_error hc
    | ok a =>
      rw [hg] at hc
      rw [run_bind_ok hc]
      cases hcs : cs.mapM g with
      | error e =>
        rw [hcs] at ih
        exact run_bind_error ih
      | ok as =>
        rw [hcs] at ih
        exact run_bind_ok ih

theorem run_filterM {f : γ → Attempt ε Bool} {g : γ → Bool}
    (hf : ∀ c, (f c).run.run m = (.ok (g c), m)) (cs : List γ) :
    (cs.filterM f).run.run m = (.ok (cs.filter g), m) := by
  have haux (kept : List γ) :
      (cs.filterAuxM f kept).run.run m = (.ok ((cs.filter g).reverse ++ kept), m) := by
    induction cs generalizing kept with
    | nil => rfl
    | cons c cs ih =>
      refine (run_bind_ok (hf c)).trans ((ih _).trans ?_)
      cases hc : g c
      · rw [List.filter_cons_of_neg (by simp [hc])]
        rfl
      · rw [List.filter_cons_of_pos hc, List.reverse_cons, List.append_assoc]
        rfl
  refine (run_bind_ok (haux [])).trans ?_
  rw [List.append_nil, List.reverse_reverse]
  rfl

end run

variable {extension : String} {arguments : List String} {m m' : Machine} {p : FilePath}

/-- Whether a path is one of a file with the extension in a directory among the arguments. -/
def Found (extension : String) (arguments : List String) (m : Machine) (p : FilePath) : Prop :=
  ∃ a ∈ arguments, m.tree.isDirectory m.here ⟨a⟩ = true ∧
    ∃ l, m.tree.locate m.here ⟨a⟩ = .ok l ∧ ∃ name ∈ m.tree.names l,
      p = FilePath.join ⟨a⟩ name ∧ p.extension? = some extension ∧ m.tree.isFile m.here p = true

/-- Whether a path is an argument itself, and not a directory. -/
def Named (arguments : List String) (m : Machine) (p : FilePath) : Prop :=
  p.spelled ∈ arguments ∧ m.tree.isDirectory m.here p = false

/-- The entries that an argument stands for on a machine. -/
def entriesOn (extension : String) (m : Machine) (p : FilePath) : List Entry :=
  if m.tree.isDirectory m.here p then
    let names := ((m.tree.locate m.here p).toOption.map m.tree.names).getD []
    (((names.map p.join).filter (·.extension? = some extension)).filter
      fun q => m.tree.isFile m.here q).map (⟨·, false⟩)
  else [⟨p, true⟩]

theorem exists_locate_of_isDirectory (h : m.tree.isDirectory m.here p = true) :
    ∃ l, m.tree.locate m.here p = .ok l := by
  unfold FileTree.isDirectory FileTree.find? at h
  cases hlocate : m.tree.locate m.here p with
  | ok l => exact ⟨l, rfl⟩
  | error obstacle =>
    rw [hlocate] at h
    cases h

theorem run_entriesAt (extension : String) (m : Machine) (p : FilePath) :
    (entriesAt extension p : Attempt Fault (List Entry)).run.run m =
      (.ok (entriesOn extension m p), m) := by
  have hask : (Host.isDirectory p : Attempt Fault Bool).run.run m =
      (.ok (m.tree.isDirectory m.here p), m) := rfl
  rw [entriesAt, run_bind_ok hask, entriesOn]
  cases hdirectory : m.tree.isDirectory m.here p with
  | false => rfl
  | true =>
    obtain ⟨l, hl⟩ := exists_locate_of_isDirectory hdirectory
    have hnames : (Host.names p : Attempt Fault (Option (List String))).run.run m =
        (.ok (some (m.tree.names l)), m) := by
      have hrun : (Host.names p : Attempt Fault (Option (List String))).run.run m =
          (.ok ((m.tree.locate m.here p).toOption.map m.tree.names), m) := rfl
      rw [hrun, hl]
      rfl
    have hfiles (paths : List FilePath) :
        (paths.filterM (fun q => Host.isFile q) : Attempt Fault (List FilePath)).run.run m =
          (.ok (paths.filter fun q => m.tree.isFile m.here q), m) :=
      run_filterM (f := fun q => Host.isFile q) (fun q => rfl) paths
    rw [if_pos rfl, if_pos rfl, run_bind_ok hnames, hl]
    exact run_bind_ok (hfiles _)

/-- The entries of the arguments are the paths that are found and those that are named. -/
theorem mem_flatMap_entriesOn {e : Entry} :
    e ∈ arguments.flatMap (fun a => entriesOn extension m ⟨a⟩) ↔
      e.explicit = false ∧ Found extension arguments m e.path ∨
        e.explicit = true ∧ Named arguments m e.path := by
  obtain ⟨p, explicit⟩ := e
  rw [List.mem_flatMap]
  constructor
  · rintro ⟨a, ha, he⟩
    unfold entriesOn at he
    split at he
    · next hdirectory =>
      obtain ⟨l, hl⟩ := exists_locate_of_isDirectory hdirectory
      rw [hl] at he
      simp only [List.mem_map, List.mem_filter, decide_eq_true_eq] at he
      obtain ⟨q, ⟨⟨⟨name, hname, rfl⟩, hextension⟩, hfile⟩, heq⟩ := he
      cases heq
      exact .inl ⟨rfl, a, ha, hdirectory, l, hl, name, hname, rfl, hextension, hfile⟩
    · next hdirectory =>
      cases List.mem_singleton.1 he
      exact .inr ⟨rfl, ha, by simpa using hdirectory⟩
  · rintro (⟨hexplicit, a, ha, hdirectory, l, hl, name, hname, rfl, hextension, hfile⟩ |
      ⟨hexplicit, ha, hdirectory⟩)
    · cases hexplicit
      refine ⟨a, ha, ?_⟩
      rw [entriesOn, if_pos hdirectory, hl]
      simp only [List.mem_map, List.mem_filter, decide_eq_true_eq]
      exact ⟨_, ⟨⟨⟨name, hname, rfl⟩, hextension⟩, hfile⟩, rfl⟩
    · cases hexplicit
      refine ⟨p.spelled, ha, ?_⟩
      have hne : ¬m.tree.isDirectory m.here p = true := by simp [hdirectory]
      rw [entriesOn, if_neg hne]
      exact List.mem_singleton_self _

/-- The source file of an entry on a machine. -/
def Entry.readOn (extension : String) (m : Machine) (e : Entry) : Except Fault Source :=
  if e.explicit ∧ e.path.extension? ≠ some extension then
    .error (.wrongExtension e.path extension)
  else
    match m.tree.read? m.here e.path with
    | none => .error (.unreadable e.path)
    | some text =>
      match Source.ofText? e.path.spelled text with
      | none => .error (.noStem e.path.spelled)
      | some source => .ok source

theorem run_entryRead (extension : String) (m : Machine) (e : Entry) :
    (e.read extension : Attempt Fault Source).run.run m = (e.readOn extension m, m) := by
  have hread : (Host.read e.path : Attempt Fault (Option String)).run.run m =
      (.ok (m.tree.read? m.here e.path), m) := rfl
  unfold Entry.read Entry.readOn
  split
  · rfl
  · refine (run_bind_ok hread).trans ?_
    cases m.tree.read? m.here e.path with
    | none => rfl
    | some text =>
      dsimp only
      cases Source.ofText? e.path.spelled text <;> rfl

/-- A file is read if it is there and has a stem. One that was named has to have the extension. -/
theorem readOn_eq_ok_iff {e : Entry} {source : Source} :
    e.readOn extension m = .ok source ↔
      (e.explicit = true → e.path.extension? = some extension) ∧
        ∃ text, m.tree.read? m.here e.path = some text ∧
          Source.ofText? e.path.spelled text = some source := by
  unfold Entry.readOn
  split
  · next hwrong =>
    constructor
    · rintro ⟨⟩
    · rintro ⟨hextension, -⟩
      exact absurd (hextension hwrong.1) hwrong.2
  · next hright =>
    have hextension : e.explicit = true → e.path.extension? = some extension := by
      intro hexplicit
      by_contra hne
      exact hright ⟨hexplicit, hne⟩
    rw [and_iff_right hextension]
    cases m.tree.read? m.here e.path with
    | none => simp
    | some text =>
      dsimp only
      cases hsource : Source.ofText? e.path.spelled text <;> simp [hsource]

theorem path_of_readOn {e : Entry} {source : Source} (h : e.readOn extension m = .ok source) :
    source.path = e.path := by
  obtain ⟨-, text, -, htext⟩ := readOn_eq_ok_iff.1 h
  obtain ⟨stem, -, rfl⟩ := Option.map_eq_some_iff.1 htext
  rfl

/-- The roster of some arguments on a machine. -/
def rosterOn (extension : String) (arguments : List String) (m : Machine) : Roster :=
  Roster.ofList (arguments.flatMap fun a => entriesOn extension m ⟨a⟩)

/-- Gathering reads all files of the roster, of which there has to be one. -/
theorem run_gather (extension : String) (arguments : List String) (m : Machine) :
    (gather extension arguments : Attempt Fault (List Source)).run.run m =
      (if rosterOn extension arguments m = [] then .error (.noneFound extension)
        else (rosterOn extension arguments m).mapM (Entry.readOn extension m), m) := by
  have hentries : (arguments.mapM fun a => entriesAt extension ⟨a⟩ :
      Attempt Fault (List (List Entry))).run.run m =
        (.ok (arguments.map fun a => entriesOn extension m ⟨a⟩), m) := by
    rw [run_mapM fun a => run_entriesAt extension m ⟨a⟩]
    have hmap : (arguments.mapM fun a => Except.ok (entriesOn extension m ⟨a⟩)) =
        (.ok (arguments.map fun a => entriesOn extension m ⟨a⟩) : Except Fault _) :=
      mapM_eq_ok_iff.2 ⟨fun a _ => ⟨_, rfl⟩, by
        rw [← List.filterMap_eq_map]
        rfl⟩
    rw [hmap]
  rw [gather, run_bind_ok hentries, ← List.flatMap_def, ← rosterOn]
  cases rosterOn extension arguments m with
  | nil => rfl
  | cons e roster =>
    rw [if_neg (List.cons_ne_nil e roster)]
    exact run_mapM (run_entryRead extension m) _

/-! ## Lists of paths -/

/-- A list of paths that is strictly increasing and has exactly some paths. Paths count as the same
if they have the same components. -/
structure Lists (paths : List FilePath) (P : FilePath → Prop) : Prop where
  increasing : paths.Pairwise fun p q => compare p.components q.components = .lt
  sound : ∀ p ∈ paths, P p
  complete : ∀ p, P p → ∃ q ∈ paths, q.components = p.components

variable {sources : List Source}

/-- The files that are gathered are those of the roster. -/
theorem map_path_of_gather
    (h : (gather extension arguments : Attempt Fault (List Source)).run.run m = (.ok sources, m')) :
    sources.map Source.path = (rosterOn extension arguments m).map Entry.path := by
  rw [run_gather] at h
  have hread := congrArg Prod.fst h
  dsimp only at hread
  split at hread
  · cases hread
  · obtain ⟨hall, rfl⟩ := mapM_eq_ok_iff.1 hread
    rw [List.map_filterMap, ← List.filterMap_eq_map]
    refine List.filterMap_congr fun e he => ?_
    obtain ⟨source, hsource⟩ := hall e he
    rw [hsource]
    exact congrArg some (path_of_readOn hsource)

/-- The entries that came one way list their paths. -/
theorem lists_filter (explicit : Bool) {P : FilePath → Prop}
    (hP : ∀ e : Entry, e.explicit = explicit →
      (e ∈ arguments.flatMap (fun a => entriesOn extension m ⟨a⟩) ↔ P e.path)) :
    Lists (((rosterOn extension arguments m).filter (·.explicit == explicit)).map Entry.path) P := by
  constructor
  · rw [List.pairwise_map, List.pairwise_filter]
    refine (Roster.sorted_ofList _).imp fun {e f} hlt he hf => ?_
    rcases Entry.compare_eq_lt_iff.1 hlt with hlt | ⟨-, hexplicit, hexplicit'⟩
    · exact hlt
    · rw [beq_iff_eq] at he hf
      rw [he] at hexplicit
      rw [hf, hexplicit] at hexplicit'
      cases hexplicit'
  · intro p hp
    obtain ⟨e, he, rfl⟩ := List.mem_map.1 hp
    obtain ⟨hroster, hexplicit⟩ := List.mem_filter.1 he
    exact (hP e (beq_iff_eq.1 hexplicit)).1 (Roster.mem_of_mem_ofList hroster)
  · intro p hp
    obtain ⟨f, hf, hcompare⟩ := Roster.exists_mem_ofList ((hP ⟨p, explicit⟩ rfl).2 hp)
    obtain ⟨hcomponents, hexplicit⟩ := Entry.compare_eq_eq_iff.1 hcompare
    refine ⟨f.path, List.mem_map_of_mem (List.mem_filter.2 ⟨hf, ?_⟩), hcomponents.symm⟩
    exact beq_iff_eq.2 hexplicit.symm

theorem lists_found (extension : String) (arguments : List String) (m : Machine) :
    Lists (((rosterOn extension arguments m).filter (·.explicit == false)).map Entry.path)
      (Found extension arguments m) := by
  refine lists_filter false fun e he => ?_
  rw [mem_flatMap_entriesOn]
  simp [he]

theorem lists_named (extension : String) (arguments : List String) (m : Machine) :
    Lists (((rosterOn extension arguments m).filter (·.explicit == true)).map Entry.path)
      (Named arguments m) := by
  refine lists_filter true fun e he => ?_
  rw [mem_flatMap_entriesOn]
  simp [he]

theorem perm_paths (r : Roster) :
    (r.map Entry.path).Perm ((r.filter (·.explicit == false)).map Entry.path ++
      (r.filter (·.explicit == true)).map Entry.path) := by
  have hnot (e : Entry) : (e.explicit == true) = !(e.explicit == false) := by
    cases e.explicit <;> rfl
  simp only [hnot]
  rw [← List.map_append]
  exact (List.filter_append_perm _ r).symm.map _

/-- A roster lists its paths in order. -/
theorem pairwise_isLE {r : Roster} (h : r.Sorted) :
    (r.map Entry.path).Pairwise fun p q => (compare p.components q.components).isLE = true := by
  rw [List.pairwise_map]
  refine h.imp fun {e f} hlt => ?_
  rcases Entry.compare_eq_lt_iff.1 hlt with hlt | ⟨heq, -⟩
  · rw [hlt]
    rfl
  · rw [heq, Component.compare_self]
    rfl

/-- A path of the roster that came one way has an entry. -/
theorem exists_entry_of_mem {explicit : Bool}
    (hp : p ∈ ((rosterOn extension arguments m).filter (·.explicit == explicit)).map Entry.path) :
    ∃ e ∈ rosterOn extension arguments m, e.explicit = explicit ∧ e.path = p := by
  obtain ⟨e, he, rfl⟩ := List.mem_map.1 hp
  obtain ⟨hroster, hexplicit⟩ := List.mem_filter.1 he
  exact ⟨e, hroster, beq_iff_eq.1 hexplicit, rfl⟩

/-- If all paths of the roster are different, none came both ways. -/
theorem apart_of_increasing
    (h : ((rosterOn extension arguments m).map Entry.path).Pairwise fun p q =>
      compare p.components q.components = .lt) :
    ¬∃ p q, Found extension arguments m p ∧ Named arguments m q ∧ p.components = q.components := by
  rintro ⟨p, q, hp, hq, hpq⟩
  obtain ⟨p', hp', hpp'⟩ := (lists_found extension arguments m).complete p hp
  obtain ⟨q', hq', hqq'⟩ := (lists_named extension arguments m).complete q hq
  obtain ⟨e, he, hefound, rfl⟩ := exists_entry_of_mem hp'
  obtain ⟨f, hf, hfnamed, rfl⟩ := exists_entry_of_mem hq'
  have hne : e ≠ f := by
    rintro rfl
    rw [hefound] at hfnamed
    cases hfnamed
  have hdifferent : (rosterOn extension arguments m).Pairwise fun e f =>
      e.path.components ≠ f.path.components := by
    refine (List.pairwise_map.1 h).imp fun {e f} hlt heq => ?_
    rw [heq, Component.compare_self] at hlt
    cases hlt
  have hsymm : Std.Symm fun e f : Entry => e.path.components ≠ f.path.components :=
    ⟨fun _ _ h => h.symm⟩
  exact hdifferent.forall he hf hne (hpp'.trans (hpq.trans hqq'.symm))

/-- If no path came both ways, the roster lists those that came either way. -/
theorem lists_rosterOn_of_apart
    (h : ¬∃ p q, Found extension arguments m p ∧ Named arguments m q ∧
      p.components = q.components) :
    Lists ((rosterOn extension arguments m).map Entry.path) fun p =>
      Found extension arguments m p ∨ Named arguments m p := by
  have hfound := lists_found extension arguments m
  have hnamed := lists_named extension arguments m
  refine ⟨?_, fun p hp => ?_, fun p hp => ?_⟩
  · rw [List.pairwise_map]
    refine (Roster.sorted_ofList _).imp_of_mem fun {e f} he hf hlt => ?_
    rcases Entry.compare_eq_lt_iff.1 hlt with hlt | ⟨heq, hefound, hfnamed⟩
    · exact hlt
    · refine absurd ⟨e.path, f.path, hfound.sound _ ?_, hnamed.sound _ ?_, heq⟩ h
      · exact List.mem_map_of_mem (List.mem_filter.2 ⟨he, beq_iff_eq.2 hefound⟩)
      · exact List.mem_map_of_mem (List.mem_filter.2 ⟨hf, beq_iff_eq.2 hfnamed⟩)
  · rw [(perm_paths _).mem_iff, List.mem_append] at hp
    exact hp.imp (hfound.sound p) (hnamed.sound p)
  · rcases hp with hp | hp
    · obtain ⟨q, hq, hqp⟩ := hfound.complete p hp
      obtain ⟨e, he, -, rfl⟩ := exists_entry_of_mem hq
      exact ⟨e.path, List.mem_map_of_mem he, hqp⟩
    · obtain ⟨q, hq, hqp⟩ := hnamed.complete p hp
      obtain ⟨e, he, -, rfl⟩ := exists_entry_of_mem hq
      exact ⟨e.path, List.mem_map_of_mem he, hqp⟩

/-- **The files that are found and the files that are named are listed once each.** The list of both
is in order. It is strictly increasing and has exactly those files, unless a file is found as well as
named: that one has two places. -/
theorem gather_lists
    (h : (gather extension arguments : Attempt Fault (List Source)).run.run m = (.ok sources, m')) :
    (∃ found named, Lists found (Found extension arguments m) ∧ Lists named (Named arguments m) ∧
      (sources.map Source.path).Perm (found ++ named)) ∧
    ((sources.map Source.path).Pairwise fun p q =>
      (compare p.components q.components).isLE = true) ∧
    (Lists (sources.map Source.path)
        (fun p => Found extension arguments m p ∨ Named arguments m p) ↔
      ¬∃ p q, Found extension arguments m p ∧ Named arguments m q ∧
        p.components = q.components) := by
  rw [map_path_of_gather h]
  refine ⟨⟨_, _, lists_found _ _ _, lists_named _ _ _, perm_paths _⟩, ?_,
    fun h => apart_of_increasing h.increasing, lists_rosterOn_of_apart⟩
  exact pairwise_isLE (Roster.sorted_ofList _)

/-- A machine with a directory, a file in it and one beside it. -/
def shelf : Machine where
  tree := ⟨[(["d"], .directory), (["d", "A.vm"], .file (.text "add\n")),
    (["B.vm"], .file (.text "sub\n"))]⟩
  here := []

/-- A directory and a file that is not in it. -/
theorem gather_lists_apart :
    Lists [⟨"B.vm"⟩, ⟨"d/A.vm"⟩]
      (fun p => Found "vm" ["d", "B.vm"] shelf p ∨ Named ["d", "B.vm"] shelf p) := by
  have hgather : ((gather "vm" ["d", "B.vm"] : Attempt Fault (List Source)).run.run
      shelf).1.toOption = some [⟨"B.vm", "B", "sub\n"⟩, ⟨"d/A.vm", "A", "add\n"⟩] := by
    decide +kernel
  obtain ⟨m', h⟩ := exists_run_of_toOption hgather
  refine (gather_lists h).2.2.2 ?_
  rintro ⟨p, q, ⟨a, ha, hdirectory, l, hl, name, hname, rfl, -, -⟩, ⟨hq, hfile⟩, hpq⟩
  have hnames : ∀ a ∈ ["d", "B.vm"], shelf.tree.isDirectory shelf.here ⟨a⟩ = true →
      a = "d" ∧ (shelf.tree.locate shelf.here ⟨a⟩).toOption.map shelf.tree.names = some ["A.vm"] := by
    decide +kernel
  have hplaces : ∀ q ∈ ["d", "B.vm"], shelf.tree.isDirectory shelf.here ⟨q⟩ = false →
      (FilePath.join ⟨"d"⟩ "A.vm").components ≠ (FilePath.mk q).components := by
    decide +kernel
  obtain ⟨rfl, hlocated⟩ := hnames a ha hdirectory
  rw [hl] at hlocated
  have hlisted : shelf.tree.names l = ["A.vm"] := Option.some.inj hlocated
  rw [hlisted, List.mem_singleton] at hname
  rw [hname] at hpq
  exact hplaces q.spelled hq hfile hpq

/-- A file that is found as well as named is read twice. -/
theorem read_twice :
    ∃ sources m', (gather "vm" ["d", "d/A.vm"] : Attempt Fault (List Source)).run.run shelf =
      (.ok sources, m') ∧ sources.map Source.path = [⟨"d/A.vm"⟩, ⟨"d/A.vm"⟩] ∧
        ¬(sources.map Source.path).Pairwise fun p q =>
          compare p.components q.components = .lt := by
  have hgather : ((gather "vm" ["d", "d/A.vm"] : Attempt Fault (List Source)).run.run
      shelf).1.toOption = some [⟨"d/A.vm", "A", "add\n"⟩, ⟨"d/A.vm", "A", "add\n"⟩] := by
    decide +kernel
  obtain ⟨m', h⟩ := exists_run_of_toOption hgather
  exact ⟨_, m', h, rfl, by decide +kernel⟩

end JackToolchain.Files
