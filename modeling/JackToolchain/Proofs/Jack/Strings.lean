import JackToolchain.Proofs.Jack.Emission
import JackToolchain.Proofs.Jack.Evaluation
import JackToolchain.Proofs.Outcome

/-!
# String constants

A string is built at run time from its length and its characters, which have to be constants of
instructions. Its length is measured in UTF-16, where a character can take two units, but the
characters that are left have one unit each.

* `utf16`: the units of a text.
* `Rejects`: why a string is no constant.
* `StringLibrary`: calls that make strings and append to them.
* `string_constant`: **a string constant is encoded exactly or rejected**.
-/

namespace JackToolchain.Jack

open Vm

variable {cs : List Char} {value : String} {offset : Nat}

/-! ## Units -/

/-- The units of a character in UTF-16: its code point, or a pair of surrogates. -/
def utf16Units (c : Char) : List Nat :=
  if c.toNat < 0x10000 then [c.toNat]
  else [0xD800 + (c.toNat - 0x10000) / 0x400, 0xDC00 + (c.toNat - 0x10000) % 0x400]

/-- The units of a text in UTF-16. -/
def utf16 (cs : List Char) : List Nat :=
  cs.flatMap utf16Units

theorem length_utf16 (cs : List Char) : (utf16 cs).length = utf16Size cs := by
  induction cs with
  | nil => rfl
  | cons c cs ih =>
    rw [utf16, List.flatMap_cons, List.length_append, utf16Size, ← ih, utf16Units]
    split <;> rfl

/-- Characters of one unit each are their code points. -/
theorem utf16_eq_map (h : ∀ c ∈ cs, c.toNat ≤ maxConstant) : utf16 cs = cs.map Char.toNat := by
  induction cs with
  | nil => rfl
  | cons c cs ih =>
    have hlater : ∀ d ∈ cs, d.toNat ≤ maxConstant := fun d hd => h d (List.mem_cons_of_mem _ hd)
    have hc : c.toNat < 0x10000 := by
      have hle : c.toNat ≤ 32767 := h c List.mem_cons_self
      omega
    rw [utf16, List.flatMap_cons, utf16Units, if_pos hc, List.map_cons, ← ih hlater]
    rfl

/-! ## Acceptance -/

/-- Why a string is no constant: it has too many units, or it has not, and its first character that
is no constant is this one. -/
inductive Rejects : List Char → Cause → Prop where
  | tooLong {cs : List Char} (hsize : maxConstant < (utf16 cs).length) :
    Rejects cs (.stringTooLong (utf16 cs).length)
  | unsupported {before after : List Char} {c : Char}
    (hsize : (utf16 (before ++ c :: after)).length ≤ maxConstant)
    (hbefore : ∀ d ∈ before, d.toNat ≤ maxConstant) (hc : maxConstant < c.toNat) :
    Rejects (before ++ c :: after) (.unsupportedCharacter c)

theorem isWritable_iff : isWritable value ↔
    value.length ≤ maxConstant ∧ ∀ c ∈ value.toList, c.toNat ≤ maxConstant := by
  have hall : value.toList.all (·.toNat ≤ maxConstant) ↔
      ∀ c ∈ value.toList, c.toNat ≤ maxConstant := by
    simp
  rw [isWritable, Bool.and_eq_true, decide_eq_true_eq, hall]
  constructor
  · rintro ⟨hsize, hall⟩
    exact ⟨Nat.le_trans (length_le_utf16Size value.toList) hsize, hall⟩
  · rintro ⟨hlength, hall⟩
    -- with one unit for each character the size is the length
    rw [← length_utf16, utf16_eq_map hall, List.length_map]
    exact ⟨hlength, hall⟩

theorem checkString_eq_ok_iff : checkString value offset = .ok () ↔ isWritable value := by
  rw [← toOption_eq_some_iff, toOption_checkString]
  split <;> simp [*]

theorem checkString_of_rejects {cause : Cause} (hv : Rejects value.toList cause) (offset : Nat) :
    checkString value offset = .error ⟨cause, some offset⟩ := by
  unfold checkString
  generalize value.toList = cs at hv
  cases hv with
  | tooLong hsize =>
    rw [length_utf16] at hsize ⊢
    rw [if_pos hsize]
  | @unsupported before after c hsize hbefore hc =>
    have hfind : (before ++ c :: after).find? (maxConstant < ·.toNat) = some c := by
      rw [List.find?_eq_some_iff_append]
      refine ⟨decide_eq_true hc, before, after, rfl, fun d hd => ?_⟩
      have hle := hbefore d hd
      simpa using hle
    rw [length_utf16] at hsize
    rw [if_neg (Nat.not_lt.2 hsize), hfind]

/-- A string is a constant or there is a reason why it is none. -/
theorem isWritable_or_rejects (value : String) :
    isWritable value ∨ ∃ cause, Rejects value.toList cause := by
  by_cases hsize : maxConstant < (utf16 value.toList).length
  · exact .inr ⟨_, .tooLong hsize⟩
  · cases hfind : value.toList.find? (maxConstant < ·.toNat) with
    | none =>
      have hok : checkString value 0 = .ok () := by
        rw [length_utf16] at hsize
        rw [checkString, if_neg hsize, hfind]
      exact .inl (checkString_eq_ok_iff.1 hok)
    | some c =>
      obtain ⟨hc, before, after, hsplit, hbefore⟩ := List.find?_eq_some_iff_append.1 hfind
      rw [hsplit] at hsize ⊢
      refine .inr ⟨_, .unsupported (Nat.not_lt.1 hsize) (fun d hd => ?_) (of_decide_eq_true hc)⟩
      simpa using hbefore d hd

theorem checkString_eq_error_iff {fault : Fault} : checkString value offset = .error fault ↔
    fault.offset? = some offset ∧ Rejects value.toList fault.cause := by
  constructor
  · intro herror
    rcases isWritable_or_rejects value with hv | ⟨cause, hv⟩
    · rw [checkString_eq_ok_iff.2 hv] at herror
      cases herror
    · rw [checkString_of_rejects hv] at herror
      cases herror
      exact ⟨rfl, hv⟩
  · obtain ⟨cause, place⟩ := fault
    rintro ⟨rfl, hv⟩
    exact checkString_of_rejects hv offset

/-- A string is read if it is a constant. -/
theorem readTerm_string (h : Header) (value : String) (offset : Nat) (r : List Lexeme) :
    readTerm h (⟨.string value, offset⟩ :: r) =
      (checkString value offset).map fun _ => ⟨.string value, r, Nat.lt_succ_self _⟩ := by
  have hcheck : readTerm h (⟨.string value, offset⟩ :: r) =
      checkString value offset >>= fun _ => .ok ⟨.string value, r, Nat.lt_succ_self _⟩ := by
    rw [readTerm]
    rfl
  rw [hcheck]
  cases checkString value offset <;> rfl

/-! ## Code -/

/-- The code of a string that is a constant has its length and its units. -/
theorem stringCode_eq (hall : ∀ c ∈ value.toList, c.toNat ≤ maxConstant) : stringCode value =
    [.push .constant value.length, .call "String.new" 1] ++
      (utf16 value.toList).flatMap fun u => [.push .constant u, .call "String.appendChar" 2] := by
  rw [utf16_eq_map hall, List.flatMap_map]
  rfl

theorem le_of_push_mem_stringCode (hv : isWritable value) {n : Nat}
    (hn : .push .constant n ∈ stringCode value) : n ≤ maxConstant := by
  obtain ⟨hlength, hall⟩ := isWritable_iff.1 hv
  rw [stringCode, List.mem_append] at hn
  rcases hn with hn | hn
  · rcases List.mem_cons.1 hn with heq | hn
    · cases heq
      exact hlength
    · cases List.mem_singleton.1 hn
  · obtain ⟨c, hc, hn⟩ := List.mem_flatMap.1 hn
    rcases List.mem_cons.1 hn with heq | hn
    · cases heq
      exact hall c hc
    · cases List.mem_singleton.1 hn

/-! ## Strings at run time -/

/-- Calls that make strings. A word refers to a string in a memory, which has a capacity and units.
`String.new` makes an empty string, and `String.appendChar` appends its second argument to its first
and returns that, as long as the capacity allows it. -/
structure StringLibrary (call : String → List Word → Memory → Word × Memory)
    (holds : Memory → Word → Nat → List Word → Prop) : Prop where
  new : ∀ (m : Memory) (n : Nat), n ≤ maxConstant →
    holds (call "String.new" [BitVec.ofNat 16 n] m).2
      (call "String.new" [BitVec.ofNat 16 n] m).1 n []
  append : ∀ (m : Memory) (s u : Word) (capacity : Nat) (units : List Word),
    holds m s capacity units → units.length < capacity →
    (call "String.appendChar" [s, u] m).1 = s ∧
      holds (call "String.appendChar" [s, u] m).2 s capacity (units ++ [u])

/-- The characters of a text as words. -/
def charWords (cs : List Char) : List Word :=
  cs.map fun c => BitVec.ofNat 16 c.toNat

/-- Constants stand for themselves as words. -/
theorem map_toNat_charWords (hall : ∀ c ∈ cs, c.toNat ≤ maxConstant) :
    (charWords cs).map BitVec.toNat = cs.map Char.toNat := by
  rw [charWords, List.map_map]
  refine List.map_congr_left fun c hc => ?_
  have hle : c.toNat ≤ 32767 := hall c hc
  rw [Function.comp_apply, BitVec.toNat_ofNat]
  omega

section

variable {μ : Meaning} {holds : Memory → Word → Nat → List Word → Prop} {m : Memory} {s : Word}
  {capacity : Nat} {units : List Word}

/-- Characters are appended one after the other. -/
theorem holds_appendAll (hlib : StringLibrary μ.call holds) (hs : holds m s capacity units)
    (hroom : units.length + cs.length ≤ capacity) :
    (appendAll μ cs s m).1 = s ∧
      holds (appendAll μ cs s m).2 s capacity (units ++ charWords cs) := by
  -- on the characters that are left, for any units before them: the room suffices for both
  induction cs generalizing m units with
  | nil =>
    rw [charWords, List.map_nil, List.append_nil]
    exact ⟨rfl, hs⟩
  | cons c cs ih =>
    rw [List.length_cons] at hroom
    have hlt : units.length < capacity := by omega
    obtain ⟨hsame, happended⟩ := hlib.append m s (BitVec.ofNat 16 c.toNat) capacity units hs hlt
    have hroom' : (units ++ [BitVec.ofNat 16 c.toNat]).length + cs.length ≤ capacity := by
      rw [List.length_append, List.length_singleton]
      omega
    have hrest := ih happended hroom'
    rw [List.append_assoc] at hrest
    have hstep : appendAll μ (c :: cs) s m =
        appendAll μ cs (μ.call "String.appendChar" [s, BitVec.ofNat 16 c.toNat] m).1
          (μ.call "String.appendChar" [s, BitVec.ofNat 16 c.toNat] m).2 := rfl
    rw [hstep, hsame]
    exact hrest

theorem holds_newString (hlib : StringLibrary μ.call holds)
    (hlength : value.length ≤ maxConstant) (m : Memory) :
    holds (newString μ value m).2 (newString μ value m).1 value.length
      (charWords value.toList) := by
  have hnew := hlib.new m value.length hlength
  have hroom : ([] : List Word).length + value.toList.length ≤ value.length :=
    Nat.le_of_eq ((Nat.zero_add _).trans String.length_toList)
  obtain ⟨hsame, hholds⟩ := holds_appendAll hlib hnew hroom
  have hstring : newString μ value m =
      appendAll μ value.toList (μ.call "String.new" [BitVec.ofNat 16 value.length] m).1
        (μ.call "String.new" [BitVec.ofNat 16 value.length] m).2 := rfl
  rw [hstring, hsame]
  exact hholds

end

/-- **A string constant is encoded exactly or rejected.** It is read exactly if it has at most 32767
characters, each with a code point of at most 32767. Otherwise no code is made, and the fault at the
string has the number of its units, if that is too large, and else the first character that is. The
code has the number of the characters and then the characters, which are its units, as constants.
With calls that make strings it leaves one reference, to a string of these characters. -/
theorem string_constant (h : Header) (value : String) (offset : Nat) (r : List Lexeme) :
    ((∃ t, readTerm h (⟨.string value, offset⟩ :: r) = .ok t) ↔
      value.length ≤ maxConstant ∧ ∀ c ∈ value.toList, c.toNat ≤ maxConstant) ∧
    (∀ fault, readTerm h (⟨.string value, offset⟩ :: r) = .error fault ↔
      fault.offset? = some offset ∧ Rejects value.toList fault.cause) ∧
    ∀ t, readTerm h (⟨.string value, offset⟩ :: r) = .ok t →
      t.rest = r ∧ utf16 value.toList = value.toList.map Char.toNat ∧
      ∀ className, t.value.code className =
          [.push .constant value.length, .call "String.new" 1] ++
            ((utf16 value.toList).flatMap fun u =>
              [.push .constant u, .call "String.appendChar" 2]) ∧
        (∀ n, .push .constant n ∈ t.value.code className → n ≤ maxConstant) ∧
        ∀ (μ : Meaning) (holds : Memory → Word → Nat → List Word → Prop),
          StringLibrary μ.call holds → ∀ s : State, ∃ reference m that units,
            exec μ (t.value.code className) s =
              some { s with stack := reference :: s.stack, store.toMemory := m, that := that } ∧
            holds m reference value.length units ∧
            units.map BitVec.toNat = value.toList.map Char.toNat := by
  have hread := readTerm_string h value offset r
  refine ⟨?_, fun fault => ?_, fun t ht => ?_⟩
  · have hok : checkString value offset = .ok () ↔ isWritable value := checkString_eq_ok_iff
    rw [hread, ← isWritable_iff, ← hok]
    cases checkString value offset <;> simp [Except.map]
  · rw [hread, ← checkString_eq_error_iff]
    cases checkString value offset <;> simp [Except.map]
  · rw [hread] at ht
    obtain ⟨u, hu, ht⟩ : ∃ u, checkString value offset = .ok u ∧
        (⟨.string value, r, Nat.lt_succ_self _⟩ : Taken _ _) = t := by
      cases hcheck : checkString value offset with
      | error fault =>
        rw [hcheck] at ht
        cases ht
      | ok u =>
        rw [hcheck] at ht
        exact ⟨u, rfl, Except.ok.inj ht⟩
    subst ht
    have hv : isWritable value := checkString_eq_ok_iff.1 hu
    obtain ⟨hlength, hall⟩ := isWritable_iff.1 hv
    refine ⟨rfl, utf16_eq_map hall, fun className => ⟨stringCode_eq hall, ?_, ?_⟩⟩
    · intro n hn
      exact le_of_push_mem_stringCode hv hn
    · intro μ holds hlib s
      obtain ⟨that, hx⟩ := replaces_string (μ := μ) (f := s.store.toFrame) (m := s.store.toMemory)
        value s.stack s.that s.temps
      exact ⟨_, _, that, _, hx, holds_newString hlib hlength _, map_toNat_charWords hall⟩

/-! ## Strings in blocks -/

/-- A string is a block of words: the number of its units, and the units behind that. -/
structure Block (m : Memory) (s : Word) (capacity : Nat) (units : List Word) : Prop where
  capacity_le : capacity ≤ maxConstant
  length_le : units.length ≤ capacity
  size_eq : m.heap s = BitVec.ofNat 16 units.length
  unit_eq : ∀ i u, units[i]? = some u → m.heap (s + BitVec.ofNat 16 (i + 1)) = u

/-- A memory after a unit is put behind the others of a block. -/
def putUnit (m : Memory) (s u : Word) : Memory :=
  let size := m.heap s + 1
  { m with heap := Function.update (Function.update m.heap (s + size) u) s size }

/-- Calls that make a string at an address and append to strings in blocks. -/
def blockCall (address : Word) : String → List Word → Memory → Word × Memory
  | "String.new", _, m => (address, { m with heap := Function.update m.heap address 0 })
  | "String.appendChar", [s, u], m => (s, putUnit m s u)
  | _, _, m => (0, m)

/-- The words of a block are apart. -/
theorem add_ofNat_ne (s : Word) {i j : Nat} (hi : i ≤ maxConstant) (hj : j ≤ maxConstant)
    (hij : i ≠ j) : s + BitVec.ofNat 16 i ≠ s + BitVec.ofNat 16 j := by
  intro h
  have hword : BitVec.ofNat 16 i = BitVec.ofNat 16 j := (BitVec.add_right_inj s).1 h
  have hnat := congrArg BitVec.toNat hword
  have hi' : i ≤ 32767 := hi
  have hj' : j ≤ 32767 := hj
  rw [BitVec.toNat_ofNat, BitVec.toNat_ofNat] at hnat
  omega

theorem block_putUnit {m : Memory} {s : Word} {capacity : Nat} {units : List Word}
    (h : Block m s capacity units) (hlt : units.length < capacity) (u : Word) :
    Block (putUnit m s u) s capacity (units ++ [u]) := by
  obtain ⟨hcapacity, -, hsize, hunits⟩ := h
  have hnext : m.heap s + 1 = BitVec.ofNat 16 (units.length + 1) := by
    rw [hsize, BitVec.ofNat_add]
    rfl
  have hheap : (putUnit m s u).heap = Function.update
      (Function.update m.heap (s + BitVec.ofNat 16 (units.length + 1)) u) s
      (BitVec.ofNat 16 (units.length + 1)) := by
    rw [← hnext]
    rfl
  have hlength : (units ++ [u]).length = units.length + 1 := List.length_append
  refine ⟨hcapacity, hlength ▸ hlt, ?_, fun i v hv => ?_⟩
  · rw [hheap, hlength, Function.update_self]
  · -- neither the number of the units nor the new one is written over another unit
    have hi : i < units.length + 1 := hlength ▸ (List.getElem?_eq_some_iff.1 hv).1
    have hhead : s + BitVec.ofNat 16 (i + 1) ≠ s := by
      have hne : s + BitVec.ofNat 16 (i + 1) ≠ s + BitVec.ofNat 16 0 :=
        add_ofNat_ne s (by omega) (Nat.zero_le _) (Nat.succ_ne_zero i)
      rwa [BitVec.add_zero] at hne
    rw [hheap, Function.update_of_ne hhead]
    by_cases hlast : i = units.length
    · rw [hlast, List.getElem?_concat_length] at hv
      rw [hlast, Function.update_self]
      exact Option.some.inj hv
    · have hother : s + BitVec.ofNat 16 (i + 1) ≠ s + BitVec.ofNat 16 (units.length + 1) :=
        add_ofNat_ne s (by omega) (by omega) (by omega)
      rw [List.getElem?_append_left (by omega)] at hv
      rw [Function.update_of_ne hother]
      exact hunits i v hv

theorem stringLibrary_blockCall (address : Word) : StringLibrary (blockCall address) Block where
  new m n hn := by
    have hsize : Function.update m.heap address 0 address = 0 := Function.update_self ..
    simp only [blockCall]
    exact ⟨hn, Nat.zero_le n, hsize, nofun⟩
  append m s u capacity units h hlt := by
    simp only [blockCall]
    exact ⟨trivial, block_putUnit h hlt u⟩

/-- A string with an accent leaves a reference to a block with its two characters. -/
theorem string_constant_block :
    let h : Header := ⟨"Main", .function, true, "run", {}⟩
    let s : State := ⟨[7], ⟨⟨fun _ => 0, fun _ => 0⟩, ⟨fun _ => 0, fun _ => 0, 0⟩⟩, 0, fun _ => 0⟩
    ∃ t, readTerm h [⟨.string "aé", 5⟩] = .ok t ∧ StringLibrary (blockCall 2048) Block ∧
      ∃ reference m that units,
        exec (.words (blockCall 2048)) (t.value.code "Main") s =
          some { s with stack := [reference, 7], store.toMemory := m, that := that } ∧
        Block m reference 2 units ∧ units.map BitVec.toNat = [97, 233] := by
  intro h s
  obtain ⟨hiff, -, hcode⟩ := string_constant h "aé" 5 []
  have hlist : "aé".toList = ['a', 'é'] := rfl
  have hall : ∀ c ∈ "aé".toList, c.toNat ≤ maxConstant := by
    rw [hlist, List.forall_mem_cons, List.forall_mem_singleton]
    decide
  obtain ⟨t, ht⟩ := hiff.2 ⟨by decide, hall⟩
  obtain ⟨-, -, hcode⟩ := hcode t ht
  obtain ⟨-, -, hrun⟩ := hcode "Main"
  have hlib := stringLibrary_blockCall 2048
  exact ⟨t, ht, hlib, hrun (.words (blockCall 2048)) Block hlib s⟩

end JackToolchain.Jack
