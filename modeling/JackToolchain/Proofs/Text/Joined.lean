import JackToolchain.Text.Basic

/-!
# Names that are joined from parts

A name is made of parts with a separator between them, or of a text with a number behind it.
The parts are read back from the name where the separator does not occur in them, and where the
text does not end with a digit.

* `append_cons_inj_left`, `append_cons_inj_right`: the parts around the first and around the
  last separator.
* `decimal?_toString`: a number that stands alone.
* `numbered_inj`: the text and the number behind it.
-/

namespace JackToolchain.Text

variable {a b x y : List Char} {c : Char} {sep : Char} {m n : Nat} {s t : String}

/-- Parts are read back around the first separator. -/
theorem append_cons_inj_left (ha : sep ∉ a) (hb : sep ∉ b) (h : a ++ sep :: x = b ++ sep :: y) :
    a = b ∧ x = y := by
  induction a generalizing b with
  | nil =>
    cases b with
    | nil => exact ⟨rfl, (List.cons.inj h).2⟩
    | cons d b => exact absurd (List.cons.inj h).1 fun hd => hb (hd ▸ List.mem_cons_self)
  | cons d a ih =>
    cases b with
    | nil => exact absurd (List.cons.inj h).1 fun hd => ha (hd ▸ List.mem_cons_self)
    | cons e b =>
      obtain ⟨rfl, hrest⟩ := List.cons.inj h
      obtain ⟨rfl, rfl⟩ := ih (fun hs => ha (List.mem_cons_of_mem _ hs))
        (fun hs => hb (List.mem_cons_of_mem _ hs)) hrest
      exact ⟨rfl, rfl⟩

/-- Parts are read back around the last separator. -/
theorem append_cons_inj_right (hx : sep ∉ x) (hy : sep ∉ y) (h : a ++ sep :: x = b ++ sep :: y) :
    a = b ∧ x = y := by
  have hreverse : x.reverse ++ sep :: a.reverse = y.reverse ++ sep :: b.reverse := by
    have h := congrArg List.reverse h
    simpa using h
  obtain ⟨hxy, hab⟩ := append_cons_inj_left (by simpa using hx) (by simpa using hy) hreverse
  exact ⟨List.reverse_inj.1 hab, List.reverse_inj.1 hxy⟩

/-- The last character of a text is that of the text it ends with. -/
theorem getLast?_toList_append (s : String) (ht : t.toList.getLast? = some c) :
    (s ++ t).toList.getLast? = some c := by
  rw [String.toList_append, List.getLast?_append, ht, Option.some_or]

/-! ## Numbers -/

theorem toList_toString (n : Nat) : (toString n).toList = Nat.toDigits 10 n :=
  String.toList_ofList

theorem isDigit_of_mem_toString (hc : c ∈ (toString n).toList) : c.isDigit = true := by
  rw [toList_toString] at hc
  exact Nat.isDigit_of_mem_toDigits (by decide) (by decide) hc

theorem not_mem_toString (hc : c.isDigit = false) (n : Nat) : c ∉ (toString n).toList := by
  intro hmem
  rw [isDigit_of_mem_toString hmem] at hc
  cases hc

theorem toList_toString_ne_nil (n : Nat) : (toString n).toList ≠ [] := by
  rw [toList_toString]
  exact Nat.toDigits_ne_nil

/-- A number is read from the digits that write it. -/
theorem decimal?_toString (n : Nat) : decimal? (toString n).toList = some n := by
  have hdigits : (toString n).toList.all Char.isDigit := by
    rw [List.all_eq_true]
    exact fun c hc => isDigit_of_mem_toString hc
  rw [decimal?, if_pos ⟨toList_toString_ne_nil n, hdigits⟩, toList_toString]
  exact congrArg some Nat.ofDigitChars_ten_toDigits

theorem toString_injective (h : toString m = toString n) : m = n := by
  have hm := decimal?_toString m
  rw [h, decimal?_toString] at hm
  exact (Option.some.inj hm).symm

/-- Whether a text ends with a character that is no digit, so that digits behind it stand
apart from it. -/
def endsPlain (s : String) : Bool :=
  s.toList.getLast?.any fun c => !c.isDigit

theorem endsPlain_append (s : String) (ht : endsPlain t) : endsPlain (s ++ t) := by
  obtain ⟨c, hc, hdigit⟩ := (Option.any_eq_true _ _).1 ht
  exact (Option.any_eq_true _ _).2 ⟨c, getLast?_toList_append s hc, hdigit⟩

/-- The digits at the end of a numbered text are those of its number. -/
theorem takeWhile_reverse_numbered (hs : endsPlain s) (n : Nat) :
    (s ++ toString n).toList.reverse.takeWhile Char.isDigit = (toString n).toList.reverse := by
  have hdigits : ∀ c ∈ (toString n).toList.reverse, c.isDigit = true := by
    intro c hc
    exact isDigit_of_mem_toString (List.mem_reverse.1 hc)
  rw [String.toList_append, List.reverse_append, List.takeWhile_append_of_pos hdigits]
  unfold endsPlain at hs
  rw [← List.head?_reverse] at hs
  cases hrest : s.toList.reverse with
  | nil => simp
  | cons c cs =>
    rw [hrest] at hs
    have hc : c.isDigit = false := by simpa using hs
    simp [hc]

/-- A text and the number behind it are read back. -/
theorem numbered_inj (hs : endsPlain s) (ht : endsPlain t) (h : s ++ toString m = t ++ toString n) :
    s = t ∧ m = n := by
  have hdigits : toString m = toString n := by
    have hreverse : (toString m).toList.reverse = (toString n).toList.reverse := by
      rw [← takeWhile_reverse_numbered hs m, h, takeWhile_reverse_numbered ht n]
    exact String.toList_inj.1 (List.reverse_inj.1 hreverse)
  refine ⟨?_, toString_injective hdigits⟩
  rw [hdigits] at h
  exact (String.append_left_inj _).1 h

end JackToolchain.Text
