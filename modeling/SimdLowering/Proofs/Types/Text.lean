/-
The text of a type says which type it is.

The first letters of a text tell the sort of the type: an integer shares its letter with an index
only, and goes on with a digit. What follows is read off from the left. A number ends where its
digits end, and before every element stands an `x`. The dimensions of memory need no mark where
they end, because the text of an element never begins with a digit.
-/
import SimdLowering.Ty
import Mathlib.Data.List.Basic

set_option autoImplicit false

namespace SimdLowering

namespace Ty

variable {t u : Ty} {n m : Nat} {shape shape' : List Nat} {a b : List Char}

/-! ## Numbers in a text -/

/-- The digits of a number. -/
def digits (n : Nat) : List Char := (toString n).toList

theorem digits_eq (n : Nat) : digits n = Nat.toDigits 10 n := by
  rw [digits, Nat.toString_eq_ofList_toDigits, String.toList_ofList]

theorem digits_injective (h : digits n = digits m) : n = m := by
  rw [digits_eq, digits_eq] at h
  have := congrArg (fun l => Nat.ofDigitChars 10 l 0) h
  simpa using this

theorem isDigit_of_mem_digits {c : Char} (h : c ∈ digits n) : c.isDigit = true := by
  rw [digits_eq] at h
  exact Nat.isDigit_of_mem_toDigits (by decide) (by decide) h

/-- A number has a first digit. -/
theorem exists_digits_eq_cons (n : Nat) : ∃ c l, digits n = c :: l ∧ c.isDigit = true := by
  cases h : digits n with
  | nil =>
    rw [digits_eq] at h
    exact absurd h Nat.toDigits_ne_nil
  | cons c l => exact ⟨c, l, rfl, isDigit_of_mem_digits (h ▸ List.mem_cons_self ..)⟩

/-- The text does not begin with a digit. -/
def NoDigit (l : List Char) : Prop := ∀ c ∈ l.head?, c.isDigit = false

/-- The mark behind a dimension is no digit. -/
theorem noDigit_x (l : List Char) : NoDigit ('x' :: l) := by
  simp [NoDigit]

/-- A number is the digits up to the first other character. -/
theorem takeWhile_digits (h : NoDigit a) : (digits n ++ a).takeWhile Char.isDigit = digits n := by
  rw [List.takeWhile_append_of_pos fun c hc => isDigit_of_mem_digits hc]
  cases a with
  | nil => simp
  | cons c a =>
    have hc : c.isDigit = false := h c (by simp)
    simp [hc]

/-- Two texts that begin with a number are the same only if the numbers are and the rests are. -/
theorem digits_append_inj (ha : NoDigit a) (hb : NoDigit b)
    (h : digits n ++ a = digits m ++ b) : n = m ∧ a = b := by
  have hdigits : digits n = digits m := by
    have := congrArg (List.takeWhile Char.isDigit) h
    rwa [takeWhile_digits ha, takeWhile_digits hb] at this
  rw [hdigits] at h
  exact ⟨digits_injective hdigits, List.append_cancel_left h⟩

/-- Dimensions, each followed by an `x`. -/
def dims (shape : List Nat) : List Char := shape.flatMap fun d => digits d ++ ['x']

/-- Where the rest begins with no digit, it is clear where the dimensions end. -/
theorem dims_append_inj (ha : NoDigit a) (hb : NoDigit b)
    (h : dims shape ++ a = dims shape' ++ b) : shape = shape' ∧ a = b := by
  -- A text that begins with a dimension begins with a digit.
  have hdigit : ∀ (d : Nat) (s : List Nat) (l : List Char), ¬ NoDigit (dims (d :: s) ++ l) := by
    intro d s l hno
    obtain ⟨c, r, hcr, hc⟩ := exists_digits_eq_cons d
    have := hno c (by simp [dims, hcr])
    simp [this] at hc
  induction shape generalizing shape' with
  | nil =>
    cases shape' with
    | nil => exact ⟨rfl, h⟩
    | cons d s => exact absurd (h ▸ ha : NoDigit (dims (d :: s) ++ b)) (hdigit d s b)
  | cons d s ih =>
    cases shape' with
    | nil => exact absurd (h ▸ hb : NoDigit (dims (d :: s) ++ a)) (hdigit d s a)
    | cons d' s' =>
      have hcons : ∀ (d : Nat) (s : List Nat) (l : List Char),
          dims (d :: s) ++ l = digits d ++ 'x' :: (dims s ++ l) := by simp [dims]
      rw [hcons, hcons] at h
      obtain ⟨rfl, hrest⟩ := digits_append_inj (noDigit_x _) (noDigit_x _) h
      obtain ⟨rfl, hab⟩ := ih (List.cons.inj hrest).2
      exact ⟨rfl, hab⟩

/-! ## The text of a type -/

/-- The characters of the text. -/
def chars (t : Ty) : List Char := t.render.toList

theorem chars_int {width : Nat} {sign : Signedness} :
    (int width sign).chars = (signText sign).toList ++ digits width := by
  simp [chars, render, digits]

theorem chars_vector : (vector n t).chars =
    "vector<".toList ++ (digits n ++ 'x' :: (t.chars ++ ['>'])) := by
  simp [chars, render, digits]

theorem chars_memory : (memory shape t).chars =
    "memref<".toList ++ (dims shape ++ (t.chars ++ ['>'])) := by
  simp [chars, render, digits, dims, String.toList_join, List.flatMap_map]

/-- The sort of a type. -/
def sort : Ty → Nat
  | int _ _ => 0
  | float _ => 1
  | index => 2
  | vector _ _ => 3
  | memory _ _ => 4

/-- The sort of the type with the text. -/
def sortOf : List Char → Nat
  | 'f' :: _ => 1
  | 'b' :: _ => 1
  | 'i' :: 'n' :: _ => 2
  | 'v' :: _ => 3
  | 'm' :: _ => 4
  | _ => 0

theorem sortOf_chars (t : Ty) : sortOf t.chars = t.sort := by
  cases t with
  | int width sign =>
    obtain ⟨c, l, hl, hc⟩ := exists_digits_eq_cons width
    rw [chars_int, hl]
    cases sign with
    | signless =>
      -- The letter of an index is followed by another letter.
      have hn : c ≠ 'n' := by
        rintro rfl
        exact absurd hc (by decide)
      simp [signText, sortOf, sort, hn]
    | signed => rfl
    | unsigned => rfl
  | float format => cases format <;> rfl
  | index => rfl
  | vector n t => rw [chars_vector]; rfl
  | memory shape t => rw [chars_memory]; rfl

/-- The text of a type begins with a letter. -/
theorem noDigit_chars (t : Ty) (a : List Char) : NoDigit (t.chars ++ a) := by
  cases t with
  | int width sign =>
    rw [chars_int]
    cases sign <;> simp [NoDigit, signText]
  | float format => cases format <;> simp [NoDigit, chars, render, FloatFormat.render]
  | index => simp [NoDigit, chars, render]
  | vector n t => simp [NoDigit, chars_vector]
  | memory shape t => simp [NoDigit, chars_memory]

theorem sort_eq_of_chars_eq (h : t.chars = u.chars) : t.sort = u.sort := by
  rw [← sortOf_chars, h, sortOf_chars]

theorem chars_injective (h : t.chars = u.chars) : t = u := by
  induction t generalizing u with
  | int width sign =>
    cases u with
    | int width' sign' =>
      rw [chars_int, chars_int] at h
      -- The text of a sign is a prefix without digits, so the width is what follows.
      cases sign <;> cases sign' <;> simp [signText] at h
      all_goals rw [digits_injective h]
    | _ => cases sort_eq_of_chars_eq h
  | float format =>
    cases u with
    | float format' => revert h; cases format <;> cases format' <;> decide
    | _ => cases sort_eq_of_chars_eq h
  | index =>
    cases u with
    | index => rfl
    | _ => cases sort_eq_of_chars_eq h
  | vector n t ih =>
    cases u with
    | vector m u =>
      rw [chars_vector, chars_vector] at h
      -- A length ends where the digits end.
      obtain ⟨rfl, hrest⟩ := digits_append_inj (noDigit_x _) (noDigit_x _)
        (List.append_cancel_left h)
      rw [ih (List.append_cancel_right (List.cons.inj hrest).2)]
    | _ => cases sort_eq_of_chars_eq h
  | memory shape t ih =>
    cases u with
    | memory shape' u =>
      rw [chars_memory, chars_memory] at h
      obtain ⟨rfl, hrest⟩ := dims_append_inj (noDigit_chars t _) (noDigit_chars u _)
        (List.append_cancel_left h)
      rw [ih (List.append_cancel_right hrest)]
    | _ => cases sort_eq_of_chars_eq h

/-- Types with the same text are the same. -/
theorem render_injective (h : t.render = u.render) : t = u :=
  chars_injective (congrArg String.toList h)

/-- Four by four bytes are not four vectors of four bytes. -/
example : (memory [4, 4] (i 8)).render = "memref<4x4xi8>" ∧
    (memory [4] (vector 4 (i 8))).render = "memref<4xvector<4xi8>>" := by decide

end Ty

end SimdLowering
