/-
Numbers as text, read whole or as far as they go.

`integer` is what a whole text denotes in decimal: a sign, if there is one,
and digits, at least one. C's conversions read a part of the text, the
`Subject`: white space is skipped, a sign and the digits behind it are
read, and what comes next is not looked at. No digits count as zero. Only a
number beyond the type is reported, in `errno`.

- `value_subject`: a text that denotes a number is read as that number.
- `strtoull_spec`, `strtoll_spec`: the conversions by what they read.
-/
import Mathlib.Algebra.Ring.Int.Defs
import Mathlib.Algebra.Ring.Nat
import Mathlib.Data.List.TakeWhile

namespace Distplusplus.Lib

variable {text : List Char} {n : Int}

-- ============================================================ whole texts

/-- The number a text of digits denotes. -/
def natural (text : List Char) : Option Nat :=
  if text ≠ [] ∧ text.all Char.isDigit = true then
    some (Nat.ofDigitChars 10 text 0)
  else none

/-- The number a text denotes in decimal. -/
def integer : List Char → Option Int
  | '-' :: text => (natural text).map fun (n : Nat) => -(n : Int)
  | '+' :: text => (natural text).map fun (n : Nat) => (n : Int)
  | text => (natural text).map fun (n : Nat) => (n : Int)

-- ======================================================== C's conversions

/-- White space in the C locale. -/
def isspace (c : Char) : Bool :=
  decide (c ∈ [' ', '\t', '\n', '\x0b', '\x0c', '\r'])

/-- What a conversion reads of a text. -/
structure Subject where
  negative : Bool
  digits : List Char
  deriving DecidableEq, Repr

def Subject.magnitude (s : Subject) : Nat := Nat.ofDigitChars 10 s.digits 0

def Subject.value (s : Subject) : Int :=
  if s.negative then -(s.magnitude : Int) else s.magnitude

/-- The sign, and the longest run of digits behind it. -/
def signed : List Char → Subject
  | '-' :: text => ⟨true, text.takeWhile Char.isDigit⟩
  | '+' :: text => ⟨false, text.takeWhile Char.isDigit⟩
  | text => ⟨false, text.takeWhile Char.isDigit⟩

/-- The part of a text that is read. -/
def subject (text : List Char) : Subject := signed (text.dropWhile isspace)

/-- A result, and `errno` behind a call that found it zero. -/
structure Converted (α : Type*) where
  value : α
  errno : Nat
  deriving DecidableEq, Repr

def ERANGE : Nat := 34

/-- `strtoull` in base ten: the negation is the unsigned type's. -/
def strtoull (text : List Char) : Converted UInt64 :=
  let s := subject text
  if s.magnitude < 2 ^ 64 then
    ⟨if s.negative then -UInt64.ofNat s.magnitude
      else UInt64.ofNat s.magnitude, 0⟩
  else ⟨UInt64.ofNat (2 ^ 64 - 1), ERANGE⟩

/-- `strtoll` in base ten. -/
def strtoll (text : List Char) : Converted Int64 :=
  let s := subject text
  if s.value < -2 ^ 63 then ⟨Int64.minValue, ERANGE⟩
  else if s.value < 2 ^ 63 then ⟨Int64.ofInt s.value, 0⟩
  else ⟨Int64.maxValue, ERANGE⟩

-- ==================================================== what they have read

theorem natural_eq_some {n : Nat} (h : natural text = some n) :
    text ≠ [] ∧ (∀ c ∈ text, c.isDigit = true) ∧
      Nat.ofDigitChars 10 text 0 = n := by
  unfold natural at h
  split at h
  case isTrue hd =>
      exact ⟨hd.1, List.all_eq_true.mp hd.2, Option.some.inj h⟩
  case isFalse => cases h

/-- A digit is neither white space nor a sign. -/
theorem isDigit_facts {c : Char} (h : c.isDigit = true) :
    isspace c = false ∧ c ≠ '-' ∧ c ≠ '+' := by
  have hne : ∀ d : Char, d.isDigit = false → c ≠ d := by
    rintro d hd rfl
    rw [h] at hd
    cases hd
  refine ⟨decide_eq_false fun hmem => ?_, hne _ (by decide),
    hne _ (by decide)⟩
  simp only [List.mem_cons, List.not_mem_nil, or_false] at hmem
  rcases hmem with hc | hc | hc | hc | hc | hc <;>
    exact hne _ (by decide) hc

/-- Digits alone are read to their end. -/
theorem takeWhile_natural {n : Nat} (h : natural text = some n) :
    Nat.ofDigitChars 10 (text.takeWhile Char.isDigit) 0 = n := by
  obtain ⟨-, hall, hval⟩ := natural_eq_some h
  rwa [List.takeWhile_eq_self_iff.mpr hall]

/-- Nothing is skipped in front of a digit. -/
theorem subject_digit {c : Char} (h : c.isDigit = true) (rest : List Char) :
    subject (c :: rest) = ⟨false, (c :: rest).takeWhile Char.isDigit⟩ := by
  obtain ⟨hspace, hminus, hplus⟩ := isDigit_facts h
  rw [subject, List.dropWhile_cons_of_neg (by simp [hspace])]
  unfold signed
  split
  case h_1 heq => exact absurd (List.cons.inj heq).1 hminus
  case h_2 heq => exact absurd (List.cons.inj heq).1 hplus
  case h_3 => rfl

/-- A text that denotes a number is read as that number. -/
theorem value_subject (h : integer text = some n) :
    (subject text).value = n := by
  unfold integer at h
  split at h
  case h_1 rest =>
      obtain ⟨m, hm, rfl⟩ := Option.map_eq_some_iff.mp h
      have hread : subject ('-' :: rest) =
          ⟨true, rest.takeWhile Char.isDigit⟩ := rfl
      simp only [hread, Subject.value, Subject.magnitude, if_true,
        takeWhile_natural hm]
  case h_2 rest =>
      obtain ⟨m, hm, rfl⟩ := Option.map_eq_some_iff.mp h
      have hread : subject ('+' :: rest) =
          ⟨false, rest.takeWhile Char.isDigit⟩ := rfl
      simp only [hread, Subject.value, Subject.magnitude,
        Bool.false_eq_true, if_false, takeWhile_natural hm]
  case h_3 =>
      obtain ⟨m, hm, rfl⟩ := Option.map_eq_some_iff.mp h
      obtain ⟨hne, hall, -⟩ := natural_eq_some hm
      obtain ⟨c, rest, rfl⟩ := List.exists_cons_of_ne_nil hne
      simp only [subject_digit (hall c (List.mem_cons_self ..)),
        Subject.value, Subject.magnitude, Bool.false_eq_true, if_false,
        takeWhile_natural hm]

/-- Digits denote the same with no sign in front. -/
theorem integer_of_natural {n : Nat} (h : natural text = some n) :
    integer text = some (n : Int) := by
  obtain ⟨hne, hall, -⟩ := natural_eq_some h
  obtain ⟨c, rest, rfl⟩ := List.exists_cons_of_ne_nil hne
  obtain ⟨-, hminus, hplus⟩ := isDigit_facts (hall c (List.mem_cons_self ..))
  unfold integer
  split
  case h_1 heq => exact absurd (List.cons.inj heq).1 hminus
  case h_2 heq => exact absurd (List.cons.inj heq).1 hplus
  case h_3 => rw [h, Option.map_some]

/-- The decimal text of a number denotes it. -/
theorem natural_repr (n : Nat) : natural n.repr.toList = some n := by
  rw [Nat.toList_repr, natural, if_pos, Nat.ofDigitChars_ten_toDigits]
  exact ⟨Nat.toDigits_ne_nil, List.all_eq_true.mpr fun c hc =>
    Nat.isDigit_of_mem_toDigits (by decide) (by decide) hc⟩

-- ================================================ what the conversions say

/-- `strtoull` reports a magnitude beyond 64 bits, and else returns what it
has read modulo 2^64. -/
theorem strtoull_spec (text : List Char) :
    ((strtoull text).errno = 0 ↔ (subject text).magnitude < 2 ^ 64) ∧
      ((strtoull text).errno = 0 →
        ((strtoull text).value.toNat : Int)
          = (subject text).value % 2 ^ 64) := by
  unfold strtoull
  by_cases hm : (subject text).magnitude < 2 ^ 64
  · simp only [if_pos hm]
    refine ⟨iff_of_true trivial hm, fun _ => ?_⟩
    have hnat : (UInt64.ofNat (subject text).magnitude).toNat =
        (subject text).magnitude := UInt64.toNat_ofNat_of_lt' hm
    unfold Subject.value
    cases (subject text).negative with
    | false =>
        simp only [Bool.false_eq_true, if_false, hnat]
        omega
    | true =>
        simp only [if_true, UInt64.toNat_neg, hnat, UInt64.size]
        omega
  · simp only [if_neg hm]
    exact ⟨iff_of_false (by decide) hm, fun h => absurd h (by decide)⟩

/-- `strtoll` reports a number that is not in the type, and else returns
what it has read. -/
theorem strtoll_spec (text : List Char) :
    ((strtoll text).errno = 0 ↔
      -2 ^ 63 ≤ (subject text).value ∧ (subject text).value < 2 ^ 63) ∧
      ((strtoll text).errno = 0 →
        (strtoll text).value.toInt = (subject text).value) := by
  unfold strtoll
  by_cases hlow : (subject text).value < -2 ^ 63
  · simp only [if_pos hlow]
    exact ⟨iff_of_false (by decide) (by omega), fun h => absurd h (by decide)⟩
  · by_cases hhigh : (subject text).value < 2 ^ 63
    · simp only [if_neg hlow, if_pos hhigh]
      exact ⟨iff_of_true trivial ⟨by omega, hhigh⟩,
        fun _ => Int64.toInt_ofInt_of_le (by omega) hhigh⟩
    · simp only [if_neg hlow, if_neg hhigh]
      exact ⟨iff_of_false (by decide) (by omega),
        fun h => absurd h (by decide)⟩

end Distplusplus.Lib
