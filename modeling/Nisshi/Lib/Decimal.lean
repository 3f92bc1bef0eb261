import Mathlib.Data.Nat.Digits.Lemmas
import Mathlib.Tactic.Common

/-! Integers as decimal text: what reads a text back, and how many digits it has. -/

namespace Nisshi.Lib.Decimal

def natText (n : Nat) : List Char :=
  if n = 0 then ['0'] else (Nat.digits 10 n).reverse.map Nat.digitChar

def intText (n : Int) : List Char :=
  if n < 0 then '-' :: natText n.natAbs else natText n.natAbs

def digitsValue (digits : List Char) : Nat :=
  digits.foldl (fun value digit => 10 * value + (digit.toNat - 48)) 0

def readNat (digits : List Char) : Option Nat :=
  if digits ≠ [] ∧ digits.all Char.isDigit then some (digitsValue digits) else none

def readInt : List Char → Option Int
  | '-' :: digits => (readNat digits).map fun n => -(n : Int)
  | '+' :: digits => (readNat digits).map Int.ofNat
  | digits => (readNat digits).map Int.ofNat

theorem toNat_digitChar (small : digit < 10) : (Nat.digitChar digit).toNat = 48 + digit := by
  interval_cases digit <;> rfl

theorem isDigit_digitChar (small : digit < 10) : (Nat.digitChar digit).isDigit = true := by
  interval_cases digit <;> rfl

theorem digitsValue_digits (n : Nat) : digitsValue ((Nat.digits 10 n).reverse.map Nat.digitChar) = n := by
  have folds : ∀ digits : List Nat, (∀ digit ∈ digits, digit < 10) →
      digitsValue (digits.reverse.map Nat.digitChar) = Nat.ofDigits 10 digits := by
    intro digits
    induction digits with
    | nil => exact fun _ => rfl
    | cons digit rest ih =>
      intro small
      have here := toNat_digitChar (small digit List.mem_cons_self)
      have there := ih fun other member => small other (List.mem_cons_of_mem _ member)
      rw [digitsValue] at there
      rw [digitsValue, List.reverse_cons, List.map_append, List.foldl_append, Nat.ofDigits_cons]
      simp only [List.map_cons, List.map_nil, List.foldl_cons, List.foldl_nil, here]
      omega
  rw [folds _ fun digit member => Nat.digits_lt_base (by decide) member, Nat.ofDigits_digits]

theorem natText_ne_nil (n : Nat) : natText n ≠ [] := by
  rw [natText]
  split
  next => exact List.cons_ne_nil _ _
  next positive =>
    simpa [Nat.digits_eq_nil_iff_eq_zero] using positive

theorem all_isDigit_natText (n : Nat) : (natText n).all Char.isDigit = true := by
  rw [natText]
  split
  next => rfl
  next =>
    rw [List.all_eq_true]
    intro digit member
    obtain ⟨value, listed, rfl⟩ := List.mem_map.mp member
    exact isDigit_digitChar (Nat.digits_lt_base (by decide) (List.mem_reverse.mp listed))

theorem digitsValue_natText (n : Nat) : digitsValue (natText n) = n := by
  rw [natText]
  split
  next zero => exact zero.symm
  next => exact digitsValue_digits n

theorem digitsValue_leftpad (width n : Nat) : digitsValue ((natText n).leftpad width '0') = n := by
  have zeros : ∀ count, digitsValue (List.replicate count '0') = 0 := by
    intro count
    induction count with
    | zero => rfl
    | succ _ ih => exact ih
  rw [List.leftpad, digitsValue, List.foldl_append, ← digitsValue, zeros]
  exact digitsValue_natText n

theorem readNat_natText (n : Nat) : readNat (natText n) = some n := by
  rw [readNat, if_pos ⟨natText_ne_nil n, all_isDigit_natText n⟩, digitsValue_natText]

theorem isDigit_of_head {first : Char} (text : natText n = first :: rest) : first.isDigit = true := by
  have all := all_isDigit_natText n
  rw [text] at all
  exact (Bool.and_eq_true_iff.mp all).1

theorem readInt_natText (n : Nat) : readInt (natText n) = some (n : Int) := by
  have read := readNat_natText n
  cases text : natText n with
  | nil => exact absurd text (natText_ne_nil n)
  | cons first rest =>
    have digit := isDigit_of_head text
    rw [text] at read
    rw [readInt]
    · rw [read]
      rfl
    · rintro digits ⟨⟩
      exact absurd digit (by decide)
    · rintro digits ⟨⟩
      exact absurd digit (by decide)

theorem intText_of_nonneg (nonneg : 0 ≤ n) : intText n = natText n.natAbs :=
  if_neg (Int.not_lt_of_ge nonneg)

theorem readInt_intText (n : Int) : readInt (intText n) = some n := by
  rw [intText]
  split
  next negative =>
    rw [readInt, readNat_natText]
    change some (-(n.natAbs : Int)) = some n
    congr 1
    omega
  next =>
    rw [readInt_natText]
    congr 1
    omega

theorem length_natText_le_iff (some : count ≠ 0) : (natText n).length ≤ count ↔ n < 10 ^ count := by
  rw [natText]
  split
  next zero =>
    have positive : 0 < 10 ^ count := Nat.pow_pos (by decide)
    simp only [List.length_singleton]
    omega
  next =>
    rw [List.length_map, List.length_reverse]
    exact Nat.digits_length_le_iff (by decide) n

end Nisshi.Lib.Decimal
