import Mathlib.Tactic.IntervalCases
import OosLite.Lib.Text

/-!
# Decimal numbers

Numbers as digits, what `str::parse` takes for one, and how they are printed.
-/

namespace Decimal

/-- The number that some digits stand for. -/
def value (digits : List Char) : Nat :=
  digits.foldl (fun n c => 10 * n + (c.toNat - '0'.toNat)) 0

/-- `1*DIGIT`. -/
def IsDigits (cs : List Char) : Prop := cs ≠ [] ∧ ∀ c ∈ cs, c.isDigit = true

instance (cs : List Char) : Decidable (IsDigits cs) := inferInstanceAs (Decidable (_ ∧ _))

/-- A number, which may have a plus sign before it. -/
def Signed (cs : List Char) (n : Nat) : Prop :=
  ∃ digits, (cs = digits ∨ cs = '+' :: digits) ∧ IsDigits digits ∧ value digits = n

/-- What is behind a plus sign, if there is one. -/
def unsigned (cs : List Char) : List Char :=
  match cs with
  | '+' :: digits => digits
  | digits => digits

/-- `str::parse` for an unsigned number of so many bits. -/
def parse (bits : Nat) (cs : List Char) : Option Nat :=
  if IsDigits (unsigned cs) ∧ value (unsigned cs) < 2 ^ bits then some (value (unsigned cs)) else none

theorem IsDigits.unsigned {cs : List Char} (digits : IsDigits cs) : unsigned cs = cs := by
  unfold Decimal.unsigned
  split
  · rename_i rest
    have plus := digits.2 '+' List.mem_cons_self
    exact absurd plus (by decide)
  · rfl

theorem signed_iff {cs : List Char} {n : Nat} :
    Signed cs n ↔ IsDigits (unsigned cs) ∧ value (unsigned cs) = n := by
  constructor
  · intro signed
    obtain ⟨digits, same, all, number⟩ := signed
    cases same with
    | inl same =>
      subst same
      rw [all.unsigned]
      exact ⟨all, number⟩
    | inr same =>
      subst same
      exact ⟨all, number⟩
  · intro h
    refine ⟨unsigned cs, ?_, h.1, h.2⟩
    unfold unsigned
    split
    · exact .inr rfl
    · exact .inl rfl

theorem Signed.unique {cs : List Char} {n m : Nat} (h : Signed cs n) (h' : Signed cs m) : n = m :=
  (signed_iff.1 h).2.symm.trans (signed_iff.1 h').2

theorem IsDigits.signed {cs : List Char} (digits : IsDigits cs) : Signed cs (value cs) :=
  ⟨cs, .inl rfl, digits, rfl⟩

theorem Signed.ne_nil {n : Nat} : ¬ Signed [] n := fun h => (signed_iff.1 h).1.1 rfl

/-- The parser takes the numbers that fit. -/
theorem parse_eq_some {bits : Nat} {cs : List Char} {n : Nat} :
    parse bits cs = some n ↔ Signed cs n ∧ n < 2 ^ bits := by
  rw [signed_iff]
  unfold parse
  constructor
  · intro h
    split at h
    · rename_i fits
      obtain rfl := Option.some.inj h
      exact ⟨⟨fits.1, rfl⟩, fits.2⟩
    · cases h
  · intro h
    obtain ⟨⟨digits, rfl⟩, fits⟩ := h
    rw [if_pos ⟨digits, fits⟩]

/-! ## Writing numbers -/

/-- A number in so many digits. -/
structure Padded (width : Nat) (cs : List Char) (n : Nat) : Prop where
  digits : IsDigits cs
  length : cs.length = width
  value : value cs = n

/-- A number with no zeros before it. -/
structure Plain (cs : List Char) (n : Nat) : Prop where
  digits : IsDigits cs
  first : n ≠ 0 → cs.head? ≠ some '0'
  value : value cs = n

theorem value_toDigits (n : Nat) : value (Nat.toDigits 10 n) = n := Nat.ofDigitChars_ten_toDigits

theorem isDigits_toDigits (n : Nat) : IsDigits (Nat.toDigits 10 n) :=
  ⟨Nat.toDigits_ne_nil, fun _ there => Nat.isDigit_of_mem_toDigits (by decide) (by decide) there⟩

theorem head?_toDigits {n : Nat} (positive : n ≠ 0) : (Nat.toDigits 10 n).head? ≠ some '0' := by
  induction n using Nat.strongRecOn with
  | ind n ih =>
    by_cases small : n < 10
    · rw [Nat.toDigits_of_lt_base small]
      interval_cases n <;> first | exact absurd rfl positive | decide
    · have shorter := ih (n / 10) (by omega) (by omega)
      rw [Nat.toDigits_of_base_le (by decide) (by omega), List.head?_append_of_ne_nil _ Nat.toDigits_ne_nil]
      exact shorter

theorem plain_toDigits (n : Nat) : Plain (Nat.toDigits 10 n) n :=
  ⟨isDigits_toDigits n, head?_toDigits, value_toDigits n⟩

end Decimal
