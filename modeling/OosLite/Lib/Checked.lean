import Mathlib.Algebra.Group.Int.Defs
import OosLite.Lib.Bytes

/-!
# Computations that may panic

Indexing, slicing and arithmetic on 64-bit sizes as checked operations: out of bounds or range they
panic. A computation ends with a value or an error, or not at all.
-/

/-- A computation that gives a value, fails, or panics. -/
abbrev Checked (ε α : Type) := ExceptT ε Option α

namespace Checked

variable {ε α : Type}

/-- It ends with this result. -/
def ends (r : Except ε α) : Checked ε α := ExceptT.mk (some r)

def panic : Checked ε α := ExceptT.mk none

/-- `a + b`. -/
def add (a b : Nat) : Checked ε Nat := if a + b < 2 ^ 64 then pure (a + b) else panic

/-- `a * b`. -/
def mul (a b : Nat) : Checked ε Nat := if a * b < 2 ^ 64 then pure (a * b) else panic

/-- `a - b`. -/
def sub (a b : Nat) : Checked ε Nat := if b ≤ a then pure (a - b) else panic

/-- `a + b` in 32 bits. -/
def addU32 (a b : Nat) : Checked ε Nat := if a + b < 2 ^ 32 then pure (a + b) else panic

/-- `a * b` in 32 bits. -/
def mulU32 (a b : Nat) : Checked ε Nat := if a * b < 2 ^ 32 then pure (a * b) else panic

/-- `a - b` in 32 bits. -/
def subU32 (a b : Nat) : Checked ε Nat := if b ≤ a then pure (a - b) else panic

/-- The result of a signed operation in 64 bits. -/
def i64 (a : Int) : Checked ε Int := if -2 ^ 63 ≤ a ∧ a < 2 ^ 63 then pure a else panic

/-- `as i64` of an unsigned number. -/
def asI64 (a : Nat) : Int := (a : Int).bmod (2 ^ 64)

/-- `as u32` of a signed number. -/
def asU32 (a : Int) : Nat := (a % 2 ^ 32).toNat

/-- `table[i]`. -/
def index {β : Type} (table : List β) (i : Nat) : Checked ε β :=
  match table[i]? with
  | some entry => pure entry
  | none => panic

/-- `bs[start..stop]`. -/
def slice (bs : Bytes) (start stop : Nat) : Checked ε Bytes :=
  if start ≤ stop ∧ stop ≤ bs.length then pure (Bytes.slice bs start (stop - start)) else panic

/-- The conversion of a slice to an array, or a copy into one. -/
def array (n : Nat) (bs : Bytes) : Checked ε Bytes :=
  if bs.length = n then pure bs else panic

/-- `bs[start..start + n]` as an array. -/
def field (bs : Bytes) (start n : Nat) : Checked ε Bytes := do
  array n (← slice bs start (← add start n))

/-- `Vec::with_capacity`, for elements of this size. -/
def withCapacity (count size : Nat) : Checked ε Unit :=
  if count * size < 2 ^ 63 then pure () else panic

@[simp] theorem ends_bind {β : Type} (a : α) (f : α → Checked ε β) :
    (ends (.ok a) >>= f : Checked ε β) = f a := rfl

theorem add_eq {a b : Nat} (h : a + b < 2 ^ 64) : (add a b : Checked ε Nat) = pure (a + b) :=
  if_pos h

theorem mul_eq {a b : Nat} (h : a * b < 2 ^ 64) : (mul a b : Checked ε Nat) = pure (a * b) :=
  if_pos h

theorem sub_eq {a b : Nat} (h : b ≤ a) : (sub a b : Checked ε Nat) = pure (a - b) := if_pos h

theorem addU32_eq {a b : Nat} (h : a + b < 2 ^ 32) :
    (addU32 a b : Checked ε Nat) = pure (a + b) := if_pos h

theorem mulU32_eq {a b : Nat} (h : a * b < 2 ^ 32) :
    (mulU32 a b : Checked ε Nat) = pure (a * b) := if_pos h

theorem subU32_eq {a b : Nat} (h : b ≤ a) : (subU32 a b : Checked ε Nat) = pure (a - b) := if_pos h

theorem i64_eq {a : Int} (h : -2 ^ 63 ≤ a ∧ a < 2 ^ 63) : (i64 a : Checked ε Int) = pure a :=
  if_pos h

theorem asI64_eq {a : Nat} (h : a < 2 ^ 63) : asI64 a = a := by
  unfold asI64
  rw [Int.bmod_eq_of_le] <;> omega

theorem asU32_eq {a : Nat} (h : a < 2 ^ 32) : asU32 a = a := by
  unfold asU32
  omega

theorem index_eq {β : Type} {table : List β} {i : Nat} {entry : β} (h : table[i]? = some entry) :
    (index table i : Checked ε β) = pure entry := by
  unfold index
  rw [h]

theorem slice_eq {bs : Bytes} {start stop : Nat} (le : start ≤ stop) (within : stop ≤ bs.length) :
    (slice bs start stop : Checked ε Bytes) = pure (Bytes.slice bs start (stop - start)) :=
  if_pos ⟨le, within⟩

theorem array_eq {n : Nat} {bs : Bytes} (h : bs.length = n) :
    (array n bs : Checked ε Bytes) = pure bs := if_pos h

theorem withCapacity_eq {count size : Nat} (h : count * size < 2 ^ 63) :
    (withCapacity count size : Checked ε Unit) = pure () := if_pos h

/-- A field within the bounds of a slice; no slice is longer than `isize::MAX`. -/
theorem field_eq {bs : Bytes} {start n : Nat} (within : start + n ≤ bs.length)
    (size : bs.length < 2 ^ 63) :
    (field bs start n : Checked ε Bytes) = pure (Bytes.slice bs start n) := by
  have len : (Bytes.slice bs start n).length = n := Bytes.length_slice within
  rw [field, add_eq (by omega), pure_bind, slice_eq (by omega) within, pure_bind, Nat.add_sub_cancel_left,
    array_eq len]

end Checked
