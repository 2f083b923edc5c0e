import Mathlib.Data.Int.Bitwise

/-! # Checked C integers

Values are mathematical integers; the operations of a type of `bits` bits check what
C leaves undefined or would silently change.  Signed arithmetic faults when the result
does not fit, a conversion faults when it would not keep the value. -/
set_option autoImplicit false

namespace CInt

inductive Fault
  | overflow
  | division
  | narrowing
  | outOfBounds
deriving DecidableEq

structure Signed (bits : Nat) (x : Int) : Prop where
  low : -2 ^ (bits - 1) ≤ x
  high : x < 2 ^ (bits - 1)

structure Unsigned (bits : Nat) (x : Int) : Prop where
  low : 0 ≤ x
  high : x < 2 ^ bits

instance (bits : Nat) (x : Int) : Decidable (Signed bits x) :=
  decidable_of_iff (-2 ^ (bits - 1) ≤ x ∧ x < 2 ^ (bits - 1)) ⟨fun h => ⟨h.1, h.2⟩, fun h => ⟨h.1, h.2⟩⟩

instance (bits : Nat) (x : Int) : Decidable (Unsigned bits x) :=
  decidable_of_iff (0 ≤ x ∧ x < 2 ^ bits) ⟨fun h => ⟨h.1, h.2⟩, fun h => ⟨h.1, h.2⟩⟩

def result (bits : Nat) (x : Int) : Except Fault Int :=
  if Signed bits x then .ok x else .error .overflow

def add (bits : Nat) (x y : Int) : Except Fault Int := result bits (x + y)
def sub (bits : Nat) (x y : Int) : Except Fault Int := result bits (x - y)
def mul (bits : Nat) (x y : Int) : Except Fault Int := result bits (x * y)

/-- Division truncates towards zero, and the remainder has the sign of the dividend. -/
def div (bits : Nat) (x y : Int) : Except Fault Int :=
  if y = 0 then .error .division else result bits (x.tdiv y)

def rem (bits : Nat) (x y : Int) : Except Fault Int :=
  if y = 0 then .error .division else result bits (x.tmod y)

/-- A negative operand must not be shifted, and no bit may be shifted out. -/
def shl (bits : Nat) (x : Int) (n : Nat) : Except Fault Int :=
  if x < 0 then .error .overflow else result bits (x * 2 ^ n)

def and (x y : Int) : Int := Int.land x y
def or (x y : Int) : Int := Int.lor x y

def toSigned (bits : Nat) (x : Int) : Except Fault Int :=
  if Signed bits x then .ok x else .error .narrowing

def toUnsigned (bits : Nat) (x : Int) : Except Fault Int :=
  if Unsigned bits x then .ok x else .error .narrowing

@[simp] theorem ok_bind {α β : Type} (a : α) (f : α → Except Fault β) :
    (Except.ok a >>= f) = f a := rfl

section Ok
variable {bits : Nat} {x y : Int}

theorem add_eq_ok (h : Signed bits (x + y)) : add bits x y = .ok (x + y) := if_pos h
theorem sub_eq_ok (h : Signed bits (x - y)) : sub bits x y = .ok (x - y) := if_pos h
theorem mul_eq_ok (h : Signed bits (x * y)) : mul bits x y = .ok (x * y) := if_pos h

theorem div_eq_ok (hy : y ≠ 0) (h : Signed bits (x.tdiv y)) : div bits x y = .ok (x.tdiv y) := by
  rw [div, if_neg hy, result, if_pos h]

theorem rem_eq_ok (hy : y ≠ 0) (h : Signed bits (x.tmod y)) : rem bits x y = .ok (x.tmod y) := by
  rw [rem, if_neg hy, result, if_pos h]

theorem shl_eq_ok {n : Nat} (hx : 0 ≤ x) (h : Signed bits (x * 2 ^ n)) :
    shl bits x n = .ok (x * 2 ^ n) := by
  rw [shl, if_neg (by omega), result, if_pos h]

theorem toSigned_eq_ok (h : Signed bits x) : toSigned bits x = .ok x := if_pos h
theorem toUnsigned_eq_ok (h : Unsigned bits x) : toUnsigned bits x = .ok x := if_pos h

theorem or_shifted {n : Nat} (hx : 0 ≤ x) (hy : 0 ≤ y) (hlt : y < 2 ^ n) :
    or (x * 2 ^ n) y = x * 2 ^ n + y := by
  obtain ⟨a, rfl⟩ := Int.eq_ofNat_of_zero_le hx
  obtain ⟨b, rfl⟩ := Int.eq_ofNat_of_zero_le hy
  have hb : b < 2 ^ n := by exact_mod_cast hlt
  have hor : (a * 2 ^ n) ||| b = a * 2 ^ n + b := by
    rw [← Nat.shiftLeft_eq, Nat.shiftLeft_add_eq_or_of_lt hb]
  exact_mod_cast congrArg Int.ofNat hor

theorem and_mask {n : Nat} (hx : 0 ≤ x) (hlt : x < 2 ^ n) : and x (2 ^ n - 1) = x := by
  obtain ⟨a, rfl⟩ := Int.eq_ofNat_of_zero_le hx
  have ha : a < 2 ^ n := by exact_mod_cast hlt
  have hand : a &&& (2 ^ n - 1) = a := by
    rw [Nat.and_two_pow_sub_one_eq_mod, Nat.mod_eq_of_lt ha]
  have hmask : (2 : Int) ^ n - 1 = ((2 ^ n - 1 : Nat) : Int) := by
    rw [Nat.cast_sub Nat.one_le_two_pow]
    simp
  rw [and, hmask]
  exact_mod_cast congrArg Int.ofNat hand

end Ok
end CInt
