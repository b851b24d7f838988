import Mathlib.Data.UInt

/-!
# Decimal arguments

`str2long` and `power10` on the AVR: `char` is a signed byte and `long` is 32
bits wide, with two's-complement wrap-around at every addition and product.
-/

namespace SmartDoor

/-- A string of bytes, without its terminating NUL. -/
abbrev Bytes := List UInt8

/-- The value of a 32-bit `long` after wrap-around. -/
def wrap32 (x : Int) : Int := x.bmod (2 ^ 32)

/-- A `char` promoted to `int`: bytes from 128 on are negative. -/
def charValue (c : UInt8) : Int := (c.toNat : Int).bmod 256

/-- `power10(n)` -/
def power10 : Nat → Int
  | 0 => 1
  | n + 1 => wrap32 (power10 n * 10)

/-- The loop of `str2long`, over the characters from right to left, with the
running value and the exponent `j`. -/
def str2longLoop (value : Int) (j : Nat) : Bytes → Int
  | [] => value
  | c :: cs =>
    str2longLoop (wrap32 (value + wrap32 ((charValue c - charValue 48) * power10 j))) (j + 1) cs

/-- `str2long(str)` -/
def str2long (str : Bytes) : Int := str2longLoop 0 0 str.reverse

theorem wrap32_lt (x : Int) : wrap32 x < 2 ^ 31 := by
  have h := Int.bmod_lt (x := x) (m := 2 ^ 32) (by decide)
  unfold wrap32
  omega

/-- Whatever the string, the result is a 32-bit value. -/
theorem str2long_lt (str : Bytes) : str2long str < 2 ^ 31 := by
  suffices h : ∀ (cs : Bytes) (value : Int) (j : Nat), value < 2 ^ 31 →
      str2longLoop value j cs < 2 ^ 31 from h _ 0 0 (by decide)
  intro cs
  induction cs with
  | nil => exact fun value j hv => hv
  | cons c cs ih => exact fun value j _ => ih _ _ (wrap32_lt _)

end SmartDoor
