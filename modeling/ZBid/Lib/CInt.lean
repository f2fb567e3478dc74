import Mathlib.Algebra.Order.Ring.Int

/-!
# The C type int

A 32-bit signed int is an integer between `intMin` and `intMax`. `wrap32` is the value an int
holds after a sum or a difference has been truncated to 32 bits; `incr` is an increment whose
overflow is undefined.
-/
namespace CInt

def intMin : Int := -2147483648
def intMax : Int := 2147483647

def InInt (n : Int) : Prop := intMin ≤ n ∧ n ≤ intMax

instance (n : Int) : Decidable (InInt n) := inferInstanceAs (Decidable (_ ∧ _))

def wrap32 (n : Int) : Int := (n + 2147483648) % 4294967296 - 2147483648

theorem wrap32_inInt (n : Int) : InInt (wrap32 n) := by
  simp only [InInt, wrap32, intMin, intMax]
  omega

theorem wrap32_of_inInt {n : Int} (h : InInt n) : wrap32 n = n := by
  simp only [InInt, intMin, intMax] at h
  simp only [wrap32]
  omega

/-- `n++`; a signed overflow is undefined. -/
def incr (n : Int) : Option Int := if n < intMax then some (n + 1) else none

theorem incr_eq_some {n m : Int} (h : incr n = some m) : m = n + 1 ∧ n < intMax := by
  simp only [incr] at h
  split at h
  · simp_all
  · cases h

@[simp] theorem incr_intMax : incr intMax = none := if_neg (Int.lt_irrefl intMax)

theorem incr_of_lt {n : Int} (h : n < intMax) : incr n = some (n + 1) := by simp [incr, h]

/-- `n--`. -/
def decr (n : Int) : Option Int := if intMin < n then some (n - 1) else none

theorem decr_of_lt {n : Int} (h : intMin < n) : decr n = some (n - 1) := by simp [decr, h]

end CInt
