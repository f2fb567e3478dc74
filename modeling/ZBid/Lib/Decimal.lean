import ZBid.Lib.Fields
import Mathlib.Data.Nat.Log

/-!
# Printed numbers

How many characters `%d` takes for an integer, which they are, and that the integer can be read
off them: it is the only one printed so, and `atoi` returns it.
-/
namespace CString

open CInt

def decimalWidth (n : Int) : Nat := (if n < 0 then 1 else 0) + (Nat.log 10 n.natAbs + 1)

theorem toDigits_width (n : Nat) : (Nat.toDigits 10 n).length = Nat.log 10 n + 1 := by
  apply Nat.le_antisymm
  · rw [Nat.length_toDigits_le_iff (by decide) (Nat.succ_pos _)]
    exact Nat.lt_pow_succ_log_self (by decide) n
  · cases hlog : Nat.log 10 n with
    | zero => exact Nat.length_toDigits_pos
    | succ k =>
      have hn : n ≠ 0 := by
        rintro rfl
        simp at hlog
      by_contra hlt
      have hle : (Nat.toDigits 10 n).length ≤ k + 1 := by omega
      rw [Nat.length_toDigits_le_iff (by decide) (Nat.succ_pos k)] at hle
      have hpow := Nat.pow_log_le_self 10 hn
      rw [hlog] at hpow
      omega

@[simp] theorem sprintfD_length (n : Int) : (sprintfD n).length = decimalWidth n := by
  simp only [sprintfD, decimalWidth]
  split
  · rw [List.length_cons, toDigits_width]
    omega
  · rw [toDigits_width]
    omega

/-- An int takes at most ten digits and a sign. -/
theorem decimalWidth_le {n : Int} (h : InInt n) : decimalWidth n ≤ 11 := by
  have hlog : Nat.log 10 n.natAbs < 10 := by
    apply Nat.log_lt_of_lt_pow'
    · decide
    · simp only [InInt, intMin, intMax] at h
      omega
  simp only [decimalWidth]
  split <;> omega

/-- Only digits and the sign are printed. -/
theorem not_mem_sprintfD {c : Char} (hdigit : c.isDigit = false) (hsign : c ≠ '-') (n : Int) :
    c ∉ sprintfD n := by
  have hdigits : c ∉ Nat.toDigits 10 n.natAbs := by
    intro hc
    rw [Nat.isDigit_of_mem_toDigits (by decide) (by decide) hc] at hdigit
    cases hdigit
  simp only [sprintfD]
  split
  · simp [hsign, hdigits]
  · exact hdigits

theorem toDigits_injective : Function.Injective (Nat.toDigits 10) := by
  intro m n h
  have hvalue := congrArg (fun ds => Nat.ofDigitChars 10 ds 0) h
  simpa only [Nat.ofDigitChars_ten_toDigits] using hvalue

theorem sign_ne_toDigits {c : Char} (hc : c.isDigit = false) (ds : Text) (n : Nat) :
    c :: ds ≠ Nat.toDigits 10 n := by
  intro h
  have hdigit : c.isDigit = true :=
    Nat.isDigit_of_mem_toDigits (by decide) (by decide) (h ▸ List.mem_cons_self)
  rw [hc] at hdigit
  cases hdigit

/-- `%d` prints different integers differently. -/
theorem sprintfD_injective : Function.Injective sprintfD := by
  intro m n h
  simp only [sprintfD] at h
  split at h <;> split at h
  · have habs := toDigits_injective (List.cons.inj h).2
    omega
  · exact absurd h (sign_ne_toDigits rfl _ _)
  · exact absurd h.symm (sign_ne_toDigits rfl _ _)
  · have habs := toDigits_injective h
    omega

theorem natural?_toDigits (n : Nat) : natural? (Nat.toDigits 10 n) = some n := by
  have hne : Nat.toDigits 10 n ≠ [] := Nat.toDigits_ne_nil
  have hdigits : (Nat.toDigits 10 n).all Char.isDigit = true :=
    List.all_eq_true.mpr fun _ hc => Nat.isDigit_of_mem_toDigits (by decide) (by decide) hc
  have hvalue : digitsValue (Nat.toDigits 10 n) = n :=
    Nat.ofDigitChars_eq_foldl.symm.trans Nat.ofDigitChars_ten_toDigits
  rw [natural?, if_pos ⟨hne, hdigits⟩, hvalue]

/-- What `%d` prints is a numeral of the integer. -/
theorem decimal?_sprintfD (n : Int) : decimal? (sprintfD n) = some n := by
  simp only [sprintfD]
  split
  · simp only [decimal?, natural?_toDigits, Option.map_some, Option.some.injEq]
    omega
  · rw [decimal?]
    · rw [natural?_toDigits, Option.map_some, Option.some.injEq]
      omega
    · exact fun ds h => sign_ne_toDigits (by decide) ds _ h.symm
    · exact fun ds h => sign_ne_toDigits (by decide) ds _ h.symm

/-- `atoi` undoes `%d` on the ints. -/
theorem atoi_sprintfD {n : Int} (h : InInt n) : atoi (sprintfD n) = n :=
  atoi_decimal (decimal?_sprintfD n) h

end CString
