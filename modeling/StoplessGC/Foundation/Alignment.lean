import Mathlib.Data.Nat.Bitwise

/-!
# Rounding up to a power of two

Rounding an offset up to a multiple, as arithmetic and as the usual bit trick
on machine words: add the low mask, then clear the low bits.
-/

namespace Alignment

/-- The least multiple of `unit` at or above `x`. -/
def up (unit x : Nat) : Nat := (x + (unit - 1)) / unit * unit

theorem dvd_up (unit x : Nat) : unit ∣ up unit x := Nat.dvd_mul_left _ _

theorem up_of_dvd {unit x : Nat} (positive : 0 < unit) (multiple : unit ∣ x) :
    up unit x = x := by
  obtain ⟨q, rfl⟩ := multiple
  rw [up, Nat.mul_add_div positive, Nat.div_eq_of_lt (by omega), Nat.add_zero,
    Nat.mul_comm]

/-- Rounding to a power of two keeps divisibility by another one. -/
theorem pow_dvd_up {e k x : Nat} (multiple : 2 ^ k ∣ x) :
    2 ^ k ∣ up (2 ^ e) x := by
  rcases Nat.le_total k e with below | above
  · exact (Nat.pow_dvd_pow 2 below).trans (dvd_up _ _)
  · rw [up_of_dvd (Nat.two_pow_pos e) ((Nat.pow_dvd_pow 2 above).trans multiple)]
    exact multiple

theorem le_up {unit : Nat} (positive : 0 < unit) (x : Nat) : x ≤ up unit x := by
  unfold up
  have split := Nat.div_add_mod (x + (unit - 1)) unit
  have small := Nat.mod_lt (x + (unit - 1)) positive
  rw [Nat.mul_comm] at split
  omega

theorem up_le_of_dvd {unit x y : Nat} (positive : 0 < unit) (below : x ≤ y)
    (multiple : unit ∣ y) : up unit x ≤ y := by
  rw [← up_of_dvd positive multiple]
  exact Nat.mul_le_mul_right _
    (Nat.div_le_div_right (Nat.add_le_add_right below _))

theorem up_mono (unit : Nat) {x y : Nat} (below : x ≤ y) :
    up unit x ≤ up unit y :=
  Nat.mul_le_mul_right _ (Nat.div_le_div_right (Nat.add_le_add_right below _))

theorem up_lt {unit : Nat} (positive : 0 < unit) (x : Nat) :
    up unit x < x + unit := by
  unfold up
  have split := Nat.div_add_mod (x + (unit - 1)) unit
  rw [Nat.mul_comm] at split
  omega

/-- Clearing the low `e` bits of a `w`-bit word rounds down. -/
theorem and_high_mask {w e x : Nat} (narrow : e ≤ w) (word : x < 2 ^ w) :
    x &&& (2 ^ w - 2 ^ e) = x / 2 ^ e * 2 ^ e := by
  have high : 2 ^ w - 2 ^ e = (2 ^ (w - e) - 1) <<< e := by
    rw [Nat.shiftLeft_eq, Nat.sub_mul, ← Nat.pow_add, Nat.sub_add_cancel narrow,
      Nat.one_mul]
  have low : x / 2 ^ e * 2 ^ e = (x >>> e) <<< e := by
    rw [Nat.shiftLeft_eq, Nat.shiftRight_eq_div_pow]
  rw [high, low]
  apply Nat.eq_of_testBit_eq
  intro i
  rw [Nat.testBit_and, Nat.testBit_shiftLeft, Nat.testBit_shiftLeft,
    Nat.testBit_two_pow_sub_one, Nat.testBit_shiftRight]
  by_cases below : i < e
  · simp [Nat.not_le.mpr below]
  · have above : e ≤ i := Nat.le_of_not_lt below
    rw [Nat.add_sub_cancel' above]
    by_cases inside : i < w
    · have : i - e < w - e := by omega
      simp [above, this]
    · have outside : x.testBit i = false :=
        Nat.testBit_lt_two_pow (Nat.lt_of_lt_of_le word
          (Nat.pow_le_pow_right (by decide) (Nat.le_of_not_lt inside)))
      simp [outside]

/-- A rounded offset that is itself a word was computed without wrapping. -/
theorem add_mask_lt {w e x : Nat} (narrow : e ≤ w)
    (fits : up (2 ^ e) x < 2 ^ w) : x + (2 ^ e - 1) < 2 ^ w := by
  have positive : 0 < 2 ^ e := Nat.two_pow_pos e
  obtain ⟨a, multiple⟩ := dvd_up (2 ^ e) x
  have words : 2 ^ w = 2 ^ e * 2 ^ (w - e) := by
    rw [← Nat.pow_add, Nat.add_sub_cancel' narrow]
  rw [multiple, words] at fits
  have strict : a + 1 ≤ 2 ^ (w - e) := Nat.lt_of_mul_lt_mul_left fits
  have room : 2 ^ e * (a + 1) ≤ 2 ^ e * 2 ^ (w - e) :=
    Nat.mul_le_mul_left _ strict
  have above := le_up positive x
  rw [multiple] at above
  rw [words]
  rw [Nat.mul_succ] at room
  omega

end Alignment
