import Mathlib.Data.Nat.Bitwise
import Mathlib.Tactic.Positivity

/-!
# Fields of machine words

Words put together by shifting operands and joining them with bitwise or, and
the fields read back.  An operand that is too wide for its place shows up in
the next field, so nothing is assumed of the operands until it is needed.
-/

namespace BitFields

/-- The `width` bits of `w` from bit `lo` up. -/
def field (lo width w : Nat) : Nat := w / 2 ^ lo % 2 ^ width

theorem field_or (lo width v w : Nat) :
    field lo width (v ||| w) = field lo width v ||| field lo width w := by
  rw [field, Nat.or_div_two_pow, Nat.or_mod_two_pow, field, field]

theorem field_shiftLeft_above {lo width k : Nat} (beyond : lo + width ≤ k)
    (w : Nat) : field lo width (w <<< k) = 0 := by
  obtain ⟨j, rfl⟩ := Nat.exists_eq_add_of_le beyond
  have split : w * 2 ^ (lo + width + j) =
      2 ^ lo * (2 ^ width * (w * 2 ^ j)) := by
    rw [Nat.pow_add, Nat.pow_add]
    ac_rfl
  rw [field, Nat.shiftLeft_eq, split, Nat.mul_div_cancel_left _ (Nat.two_pow_pos lo),
    Nat.mul_mod_right]

theorem field_shiftLeft {lo k : Nat} (within : k ≤ lo) (width w : Nat) :
    field lo width (w <<< k) = field (lo - k) width w := by
  obtain ⟨j, rfl⟩ := Nat.exists_eq_add_of_le within
  rw [field, field, Nat.shiftLeft_eq, Nat.pow_add, ← Nat.div_div_eq_div_mul,
    Nat.mul_div_cancel _ (Nat.two_pow_pos k), Nat.add_sub_cancel_left]

theorem field_of_lt {lo w : Nat} (small : w < 2 ^ lo) (width : Nat) :
    field lo width w = 0 := by
  rw [field, Nat.div_eq_of_lt small, Nat.zero_mod]

theorem field_zero (width w : Nat) : field 0 width w = w % 2 ^ width := by
  rw [field, Nat.pow_zero, Nat.div_one]

theorem field_zero_of_lt {width w : Nat} (small : w < 2 ^ width) :
    field 0 width w = w := by
  rw [field_zero, Nat.mod_eq_of_lt small]

/-- An operand that fits its place is read back. -/
theorem field_shiftLeft_self {k width w : Nat} (fits : w < 2 ^ width) :
    field k width (w <<< k) = w := by
  rw [field_shiftLeft (Nat.le_refl k), Nat.sub_self, field_zero_of_lt fits]

/-- An operand that fits its place stays out of the fields above. -/
theorem field_shiftLeft_below {lo k m w : Nat} (fits : w < 2 ^ m)
    (below : k + m ≤ lo) (width : Nat) : field lo width (w <<< k) = 0 := by
  rw [field_shiftLeft (by omega)]
  apply field_of_lt
  calc w < 2 ^ m := fits
    _ ≤ 2 ^ (lo - k) := Nat.pow_le_pow_right (by decide) (by omega)

theorem field_narrow {width wide : Nat} (narrow : width ≤ wide) (lo w : Nat) :
    field lo width w = field lo wide w % 2 ^ width := by
  rw [field, field, Nat.mod_mod_of_dvd _ (Nat.pow_dvd_pow 2 narrow)]

/-- A two's complement field. -/
def signed (width f : Nat) : Int :=
  if f < 2 ^ (width - 1) then f else (f : Int) - 2 ^ width

theorem two_pow_halves {width : Nat} (positive : 0 < width) :
    (2 : Int) ^ width = 2 * 2 ^ (width - 1) := by
  obtain ⟨k, rfl⟩ := Nat.exists_eq_add_of_lt positive
  rw [Nat.add_sub_cancel, pow_succ, Int.mul_comm]

theorem signed_bounds {width f : Nat} (positive : 0 < width)
    (fits : f < 2 ^ width) :
    -2 ^ (width - 1) ≤ signed width f ∧ signed width f < 2 ^ (width - 1) := by
  have whole := two_pow_halves positive
  have half : ((2 ^ (width - 1) : Nat) : Int) = 2 ^ (width - 1) := by simp
  have word : ((2 ^ width : Nat) : Int) = 2 ^ width := by simp
  unfold signed
  split <;> omega

/-- An integer cut to a field that can hold it reads back the same. -/
theorem signed_toNat_emod {width : Nat} (positive : 0 < width) {i : Int}
    (lower : -2 ^ (width - 1) ≤ i) (upper : i < 2 ^ (width - 1)) :
    signed width (i % 2 ^ width).toNat = i := by
  have whole := two_pow_halves positive
  have half : ((2 ^ (width - 1) : Nat) : Int) = 2 ^ (width - 1) := by simp
  unfold signed
  rcases Int.lt_or_le i 0 with negative | natural
  · have wrapped : i % 2 ^ width = i + 2 ^ width := by
      rw [← Int.add_emod_right, Int.emod_eq_of_lt (by omega) (by omega)]
    rw [wrapped, if_neg (by omega)]
    omega
  · rw [Int.emod_eq_of_lt natural (by omega), if_pos (by omega)]
    omega

/-- Cutting an integer to a signed field keeps it exactly when it fits. -/
theorem signed_toNat_emod_eq_iff {width : Nat} (positive : 0 < width)
    (i : Int) :
    signed width (i % 2 ^ width).toNat = i ↔
      -2 ^ (width - 1) ≤ i ∧ i < 2 ^ (width - 1) := by
  constructor
  · intro same
    have natural := Int.emod_nonneg i (b := 2 ^ width) (by positivity)
    have bound := Int.emod_lt_of_pos i (b := 2 ^ width) (by positivity)
    have word : ((2 ^ width : Nat) : Int) = 2 ^ width := by simp
    have fits : (i % 2 ^ width).toNat < 2 ^ width := by omega
    rw [← same]
    exact signed_bounds positive fits
  · rintro ⟨lower, upper⟩
    exact signed_toNat_emod positive lower upper

end BitFields
