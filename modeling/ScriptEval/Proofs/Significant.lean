import Mathlib.Algebra.Order.Field.Power
import Mathlib.Algebra.Order.Field.Rat
import Mathlib.Data.Nat.Digits.Lemmas
import Mathlib.Tactic.Linarith
import ScriptEval.Decimal

/-! The value of a decimal and its significant digits. Both stay when zeros at the end are moved into
the exponent, and how many digits are significant depends on the value alone. -/
namespace ScriptEval.Decimal

def value (d : Decimal) : ℚ := d.digits * 10 ^ d.exponent

/-- How many digits are left without the zeros before the first other digit and after the last. -/
def significant (d : Decimal) : Nat := ((Nat.digits 10 d.digits).dropWhile (· = 0)).length

theorem value_trim (d : Decimal) : d.trim.value = d.value := by
  fun_induction trim d with
  | case1 d h ih =>
    have hd : (d.digits : ℚ) = (d.digits / 10 : Nat) * 10 := by
      exact_mod_cast (Nat.div_mul_cancel (Nat.dvd_of_mod_eq_zero h.2)).symm
    rw [ih,value,value,hd,zpow_add_one₀ (by norm_num)]
    ring
  | case2 d h => rfl

theorem trim_digits (d : Decimal) : d.trim.digits = 0 ∨ d.trim.digits % 10 ≠ 0 := by
  fun_induction trim d with
  | case1 d h ih => exact ih
  | case2 d h => omega

theorem significant_trim (d : Decimal) : d.trim.significant = d.significant := by
  fun_induction trim d with
  | case1 d h ih =>
    have hd := Nat.digits_def' (b := 10) (by norm_num) h.1
    rw [ih,significant,significant,hd,h.2]
    simp
  | case2 d h => rfl

theorem significant_of_digits {d : Decimal} (h : d.digits = 0 ∨ d.digits % 10 ≠ 0) :
    d.significant = (Nat.digits 10 d.digits).length := by
  unfold significant
  rcases h with h | h
  · simp [h]
  · have hpos : 0 < d.digits := Nat.pos_of_ne_zero fun h0 => h (by rw [h0])
    rw [Nat.digits_def' (by norm_num) hpos]
    simp [h]

theorem eq_mul_of_value_eq {m n : Nat} {a k : Int} (h : (m : ℚ) * 10 ^ a = n * 10 ^ k)
    (hk : k ≤ a) : n = m * 10 ^ (a - k).toNat := by
  have ha : (10 : ℚ) ^ a = 10 ^ k * 10 ^ (a - k).toNat := by
    rw [← zpow_natCast,← zpow_add₀ (by norm_num)]
    congr 1
    omega
  have hpos : (0 : ℚ) < 10 ^ k := zpow_pos (by norm_num) k
  have hn : (n : ℚ) = m * 10 ^ (a - k).toNat := by
    refine mul_right_cancel₀ (ne_of_gt hpos) ?_
    rw [← h,ha]
    ring
  exact_mod_cast hn

theorem exponent_le_of_value_eq {d e : Decimal} (he : e.digits % 10 ≠ 0) (h : d.value = e.value) :
    d.exponent ≤ e.exponent := by
  refine Int.not_lt.mp fun hlt => he (Nat.mod_eq_zero_of_dvd ?_)
  rw [eq_mul_of_value_eq h (le_of_lt hlt)]
  exact Dvd.dvd.mul_left (dvd_pow_self 10 (by omega)) _

/-- Without zeros at the end there is one decimal of a value. -/
theorem eq_of_value_eq {d e : Decimal} (hd : d.digits % 10 ≠ 0) (he : e.digits % 10 ≠ 0)
    (h : d.value = e.value) : d = e := by
  have hexp : d.exponent = e.exponent :=
    Int.le_antisymm (exponent_le_of_value_eq he h) (exponent_le_of_value_eq hd h.symm)
  have hdig := eq_mul_of_value_eq h (le_of_eq hexp.symm)
  rw [hexp,Int.sub_self,Int.toNat_zero,Nat.pow_zero,Nat.mul_one] at hdig
  cases d
  cases e
  simp_all

/-- At most `n` digits are significant when the value is a number of `n` digits on some grid. -/
theorem significant_le_iff (d : Decimal) (n : Nat) :
    d.significant ≤ n ↔ ∃ (m : Nat) (k : Int), m < 10 ^ n ∧ d.value = m * 10 ^ k := by
  rw [← significant_trim,← value_trim,significant_of_digits d.trim_digits,
    Nat.digits_length_le_iff (by norm_num)]
  constructor
  · intro h
    exact ⟨d.trim.digits,d.trim.exponent,h,rfl⟩
  · rintro ⟨m,k,hm,h⟩
    have hpos : 0 < 10 ^ n := Nat.pow_pos (by norm_num)
    by_cases hk : k ≤ d.trim.exponent
    · have he := eq_mul_of_value_eq h hk
      have hone : 0 < 10 ^ (d.trim.exponent - k).toNat := Nat.pow_pos (by norm_num)
      calc d.trim.digits ≤ d.trim.digits * 10 ^ (d.trim.exponent - k).toNat :=
            Nat.le_mul_of_pos_right _ hone
        _ = m := he.symm
        _ < 10 ^ n := hm
    · have hk : d.trim.exponent < k := lt_of_not_ge hk
      have he := eq_mul_of_value_eq h.symm (le_of_lt hk)
      have hdvd : 10 ∣ d.trim.digits := by
        rw [he]
        exact Dvd.dvd.mul_left (dvd_pow_self 10 (by omega)) m
      rcases d.trim_digits with h0 | h0
      · rwa [h0]
      · exact absurd (Nat.mod_eq_zero_of_dvd hdvd) h0

theorem significant_congr {d e : Decimal} (h : d.value = e.value) : d.significant = e.significant :=
  Nat.le_antisymm
    ((significant_le_iff d _).mpr (h ▸ (significant_le_iff e _).mp le_rfl))
    ((significant_le_iff e _).mpr (h ▸ (significant_le_iff d _).mp le_rfl))

theorem significant_pos {d : Decimal} (h : 0 < d.value) : 0 < d.significant := by
  refine Nat.pos_of_ne_zero fun h0 => ?_
  obtain ⟨m,k,hm,hv⟩ := (significant_le_iff d 0).mp (Nat.le_of_eq h0)
  obtain rfl : m = 0 := by simpa using hm
  rw [hv] at h
  simp at h

end ScriptEval.Decimal
