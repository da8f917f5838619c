import ScriptEval.Proofs.Rounding
import ScriptEval.Proofs.Shortest

/-! The points halfway to the neighbours of a double, counted as the search for its shortest decimal
counts. What the search takes to be read back is what is rounded to the double. -/
namespace ScriptEval.Binary

open Double (Parts Around Below)

variable {b : Binary} {n : Nat} {q : ℚ}

theorem scale_pos (b : Binary) : (0 : ℚ) < 10 ^ b.scale := zpow_pos (by norm_num) _

theorem unit_mul (b : Binary) : (b.unit : ℚ) * 10 ^ b.scale = 2 ^ b.exponent := by
  unfold unit scale
  rw [Nat.pow_eq,Nat.pow_eq]
  by_cases he : 0 ≤ b.exponent
  · obtain ⟨k,hk⟩ := Int.eq_ofNat_of_zero_le he
    simp [hk]
  · have he : b.exponent ≤ 0 := le_of_lt (lt_of_not_ge he)
    obtain ⟨k,hk⟩ := Int.eq_ofNat_of_zero_le (Int.neg_nonneg_of_nonpos he)
    have hk : b.exponent = -k := by omega
    have h5 : (5 : ℚ) ^ k ≠ 0 := pow_ne_zero k (by norm_num)
    have h10 : (10 : ℚ) ^ k = 5 ^ k * 2 ^ k := by
      rw [← mul_pow]
      norm_num
    rw [min_eq_left he,hk,zpow_neg,zpow_natCast,h10,mul_inv]
    simp [h5]

theorem count_mul (h : Parts n b) : (b.count : ℚ) * 10 ^ b.scale = Double.value n := by
  rw [count,Nat.cast_mul,mul_assoc,unit_mul,h.mantissa_eq,h.exponent_eq]
  rfl

theorem unit_mul_of_parts (h : Parts n b) : (b.unit : ℚ) * 10 ^ b.scale = Double.ulp n := by
  rw [unit_mul,h.exponent_eq]
  rfl

theorem low_mul (h : Parts n b) (hn : 0 < n) :
    (b.low : ℚ) * 10 ^ b.scale = 2 * (Double.value (n - 1) + Double.value n) := by
  have hc := count_mul h
  have hu := unit_mul_of_parts h
  have hv := Double.value_succ (n - 1)
  rw [Nat.sub_add_cancel hn] at hv
  have hle := b.unit_le_count
  unfold low
  split_ifs with hb
  · have hp := Double.ulp_pred_of_isNarrow (h.narrow_iff.mp hb)
    rw [Nat.cast_sub (by omega)]
    push_cast
    linarith
  · have hp := Double.ulp_pred_of_not_isNarrow hn fun hi => hb (h.narrow_iff.mpr hi)
    rw [Nat.cast_sub (by omega)]
    push_cast
    linarith

theorem high_mul (h : Parts n b) :
    (b.high : ℚ) * 10 ^ b.scale = 2 * (Double.value n + Double.value (n + 1)) := by
  have hc := count_mul h
  have hu := unit_mul_of_parts h
  rw [Double.value_succ,high]
  push_cast
  linarith

theorem reads_iff_around (h : Parts n b) (hn : 0 < n) :
    b.Reads q ↔ Around n (q * 10 ^ b.scale) := by
  have hs := b.scale_pos
  have hl := low_mul h hn
  have hh := high_mul h
  have hpar : b.mantissa % 2 = n % 2 := by rw [h.mantissa_eq,Double.significand_mod_two]
  have hlt : (b.low : ℚ) < 4 * q ↔
      Double.value (n - 1) + Double.value n < 2 * (q * 10 ^ b.scale) := by
    rw [← mul_lt_mul_iff_of_pos_right hs,hl]
    constructor <;> intro _ <;> linarith
  have hgt : 4 * q < b.high ↔
      2 * (q * 10 ^ b.scale) < Double.value n + Double.value (n + 1) := by
    rw [← mul_lt_mul_iff_of_pos_right hs,hh]
    constructor <;> intro _ <;> linarith
  have hle : (b.low : ℚ) ≤ 4 * q ↔
      Double.value (n - 1) + Double.value n ≤ 2 * (q * 10 ^ b.scale) := by
    rw [← mul_le_mul_iff_of_pos_right hs,hl]
    constructor <;> intro _ <;> linarith
  have hge : 4 * q ≤ b.high ↔
      2 * (q * 10 ^ b.scale) ≤ Double.value n + Double.value (n + 1) := by
    rw [← mul_le_mul_iff_of_pos_right hs,hh]
    constructor <;> intro _ <;> linarith
  unfold Reads Around Below
  rw [hpar]
  split_ifs with he
  · rw [hle,hge,le_iff_lt_or_eq,le_iff_lt_or_eq]
    simp [he,hn]
  · rw [hlt,hgt]
    simp [he,hn]

/-- What the search takes to be read back is rounded to the double, and nothing else is. -/
theorem reads_iff_rounds (h : Parts n b) (hn : 0 < n) (hi : n < Double.infinite) (d : Decimal) :
    b.Reads (b.counts d) ↔ Double.Rounds d.value n := by
  rw [reads_iff_around h hn,counts_mul,Double.rounds_iff_around hi]

theorem distance_mul (h : Parts n b) (d : Decimal) :
    b.distance (b.counts d) * 10 ^ b.scale = |d.value - Double.value n| := by
  rw [distance,← count_mul h,← counts_mul b d,← sub_mul,abs_mul,abs_of_pos b.scale_pos]

/-- The shortest decimal of a double is rounded to it. Every other decimal that is rounded to it has
at least as many digits, and with as many digits it is no nearer. -/
theorem rounds_shortest (h : Parts n b) (hn : 0 < n) (hi : n < Double.infinite) :
    Double.Rounds b.shortest.value n ∧ ∀ e : Decimal, Double.Rounds e.value n →
      b.shortest.significant ≤ e.significant ∧ (e.significant = b.shortest.significant →
        |b.shortest.value - Double.value n| ≤ |e.value - Double.value n|) := by
  obtain ⟨hr,ho⟩ := b.shortest_optimal
  refine ⟨(reads_iff_rounds h hn hi _).mp hr,fun e he => ?_⟩
  obtain ⟨hs,hd⟩ := ho e ((reads_iff_rounds h hn hi e).mpr he)
  refine ⟨hs,fun heq => ?_⟩
  rw [← distance_mul h,← distance_mul h]
  exact mul_le_mul_of_nonneg_right (hd heq) (le_of_lt b.scale_pos)

end ScriptEval.Binary
