import ScriptEval.Proofs.Layouts

/-! Where the shortest decimal of a double lies. A power of ten between a double and its shortest decimal
would be read back too, and has one digit. So the decimal lies on the same side of a power of ten as the
double does, and it has places behind the point exactly when the double is no integer. -/
namespace ScriptEval

theorem Decimal.value_lt_pow {d : Decimal} {l : Nat} (he : d.exponent < 0)
    (hd : d.digits < 10 ^ (l + 1)) : d.value < 10 ^ (l : Int) := by
  have hd : (d.digits : ℚ) < 10 ^ (l + 1) := by exact_mod_cast hd
  calc d.value = d.digits * 10 ^ d.exponent := rfl
    _ ≤ d.digits * 10 ^ (-1 : Int) :=
        mul_le_mul_of_nonneg_left (zpow_le_zpow_right₀ (by norm_num) (by omega)) (Nat.cast_nonneg _)
    _ < 10 ^ (l + 1) * 10 ^ (-1 : Int) := mul_lt_mul_of_pos_right hd (zpow_pos (by norm_num) _)
    _ = 10 ^ (l : Int) := by
        rw [zpow_natCast,pow_succ,zpow_neg_one]
        exact mul_inv_cancel_right₀ (by norm_num) _

/-- The leading digit tells between which powers of ten a positive decimal lies. -/
theorem Decimal.pow_le_value_iff {d : Decimal} (h : 0 < d.digits) (k : Int) :
    10 ^ k ≤ d.value ↔ k ≤ d.leading := by
  have hpos : (0 : ℚ) < 10 ^ d.exponent := zpow_pos (by norm_num) _
  have hlo : (10 : ℚ) ^ d.leading ≤ d.value := by
    have hd : (10 : ℚ) ^ log10 d.digits ≤ d.digits := by exact_mod_cast pow_log10_le h
    rw [leading,add_comm,zpow_add₀ (by norm_num),zpow_natCast]
    exact mul_le_mul_of_nonneg_right hd (le_of_lt hpos)
  have hhi : d.value < (10 : ℚ) ^ (d.leading + 1) := by
    have hd : (d.digits : ℚ) < 10 ^ (log10 d.digits + 1) := by exact_mod_cast lt_pow_log10 d.digits
    rw [leading,add_assoc,add_comm,zpow_add₀ (by norm_num),← Nat.cast_succ,zpow_natCast]
    exact mul_lt_mul_of_pos_right hd hpos
  refine ⟨fun hk => ?_,fun hk => le_trans (zpow_le_zpow_right₀ (by norm_num) hk) hlo⟩
  exact Int.lt_add_one_iff.mp ((zpow_lt_zpow_iff_right₀ (by norm_num)).mp (lt_of_le_of_lt hk hhi))

namespace Double

variable {n m : Nat} {p q : ℚ}

theorem around_value (n : Nat) : Around n (value n) := by
  have hs := strictMono_value (Nat.lt_succ_self n)
  refine ⟨fun hn => .inl ?_,.inl (by linarith)⟩
  have hp := strictMono_value (Nat.sub_lt hn Nat.one_pos)
  linarith

theorem rounds_value (hn : n < infinite) : Rounds (value n) n :=
  (rounds_iff_around hn).mpr (around_value n)

/-- Nothing that is rounded to a double is cut off from it. -/
theorem Around.between (h : Around n p) (hq : p ≤ q ∧ q ≤ value n ∨ value n ≤ q ∧ q ≤ p) :
    Around n q := by
  have hv := around_value n
  rcases hq with ⟨hpq,hqv⟩ | ⟨hvq,hqp⟩
  · exact ⟨fun hn => (h.1 hn).trans_le (by linarith),hv.2.le_trans (by linarith)⟩
  · exact ⟨fun hn => (hv.1 hn).trans_le (by linarith),h.2.le_trans (by linarith)⟩

theorem Rounds.between (h : Rounds p n) (hn : n < infinite)
    (hq : p ≤ q ∧ q ≤ value n ∨ value n ≤ q ∧ q ≤ p) : Rounds q n :=
  (rounds_iff_around hn).mpr (((rounds_iff_around hn).mp h).between hq)

variable {d : Decimal} {k : Int}

theorem Shortest.value_pos (h : Shortest d n) (hn : 0 < n) : 0 < d.value := by
  refine lt_of_le_of_ne ?_ fun h0 => ?_
  · exact mul_nonneg (Nat.cast_nonneg _) (zpow_nonneg (by norm_num) _)
  · have hr := h.rounds
    rw [← h0] at hr
    exact absurd (hr.unique rounds_zero) (Nat.ne_of_gt hn)

/-- No power of ten lies strictly between a double and its shortest decimal. -/
theorem Shortest.eq_pow (h : Shortest d n) (hn : 0 < n) (hi : n < infinite)
    (hk : d.value ≤ 10 ^ k ∧ 10 ^ k ≤ value n ∨ value n ≤ 10 ^ k ∧ 10 ^ k ≤ d.value) :
    d.value = 10 ^ k := by
  have he : (Decimal.mk 1 k).value = 10 ^ k := by simp [Decimal.value]
  have hr : Rounds (Decimal.mk 1 k).value n := h.rounds.between hi (he ▸ hk)
  have hone : (Decimal.mk 1 k).significant ≤ 1 :=
    (Decimal.significant_le_iff _ 1).mpr ⟨1,k,by norm_num,rfl⟩
  have hle := h.fewest _ hr
  have hpos := Decimal.significant_pos (h.value_pos hn)
  have hnear := h.nearest _ hr (by omega)
  rw [he] at hnear
  rcases hk with ⟨hd,hv⟩ | ⟨hv,hd⟩
  · rw [abs_of_nonpos (by linarith),abs_of_nonpos (by linarith)] at hnear
    linarith
  · rw [abs_of_nonneg (by linarith),abs_of_nonneg (by linarith)] at hnear
    linarith

theorem Shortest.pow_le (h : Shortest d n) (hn : 0 < n) (hi : n < infinite)
    (hk : 10 ^ k ≤ value n) : 10 ^ k ≤ d.value :=
  le_of_not_gt fun hlt => absurd (h.eq_pow hn hi (.inl ⟨le_of_lt hlt,hk⟩)) (ne_of_lt hlt)

theorem Shortest.pow_le_iff (h : Shortest d n) (hn : 0 < n) (hi : n < infinite)
    (hm : Rounds (10 ^ k) m) (hk : 10 ^ k ≤ value m) : 10 ^ k ≤ d.value ↔ 10 ^ k ≤ value n := by
  refine ⟨fun hd => le_of_not_gt fun hlt => ?_,h.pow_le hn hi⟩
  have hr := h.rounds
  rw [h.eq_pow hn hi (.inr ⟨le_of_lt hlt,hd⟩)] at hr
  rw [hr.unique hm] at hlt
  exact absurd hk (not_le_of_gt hlt)

theorem exists_shift (hm : 0 < m) (hlt : m < 2 ^ 53) :
    ∃ s ≤ 52, 2 ^ 52 ≤ m * 2 ^ s ∧ m * 2 ^ s < 2 ^ 53 := by
  have hl := Nat.log2_self_le (Nat.ne_of_gt hm)
  have hu := Nat.lt_log2_self (n := m)
  have hle : m.log2 ≤ 52 := Nat.lt_succ_iff.mp ((Nat.log2_lt (Nat.ne_of_gt hm)).mpr hlt)
  refine ⟨52 - m.log2,Nat.sub_le _ _,?_,?_⟩
  · calc 2 ^ 52 = 2 ^ m.log2 * 2 ^ (52 - m.log2) := by rw [← Nat.pow_add,Nat.add_sub_cancel' hle]
      _ ≤ m * 2 ^ (52 - m.log2) := Nat.mul_le_mul_right _ hl
  · calc m * 2 ^ (52 - m.log2) < 2 ^ (m.log2 + 1) * 2 ^ (52 - m.log2) :=
          Nat.mul_lt_mul_of_pos_right hu (Nat.pow_pos (by norm_num))
      _ = 2 ^ 53 := by
          rw [← Nat.pow_add]
          congr 1
          omega

theorem exists_value_eq (hm : m < 2 ^ 53) : ∃ n < infinite, value n = m := by
  rcases Nat.eq_zero_or_pos m with rfl | hpos
  · exact ⟨0,by decide,by simp [value_zero]⟩
  · obtain ⟨s,hs,hlo,hhi⟩ := exists_shift hpos hm
    refine ⟨(1075 - s) * 2 ^ 52 + (m * 2 ^ s - 2 ^ 52),?_,?_⟩
    · unfold infinite
      omega
    · have hsig : significand ((1075 - s) * 2 ^ 52 + (m * 2 ^ s - 2 ^ 52)) = m * 2 ^ s := by
        unfold significand
        rw [if_neg (by omega)]
        omega
      have hexp : exponent ((1075 - s) * 2 ^ 52 + (m * 2 ^ s - 2 ^ 52)) = -(s : Int) := by
        unfold exponent
        omega
      rw [value,ulp,hsig,hexp,zpow_neg,zpow_natCast]
      push_cast
      exact mul_inv_cancel_right₀ (pow_ne_zero s (by norm_num)) _

theorem Shortest.digits_pos (h : Shortest d n) (hn : 0 < n) : 0 < d.digits := by
  refine Nat.pos_of_ne_zero fun h0 => ?_
  have hpos := h.value_pos hn
  simp [Decimal.value,h0] at hpos

theorem Shortest.leading_lt_seven_iff (h : Shortest d n) (hn : 0 < n) (hi : n < infinite) :
    d.leading < 7 ↔ value n < 10 ^ (7 : Int) := by
  obtain ⟨m,hm,hv⟩ := exists_value_eq (m := 10 ^ 7) (by norm_num)
  have hv : value m = 10 ^ (7 : Int) := by rw [hv]; norm_num
  rw [← not_le,← not_le,← Decimal.pow_le_value_iff (h.digits_pos hn)]
  exact not_congr (h.pow_le_iff hn hi (hv ▸ rounds_value hm) (le_of_eq hv.symm))

theorem rounds_thousandth :
    Rounds (10 ^ (-3 : Int)) 0x3F50624DD2F1A9FC ∧ 10 ^ (-3 : Int) ≤ value 0x3F50624DD2F1A9FC := by
  have hs : significand 0x3F50624DD2F1A9FC = 4611686018427388 := by decide
  have he : exponent 0x3F50624DD2F1A9FC = -62 := by decide
  have hs' : significand 0x3F50624DD2F1A9FB = 4611686018427387 := by decide
  have he' : exponent 0x3F50624DD2F1A9FB = -62 := by decide
  have hv : value 0x3F50624DD2F1A9FC = 4611686018427388 / 2 ^ 62 := by
    rw [value,ulp,hs,he]
    norm_num
  have hv' : value 0x3F50624DD2F1A9FB = 4611686018427387 / 2 ^ 62 := by
    rw [value,ulp,hs',he']
    norm_num
  have hle : (10 : ℚ) ^ (-3 : Int) ≤ value 0x3F50624DD2F1A9FC := by
    rw [hv]
    norm_num
  refine ⟨(rounds_iff_around (by decide)).mpr ⟨fun _ => .inl ?_,.inl ?_⟩,hle⟩
  · show value 0x3F50624DD2F1A9FB + value 0x3F50624DD2F1A9FC < 2 * 10 ^ (-3 : Int)
    rw [hv,hv']
    norm_num
  · have hlt := strictMono_value (Nat.lt_succ_self 0x3F50624DD2F1A9FC)
    linarith

theorem Shortest.leading_ge_iff (h : Shortest d n) (hn : 0 < n) (hi : n < infinite) :
    -3 ≤ d.leading ↔ 10 ^ (-3 : Int) ≤ value n := by
  rw [← Decimal.pow_le_value_iff (h.digits_pos hn)]
  exact h.pow_le_iff hn hi rounds_thousandth.1 rounds_thousandth.2

/-- A decimal without places behind the point is a double itself, so it is the one that it is rounded to. -/
theorem Shortest.exists_value_eq (h : Shortest d n) (he : 0 ≤ d.exponent) (hlt : d.value < 2 ^ 53) :
    ∃ m : Nat, value n = m := by
  obtain ⟨k,hk⟩ := Int.eq_ofNat_of_zero_le he
  have hv : d.value = (d.digits * 10 ^ k : Nat) := by
    rw [Decimal.value,hk,zpow_natCast]
    push_cast
    rfl
  rw [hv] at hlt
  obtain ⟨m,hm,hmv⟩ := Double.exists_value_eq (by exact_mod_cast hlt)
  have hr := h.rounds
  rw [hv,← hmv] at hr
  exact ⟨_,by rw [hr.unique (rounds_value hm),hmv]⟩

/-- An integer written out has no place behind the point, and its decimal begins no later than it does. So
a decimal with places behind the point would have more digits. -/
theorem Shortest.exponent_nonneg (h : Shortest d n) (hn : 0 < n) (hi : n < infinite)
    (hd : d.digits % 10 ≠ 0) (hm : value n = m) : 0 ≤ d.exponent := by
  by_contra he
  have hmpos : 0 < m := by
    have hpos := strictMono_value hn
    rw [value_zero,hm] at hpos
    exact_mod_cast hpos
  have hr : Rounds (Decimal.mk m 0).value n := by
    have hv : (Decimal.mk m 0).value = value n := by simp [Decimal.value,hm]
    exact hv ▸ rounds_value hi
  have hdigits : d.digits < 10 ^ (Decimal.log10 m + 1) := by
    rw [← Nat.digits_length_le_iff (by norm_num),← Decimal.significant_of_digits (.inr hd)]
    exact le_trans (h.fewest _ hr)
      ((Decimal.significant_le_iff _ _).mpr ⟨m,0,Decimal.lt_pow_log10 m,rfl⟩)
  have hle : (10 : ℚ) ^ (Decimal.log10 m : Int) ≤ d.value := by
    refine h.pow_le hn hi ?_
    rw [hm,zpow_natCast]
    exact_mod_cast Decimal.pow_log10_le hmpos
  exact absurd hle (not_le_of_gt (Decimal.value_lt_pow (lt_of_not_ge he) hdigits))

theorem Shortest.exponent_nonneg_iff (h : Shortest d n) (hn : 0 < n) (hi : n < infinite)
    (hd : d.digits % 10 ≠ 0) (hlt : d.value < 2 ^ 53) : 0 ≤ d.exponent ↔ ∃ m : Nat, value n = m :=
  ⟨fun he => h.exists_value_eq he hlt,fun ⟨_,hm⟩ => h.exponent_nonneg hn hi hd hm⟩

end Double

end ScriptEval
