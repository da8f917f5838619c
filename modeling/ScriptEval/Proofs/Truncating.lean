import ScriptEval.Proofs.Packing

/-! Rounding by what is left behind a mantissa. A number is cut off at some place, and two bits tell of the rest as
much as rounding asks for: whether there is any, and on which side of a half it lies. -/
namespace ScriptEval.Double

open Float.Model
open UnpackedFloat (Sign Accuracy ExtendedMantissa shiftToExponent shiftToTargetExponent roundWithAccuracy)

/-- The accuracy tells what is left of `y` behind its whole part `m`. -/
def Tells (y : ℚ) (m : Nat) : Accuracy → Prop
  | .exact => y = m
  | .inexact o => m < y ∧ y < m + 1 ∧ o.Compares (2 * y) (2 * m + 1)

/-- The mantissa is the whole part of `y`, and the bits behind it tell what is left. -/
def Represents (em : ExtendedMantissa) (y : ℚ) : Prop := Tells y em.mantissa em.accuracy

def RoundsInto (y : ℚ) (m : Nat) : Prop :=
  Below m (2 * m - 1) (2 * y) ∧ Below m (2 * y) (2 * m + 1)

/-- `e` is the exponent of the doubles around `y` units of `2 ^ e`: these have 53 bits, or fewer at the least
exponent. -/
structure Fits (y : ℚ) (e : Int) : Prop where
  least_le : -1074 ≤ e
  lt : y < 2 ^ 53
  full : e = -1074 ∨ 2 ^ 52 ≤ y

variable {em : ExtendedMantissa} {a : Accuracy} {y : ℚ} {m : Nat} {e t : Int}

section Shifting

theorem Tells.between (h : Tells y m a) : (m : ℚ) ≤ y ∧ y < m + 1 := by
  cases a with
  | exact =>
    obtain rfl : y = m := h
    exact ⟨le_rfl,lt_add_one _⟩
  | inexact o => exact ⟨le_of_lt h.1,h.2.1⟩

theorem represents_ofMantissaAndAccuracy (h : Tells y m a) :
    Represents (.ofMantissaAndAccuracy m a) y := by
  cases a with
  | exact => exact h
  | inexact o => cases o <;> exact h

theorem Represents.rest (h : Represents em y) :
    (em.roundBit || em.stickyBit) = false ∧ y = em.mantissa ∨
    (em.roundBit || em.stickyBit) = true ∧ em.mantissa < y ∧ y < em.mantissa + 1 := by
  obtain ⟨m,r,s⟩ := em
  cases r <;> cases s
  · exact .inl ⟨rfl,h⟩
  · exact .inr ⟨rfl,h.1,h.2.1⟩
  · exact .inr ⟨rfl,h.1,h.2.1⟩
  · exact .inr ⟨rfl,h.1,h.2.1⟩

/-- The last bit of the mantissa tells on which side of a half the new rest lies, and the old rest whether it
is a half or nothing. -/
theorem Represents.shiftRightOne (h : Represents em y) : Represents em.shiftRightOne (y / 2) := by
  have hm : (em.mantissa : ℚ) = 2 * (em.mantissa / 2 : Nat) + (em.mantissa % 2 : Nat) := by
    exact_mod_cast (Nat.div_add_mod _ _).symm
  unfold Represents ExtendedMantissa.shiftRightOne
  rcases Nat.mod_two_eq_zero_or_one em.mantissa with hb | hb <;> rw [hb] at hm ⊢ <;>
    push_cast at hm <;> rcases h.rest with ⟨hr,hy⟩ | ⟨hr,hy,hy'⟩ <;> rw [hr]
  · show y / 2 = _
    linarith
  · exact ⟨by linarith,by linarith,show _ < _ by linarith⟩
  · exact ⟨by linarith,by linarith,show _ = _ by linarith⟩
  · exact ⟨by linarith,by linarith,show _ > _ by linarith⟩

theorem Represents.shiftRight (h : Represents em y) (n : Nat) : Represents (em >>> n) (y / 2 ^ n) := by
  change Represents (n.repeat ExtendedMantissa.shiftRightOne em) _
  induction n with
  | zero => simpa [Nat.repeat] using h
  | succ n ih =>
    rw [Nat.repeat,pow_succ,← div_div]
    exact ih.shiftRightOne

theorem represents_shiftToExponent (h : Tells y m a) (he : e ≤ t) :
    Represents (shiftToExponent m e a t).1 (y / 2 ^ (t - e).toNat) ∧
      (shiftToExponent m e a t).2 = t := by
  refine ⟨(represents_ofMantissaAndAccuracy h).shiftRight _,?_⟩
  unfold shiftToExponent
  dsimp only
  omega

end Shifting

section Nearest

theorem Represents.roundsInto (h : Represents em y) : RoundsInto y em.roundedMantissa := by
  obtain ⟨m,r,s⟩ := em
  unfold ExtendedMantissa.roundedMantissa ExtendedMantissa.accuracy Accuracy.roundToNearestEven
  cases r <;> cases s <;> dsimp only
  · have h : y = m := h
    exact ⟨.inl (by linarith),.inl (by linarith)⟩
  · obtain ⟨hlo,_,hlt⟩ : m < y ∧ y < m + 1 ∧ 2 * y < 2 * m + 1 := h
    exact ⟨.inl (by linarith),.inl hlt⟩
  · obtain ⟨_,_,heq⟩ : m < y ∧ y < m + 1 ∧ 2 * y = 2 * m + 1 := h
    rcases Nat.mod_two_eq_zero_or_one m with hb | hb <;> rw [hb]
    · exact ⟨.inl (by push_cast; linarith),.inr ⟨heq,hb⟩⟩
    · exact ⟨.inr ⟨by push_cast; linarith,by omega⟩,.inl (by push_cast; linarith)⟩
  · obtain ⟨_,hhi,hgt⟩ : m < y ∧ y < m + 1 ∧ 2 * y > 2 * m + 1 := h
    exact ⟨.inl (by push_cast; linarith),.inl (by push_cast; linarith)⟩

theorem RoundsInto.le {n : Nat} (h : RoundsInto y m) (hn : y < n) : m ≤ n := by
  have hlt : (m : ℚ) < n + 1 := by linarith [h.1.le]
  exact Nat.lt_succ_iff.mp (by exact_mod_cast hlt)

theorem RoundsInto.ge {n : Nat} (h : RoundsInto y m) (hn : (n : ℚ) ≤ y) : n ≤ m := by
  have hlt : (n : ℚ) < m + 1 := by linarith [h.2.le]
  exact Nat.lt_succ_iff.mp (by exact_mod_cast hlt)

theorem Below.mul {n : Nat} {a b c : ℚ} (h : Below n a b) (hc : 0 < c) : Below n (a * c) (b * c) := by
  rcases h with h | ⟨rfl,hn⟩
  · exact .inl (mul_lt_mul_of_pos_right h hc)
  · exact .inr ⟨rfl,hn⟩

theorem Below.congr {n k : Nat} {a b : ℚ} (h : Below n a b) (hk : k % 2 = n % 2) : Below k a b := by
  rwa [Below,hk]

theorem Fits.rounded (hy : Fits y e) (hm : RoundsInto y m) : m ≤ 2 ^ 53 ∧ (e = -1074 ∨ 2 ^ 52 ≤ m) :=
  ⟨hm.le (by exact_mod_cast hy.lt),hy.full.imp_right fun h => hm.ge (by exact_mod_cast h)⟩

theorem below_of_canonical (h : Canonical m e) (hm : RoundsInto y (m + 1)) :
    Below (place (m + 1) e) (value (place (m + 1) e - 1) + value (place (m + 1) e))
      (2 * (y * 2 ^ e)) := by
  have hb := (hm.1.mul (zpow_pos (by norm_num : (0 : ℚ) < 2) e)).congr (place_mod_two (m + 1) e)
  rw [place_succ,Nat.add_sub_cancel,← place_succ,h.value_place,place_succ,h.value_place_succ,
    ← place_succ]
  convert hb using 1
  · push_cast
    ring
  · ring

/-- If it is not, the double is a power of two and `y` is no less. -/
theorem below_of_narrow (hy : Fits y e) (hm : m = 2 ^ 52) (he : e ≠ -1074) :
    Below (place m e) (value (place m e - 1) + value (place m e)) (2 * (y * 2 ^ e)) := by
  have hc : Canonical m e := ⟨hy.least_le,by omega,by omega⟩
  have hpos : 0 < place m e := by
    unfold place
    omega
  have hv := strictMono_value (Nat.sub_lt hpos Nat.one_pos)
  have hle : (m : ℚ) ≤ y := by
    rw [hm]
    exact_mod_cast hy.full.resolve_left he
  have h := mul_le_mul_of_nonneg_right hle (le_of_lt (zpow_pos (by norm_num : (0 : ℚ) < 2) e))
  rw [← hc.value_place] at h
  left
  linarith

theorem below_above (hy : Fits y e) (hm : RoundsInto y m) :
    Below (place m e) (2 * (y * 2 ^ e)) (value (place m e) + value (place m e + 1)) := by
  have hu : (0 : ℚ) < 2 ^ e := zpow_pos (by norm_num) e
  obtain ⟨hle,hf⟩ := hy.rounded hm
  by_cases hlt : m < 2 ^ 53
  · have hc : Canonical m e := ⟨hy.least_le,hlt,hf⟩
    have hb := (hm.2.mul hu).congr (place_mod_two m e)
    rw [hc.value_place,hc.value_place_succ]
    convert hb using 1 <;> ring
  · obtain ⟨k,rfl⟩ := Nat.exists_eq_succ_of_ne_zero (show m ≠ 0 by omega)
    have hc : Canonical k e := ⟨hy.least_le,by omega,by omega⟩
    have hk : (k : ℚ) + 1 = 2 ^ 53 := by
      exact_mod_cast Nat.le_antisymm hle (Nat.le_of_not_lt hlt)
    have hv : value (place (k + 1) e) = 2 ^ 53 * 2 ^ e := by
      rw [place_succ,hc.value_place_succ,hk]
    have h := mul_lt_mul_of_pos_right hy.lt hu
    have hn := strictMono_value (Nat.lt_succ_self (place (k + 1) e))
    rw [← hv] at h
    left
    linarith

theorem around_place (hy : Fits y e) (hm : RoundsInto y m) : Around (place m e) (y * 2 ^ e) := by
  refine ⟨fun hpos => ?_,below_above hy hm⟩
  obtain ⟨hle,hf⟩ := hy.rounded hm
  by_cases hc : 0 < m ∧ (e = -1074 ∨ 2 ^ 52 < m)
  · obtain ⟨k,rfl⟩ := Nat.exists_eq_succ_of_ne_zero hc.1.ne'
    exact below_of_canonical ⟨hy.least_le,by omega,by omega⟩ hm
  · have hn : m = 2 ^ 52 ∧ e ≠ -1074 := by
      unfold place at hpos
      omega
    exact below_of_narrow hy hn.1 hn.2

theorem rounds_of_around {n : Nat} {q : ℚ} (h : Around n q) : Rounds q (min n infinite) := by
  by_cases hn : n < infinite
  · rw [Nat.min_eq_left hn.le]
    exact (rounds_iff_around hn).mpr h
  · have hn := Nat.le_of_not_lt hn
    have h₁ := strictMono_value.monotone (Nat.sub_le_sub_right hn 1)
    have h₂ := strictMono_value.monotone hn
    have hq := (h.1 (Nat.lt_of_lt_of_le (by decide) hn)).le
    have hv := value_pred_add_value_infinite
    rw [Nat.min_eq_right hn,Rounds,if_neg (by linarith)]

end Nearest

section Rounding

theorem targetExponent_eq (e : Int) : Format.binary64.targetExponent e = max (e - 53) (-1074) := rfl

/-- Cut off at the exponent that its size asks for, a number has as many bits as a double can hold. -/
theorem Tells.fits (h : Tells y m a) (he : e ≤ t)
    (ht : t = Format.binary64.targetExponent (totalExponent m e)) :
    Fits (y / 2 ^ (t - e).toNat) t := by
  obtain ⟨hle,hlt⟩ := h.between
  have hp : (0 : ℚ) < 2 ^ (t - e).toNat := pow_pos (by norm_num) _
  rw [targetExponent_eq,totalExponent] at ht
  refine ⟨by omega,?_,?_⟩
  · have hm : m + 1 ≤ 2 ^ (53 + (t - e).toNat) :=
      Nat.le_trans Nat.lt_log2_self (Nat.pow_le_pow_right (by decide) (by omega))
    rw [div_lt_iff₀ hp,← pow_add]
    exact lt_of_lt_of_le hlt (by exact_mod_cast hm)
  · by_cases hl : t = -1074
    · exact .inl hl
    · have hm : 2 ^ (52 + (t - e).toNat) ≤ m := by
        have hlog : 52 + (t - e).toNat = m.log2 := by omega
        rw [hlog]
        refine Nat.log2_self_le fun h0 => ?_
        rw [h0,Nat.log2_zero] at ht
        omega
      right
      rw [le_div_iff₀ hp,← pow_add]
      exact le_trans (by exact_mod_cast hm) hle

theorem canonical_shiftToTargetExponent (hm : m ≤ 2 ^ 53) (hl : -1074 ≤ e)
    (hf : e = -1074 ∨ 2 ^ 52 ≤ m) :
    let r := shiftToTargetExponent .binary64 m e .exact
    Canonical r.1.mantissa r.2 ∧ place r.1.mantissa r.2 = place m e := by
  unfold shiftToTargetExponent shiftToExponent
  rw [targetExponent_eq,totalExponent]
  dsimp only
  by_cases hlt : m < 2 ^ 53
  · have hlog : m.log2 < 53 := by
      by_cases h0 : m = 0
      · rw [h0,Nat.log2_zero]
        decide
      · exact (Nat.log2_lt h0).mpr hlt
    have hn : (max (m.log2 + 1 + e - 53) (-1074) - e).toNat = 0 := by omega
    have hs : (ExtendedMantissa.ofMantissaAndAccuracy m .exact >>> 0).mantissa = m := rfl
    rw [hn,hs,Nat.cast_zero,Int.add_zero]
    exact ⟨⟨hl,hlt,hf⟩,rfl⟩
  · obtain rfl : m = 2 ^ 53 := Nat.le_antisymm hm (Nat.le_of_not_lt hlt)
    have hn : (max ((2 ^ 53 : Nat).log2 + 1 + e - 53) (-1074) - e).toNat = 1 := by
      rw [Nat.log2_two_pow]
      omega
    have hs : (ExtendedMantissa.ofMantissaAndAccuracy (2 ^ 53) .exact >>> 1).mantissa = 2 ^ 52 := by
      decide
    rw [hn,hs]
    exact ⟨⟨by omega,by decide,.inr le_rfl⟩,place_two_pow hl⟩

/-- Rounding by the accuracy is rounding to the nearest double, as long as no bits are missing. -/
theorem rounds_roundWithAccuracy (s : Sign) (h : Tells y m a)
    (he : e ≤ Format.binary64.targetExponent (totalExponent m e)) :
    let x := packed (roundWithAccuracy .binary64 s m e a)
    sign x = s ∧ Rounds (y * 2 ^ e) (number x) := by
  generalize ht : Format.binary64.targetExponent (totalExponent m e) = t at he
  obtain ⟨hr,hrt⟩ := represents_shiftToExponent h he
  have hy := h.fits he ht.symm
  have hk := hr.roundsInto
  obtain ⟨hle,hf⟩ := hy.rounded hk
  obtain ⟨hc,hp⟩ := canonical_shiftToTargetExponent hle hy.least_le hf
  have hround : roundWithAccuracy .binary64 s m e a =
      let r := shiftToTargetExponent .binary64 (shiftToExponent m e a t).1.roundedMantissa t .exact
      if h : r.1.mantissa = 0 then .zero s
      else .finite s r.1.mantissa r.2 (Nat.pos_of_ne_zero h) := by
    rw [roundWithAccuracy,shiftToTargetExponent,ht]
    dsimp only
    rw [hrt]
  obtain ⟨hs,hn⟩ := packed_canonical s hc
  have hv : y / 2 ^ (t - e).toNat * 2 ^ t = y * 2 ^ e := by
    have hte : t = (t - e).toNat + e := by omega
    have hz : (2 : ℚ) ^ t = 2 ^ (t - e).toNat * 2 ^ e := by
      rw [← zpow_natCast,← zpow_add₀ (by norm_num),← hte]
    rw [hz,← mul_assoc,div_mul_cancel₀ _ (by positivity)]
  intro x
  have hx : x = packed _ := congrArg packed hround
  rw [hx]
  refine ⟨hs,?_⟩
  rw [hn,hp,← hv]
  exact rounds_of_around (around_place hy hk)

end Rounding

end ScriptEval.Double
