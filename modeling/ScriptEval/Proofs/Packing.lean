import ScriptEval.Proofs.Unpacking

/-! The doubles that parts are put into. Significands and exponents as doubles have them number the doubles
without a gap, also beyond the largest finite one; what lies there becomes infinite. -/
namespace ScriptEval.Double

open Float.Model
open UnpackedFloat (Sign)

/-- `m` is a significand at the exponent `e`: one of 53 bits, or a lesser one at the least exponent. -/
structure Canonical (m : Nat) (e : Int) : Prop where
  least_le : -1074 ≤ e
  lt : m < 2 ^ 53
  full : e = -1074 ∨ 2 ^ 52 ≤ m

variable {m : Nat} {e : Int}

theorem place_succ (m : Nat) (e : Int) : place (m + 1) e = place m e + 1 := (Nat.add_assoc _ _ _).symm

theorem place_mod_two (m : Nat) (e : Int) : place m e % 2 = m % 2 := by
  unfold place
  omega

theorem Canonical.parts (h : Canonical m e) :
    significand (place m e) = m ∧ exponent (place m e) = e := by
  obtain ⟨hl,hm,hf⟩ := h
  unfold significand exponent place
  constructor
  · split_ifs <;> omega
  · omega

theorem Canonical.value_place (h : Canonical m e) : value (place m e) = m * 2 ^ e := by
  rw [value,ulp,h.parts.1,h.parts.2]

theorem Canonical.value_place_succ (h : Canonical m e) :
    value (place m e + 1) = (m + 1) * 2 ^ e := by
  rw [value_succ,h.value_place,ulp,h.parts.2]
  ring

/-- The significand of 53 bits that follows the last one is the first at the next exponent. -/
theorem place_two_pow (h : -1074 ≤ e) : place (2 ^ 52) (e + 1) = place (2 ^ 53) e := by
  unfold place
  omega

theorem packed_infinity (s : Sign) :
    sign (packed (.infinity s)) = s ∧ number (packed (.infinity s)) = infinite := by
  obtain ⟨hs,hn⟩ := @of_packComponents (packed (.infinity s)) s (-1#11) 0#52 rfl
  exact ⟨hs,hn.trans (by decide)⟩

theorem packed_zero (s : Sign) : sign (packed (.zero s)) = s ∧ number (packed (.zero s)) = 0 := by
  obtain ⟨hs,hn⟩ := @of_packComponents (packed (.zero s)) s 0#11 0#52 rfl
  exact ⟨hs,hn.trans (by decide)⟩

theorem infinite_lt_number_packed : infinite < number (packed .notANumber) := by decide

theorem packed_finite (s : Sign) (hm : 0 < m) (h : Canonical m e) :
    sign (packed (.finite s m e hm)) = s ∧
      number (packed (.finite s m e hm)) = min (place m e) infinite := by
  obtain ⟨hl,hlt,hf⟩ := h
  have hbits : (packed (.finite s m e hm)).bits =
      if 2 ^ 11 ≤ (e + 1023 + 52).toNat + 1 then UnpackedFloat.packedInfinity .binary64 s
      else if m.log2 + 1 = 53 then
        @UnpackedFloat.packComponents .binary64 s (.ofNat 11 (e + 1023 + 52).toNat) (.ofNat 52 m)
      else @UnpackedFloat.packComponents .binary64 s 0#11 (.ofNat 52 m) := rfl
  have hlog : m.log2 + 1 = 53 ↔ 2 ^ 52 ≤ m := by
    have hlt := (Nat.log2_lt hm.ne').mpr hlt
    rw [← Nat.le_log2 hm.ne']
    omega
  by_cases hi : 2 ^ 11 ≤ (e + 1023 + 52).toNat + 1
  · rw [if_pos hi] at hbits
    obtain ⟨hs,hn⟩ := of_packComponents hbits
    refine ⟨hs,?_⟩
    rw [hn,Nat.min_eq_right (by unfold place infinite; omega)]
    rfl
  · rw [if_neg hi] at hbits
    have hp : place m e < infinite := by
      unfold place infinite
      omega
    rw [Nat.min_eq_left hp.le]
    by_cases hm : 2 ^ 52 ≤ m
    · rw [if_pos (hlog.mpr hm)] at hbits
      obtain ⟨hs,hn⟩ := of_packComponents hbits
      refine ⟨hs,?_⟩
      rw [hn,BitVec.toNat_ofNat,BitVec.toNat_ofNat,place]
      omega
    · rw [if_neg (hm ∘ hlog.mp)] at hbits
      obtain ⟨hs,hn⟩ := of_packComponents hbits
      refine ⟨hs,?_⟩
      rw [hn,BitVec.toNat_ofNat,BitVec.toNat_ofNat,place]
      omega

theorem packed_canonical (s : Sign) (h : Canonical m e) :
    let x := packed (if hm : m = 0 then .zero s else .finite s m e (Nat.pos_of_ne_zero hm))
    sign x = s ∧ number x = min (place m e) infinite := by
  intro x
  by_cases hm : m = 0
  · have hp : place m e = 0 := by
      have hf := h.full
      unfold place
      omega
    have hx : x = packed (.zero s) := congrArg packed (dif_pos hm)
    rw [hx,hp,Nat.zero_min]
    exact packed_zero s
  · have hx : x = packed (.finite s m e _) := congrArg packed (dif_neg hm)
    rw [hx]
    exact packed_finite s _ h

end ScriptEval.Double
