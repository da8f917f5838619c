import ScriptEval.Proofs.Rounding

/-! A double and its parts: the fields of its bits, and the parts that arithmetic takes it into. Its sign and its
number among the doubles of that sign say all of it. -/
namespace ScriptEval

theorem Magnitude.ofBits_eq_nan_iff (n : Nat) :
    ofBits n = .nan ↔ n / 2 ^ 52 % 2 ^ 11 = 2047 ∧ n % 2 ^ 52 ≠ 0 := by
  unfold ofBits
  simp only [Nat.pow_eq]
  split_ifs <;> simp_all

namespace Double

open Float.Model
open UnpackedFloat (Sign)

section Bits

variable (x : Double)

theorem isNegative_eq_msb : x.isNegative = x.bits.msb := by
  rw [isNegative,Nat.pow_eq,BitVec.msb_eq_decide]

@[simp] theorem isNegative_neg : x.neg.isNegative = !x.isNegative := by
  have hs : signBit.msb = true := by decide
  rw [isNegative_eq_msb,isNegative_eq_msb,neg,BitVec.msb_xor,hs,Bool.xor_true]

@[simp] theorem number_neg : x.neg.number = x.number := by
  have hs : signBit.toNat % 2 ^ 63 = 0 := by decide
  rw [number,number,neg,BitVec.toNat_xor,Nat.xor_mod_two_pow,hs,Nat.xor_zero]

@[simp] theorem isNegative_abs : x.abs.isNegative = false := by
  have hs : (~~~signBit).msb = false := by decide
  rw [isNegative_eq_msb,abs,BitVec.msb_and,hs,Bool.and_false]

@[simp] theorem number_abs : x.abs.number = x.number := by
  have hs : (~~~signBit).toNat = 2 ^ 63 - 1 := by decide
  rw [number,number,abs,BitVec.toNat_and,hs,Nat.and_two_pow_sub_one_eq_mod,Nat.mod_mod]

theorem magnitude_eq_ofBits_number : x.magnitude = .ofBits x.number := (ofBits_mod _).symm

@[simp] theorem magnitude_neg : x.neg.magnitude = x.magnitude := by
  rw [magnitude_eq_ofBits_number,magnitude_eq_ofBits_number,number_neg]

@[simp] theorem magnitude_abs : x.abs.magnitude = x.magnitude := by
  rw [magnitude_eq_ofBits_number,magnitude_eq_ofBits_number,number_abs]

end Bits

def sign (x : Double) : Sign := if x.isNegative then .negative else .positive

section Fields

variable (x : Double)

theorem ofBitVec_unpackSign : Sign.ofBitVec (@UnpackedFloat.unpackSign .binary64 x.bits) = x.sign := by
  have hs : (@UnpackedFloat.unpackSign .binary64 x.bits).toNat = x.bits.toNat / 2 ^ 63 := by
    have hlt := x.bits.isLt
    unfold UnpackedFloat.unpackSign
    simp [Nat.shiftRight_eq_div_pow]
    omega
  have hz : @UnpackedFloat.unpackSign .binary64 x.bits = 0#1 ↔ ¬x.isNegative = true := by
    rw [← BitVec.toNat_inj,hs,isNegative_iff]
    exact Nat.div_eq_zero_iff.trans (by omega)
  unfold Sign.ofBitVec sign
  by_cases hx : x.isNegative = true
  · rw [if_pos hx,if_neg fun h => hz.mp h hx]
  · rw [if_neg hx,if_pos (hz.mpr hx)]

theorem toNat_exponentField :
    (@UnpackedFloat.unpackExponent .binary64 x.bits).toNat = x.number / 2 ^ 52 := by
  have hlt := x.bits.isLt
  simp only [UnpackedFloat.unpackExponent,BitVec.toNat_cast,BitVec.extractLsb_toNat,
    Nat.shiftRight_eq_div_pow,number]
  omega

theorem toNat_mantissaField :
    (@UnpackedFloat.unpackMantissa .binary64 x.bits).toNat = x.number % 2 ^ 52 := by
  simp only [UnpackedFloat.unpackMantissa,BitVec.toNat_cast,BitVec.extractLsb_toNat,
    Nat.shiftRight_zero,number]
  omega

theorem exponentField_eq_ones_iff :
    @UnpackedFloat.unpackExponent .binary64 x.bits = -1#11 ↔ x.number / 2 ^ 52 = 2047 := by
  rw [← BitVec.toNat_inj,toNat_exponentField]
  rfl

theorem exponentField_eq_zero_iff :
    @UnpackedFloat.unpackExponent .binary64 x.bits = 0#11 ↔ x.number / 2 ^ 52 = 0 := by
  rw [← BitVec.toNat_inj,toNat_exponentField]
  rfl

theorem mantissaField_eq_zero_iff :
    @UnpackedFloat.unpackMantissa .binary64 x.bits = 0#52 ↔ x.number % 2 ^ 52 = 0 := by
  rw [← BitVec.toNat_inj,toNat_mantissaField]
  rfl

theorem toNat_one_append_mantissaField :
    (1#1 ++ @UnpackedFloat.unpackMantissa .binary64 x.bits).toNat = 2 ^ 52 + x.number % 2 ^ 52 := by
  have hlt := (@UnpackedFloat.unpackMantissa .binary64 x.bits).isLt
  rw [BitVec.toNat_append,← Nat.shiftLeft_add_eq_or_of_lt hlt,toNat_mantissaField]
  rfl

theorem unpackSign_packComponents {f : Format} {s : Sign} {e : BitVec f.exponentBits}
    {m : BitVec f.mantissaBitsWithoutImplicit} :
    UnpackedFloat.unpackSign (UnpackedFloat.packComponents f s e m) = s.toBitVec := by
  ext i hi
  obtain rfl : i = 0 := Nat.lt_one_iff.mp hi
  unfold UnpackedFloat.unpackSign
  simp [UnpackedFloat.packComponents,BitVec.getLsbD_append,BitVec.getElem_append]

/-- A double whose bits are put together from three fields has their sign and their number. -/
theorem of_packComponents {x : Double} {s : Sign} {f : BitVec 11} {g : BitVec 52}
    (h : x.bits = @UnpackedFloat.packComponents .binary64 s f g) :
    x.sign = s ∧ x.number = f.toNat * 2 ^ 52 + g.toNat := by
  constructor
  · rw [← ofBitVec_unpackSign,h,unpackSign_packComponents]
    cases s <;> rfl
  · rw [← Nat.div_add_mod' x.number (2 ^ 52),← toNat_exponentField,← toNat_mantissaField,h,
      UnpackedFloat.unpackExponent_packComponents,UnpackedFloat.unpackMantissa_packComponents]

end Fields

section Form

variable {x y : Double}

theorem unpacked_of_infinite_le (h : infinite ≤ x.number) :
    x.unpacked = if x.number = infinite then .infinity x.sign else .notANumber := by
  have hn := x.number_lt
  have he : x.number / 2 ^ 52 = 2047 := by
    unfold infinite at h
    omega
  have hz : x.number % 2 ^ 52 = 0 ↔ x.number = infinite := by
    unfold infinite
    omega
  unfold unpacked UnpackedFloat.unpack
  dsimp only
  rw [ofBitVec_unpackSign,if_pos ((exponentField_eq_ones_iff x).mpr he)]
  exact if_congr ((mantissaField_eq_zero_iff x).trans hz) rfl rfl

theorem unpacked_of_zero (h : x.number = 0) : x.unpacked = .zero x.sign := by
  unfold unpacked UnpackedFloat.unpack
  dsimp only
  rw [ofBitVec_unpackSign,if_neg (by rw [exponentField_eq_ones_iff,h]; decide),
    if_pos (by rw [exponentField_eq_zero_iff,h,Nat.zero_div]),
    dif_pos (by rw [mantissaField_eq_zero_iff,h,Nat.zero_mod])]

theorem unpacked_of_finite {b : Binary} (hpos : 0 < x.number) (hlt : x.number < infinite)
    (hb : Parts x.number b) : x.unpacked = .finite x.sign b.mantissa b.exponent b.mantissa_pos := by
  have hbias : (Format.binary64.exponentBias : Int) = 1023 := rfl
  have hi : ¬x.number / 2 ^ 52 = 2047 := by
    unfold infinite at hlt
    omega
  unfold unpacked UnpackedFloat.unpack
  dsimp only
  rw [ofBitVec_unpackSign,if_neg (hi ∘ (exponentField_eq_ones_iff x).mp)]
  by_cases hz : x.number / 2 ^ 52 = 0
  · have hzm : ¬x.number % 2 ^ 52 = 0 := by omega
    rw [if_pos ((exponentField_eq_zero_iff x).mpr hz),
      dif_neg (hzm ∘ (mantissaField_eq_zero_iff x).mp)]
    congr 1
    · rw [toNat_mantissaField,hb.mantissa_eq,significand,if_pos (by omega)]
      omega
    · rw [toNat_exponentField,hbias,hb.exponent_eq,exponent]
      omega
  · rw [if_neg (hz ∘ (exponentField_eq_zero_iff x).mp)]
    congr 1
    · rw [toNat_one_append_mantissaField,hb.mantissa_eq,significand,if_neg (by omega)]
    · rw [toNat_exponentField,hbias,hb.exponent_eq,exponent]
      omega

/-- What a double is by its number, in parts, and as a magnitude. -/
inductive Form (x : Double) : Prop
  | nan (hn : infinite < x.number) (hu : x.unpacked = .notANumber) (hm : x.magnitude = .nan)
  | infinity (hn : x.number = infinite) (hu : x.unpacked = .infinity x.sign)
      (hm : x.magnitude = .infinite)
  | zero (hn : x.number = 0) (hu : x.unpacked = .zero x.sign) (hm : x.magnitude = .zero)
  | finite (b : Binary) (hpos : 0 < x.number) (hlt : x.number < infinite)
      (hu : x.unpacked = .finite x.sign b.mantissa b.exponent b.mantissa_pos)
      (hm : x.magnitude = .finite b) (hb : Parts x.number b)

theorem form (x : Double) : Form x := by
  have hof := x.magnitude_eq_ofBits_number
  have hnan : Magnitude.ofBits x.number = .nan ↔ infinite < x.number := by
    have hn := x.number_lt
    rw [Magnitude.ofBits_eq_nan_iff]
    unfold infinite
    omega
  rcases ofBits_cases x.number_lt with ⟨hle,hm | hm⟩ | ⟨hz,hm⟩ | ⟨hpos,hlt,b,hm,hb⟩
  · have he : x.number = infinite := by
      refine Nat.le_antisymm (Nat.le_of_not_lt fun h => ?_) hle
      rw [hnan.mpr h] at hm
      cases hm
    exact .infinity he (by rw [unpacked_of_infinite_le hle,if_pos he]) (hof.trans hm)
  · have hlt := hnan.mp hm
    exact .nan hlt (by rw [unpacked_of_infinite_le hle,if_neg hlt.ne']) (hof.trans hm)
  · exact .zero hz (unpacked_of_zero hz) (hof.trans hm)
  · exact .finite b hpos hlt (unpacked_of_finite hpos hlt hb) (hof.trans hm) hb

theorem magnitude_eq_nan_iff : x.magnitude = .nan ↔ infinite < x.number := by
  cases form x with
  | nan hn hu hm => exact ⟨fun _ => hn,fun _ => hm⟩
  | infinity hn hu hm => simp [hm,hn]
  | zero hn hu hm => simp [hm,hn]
  | finite b hpos hlt hu hm hb => simp [hm,hlt.le]

theorem magnitude_eq_infinite_iff : x.magnitude = .infinite ↔ x.number = infinite := by
  cases form x with
  | nan hn hu hm => simp [hm,hn.ne']
  | infinity hn hu hm => exact ⟨fun _ => hn,fun _ => hm⟩
  | zero hn hu hm =>
    have hne : 0 ≠ infinite := by decide
    simp [hm,hn,hne]
  | finite b hpos hlt hu hm hb => simp [hm,hlt.ne]

theorem magnitude_eq_zero_iff : x.magnitude = .zero ↔ x.number = 0 := by
  cases form x with
  | nan hn hu hm => simp [hm,(Nat.zero_lt_of_lt hn).ne']
  | infinity hn hu hm =>
    have hne : infinite ≠ 0 := by decide
    simp [hm,hn,hne]
  | zero hn hu hm => exact ⟨fun _ => hn,fun _ => hm⟩
  | finite b hpos hlt hu hm hb => simp [hm,hpos.ne']

theorem isNaN_iff : x.isNaN = true ↔ x.magnitude = .nan := by
  unfold isNaN
  cases x.magnitude <;> simp

theorem isFinite_iff : x.isFinite = true ↔ x.number < infinite := by
  unfold isFinite
  cases form x with
  | nan hn hu hm => simp [hm,hn.le]
  | infinity hn hu hm => simp [hm,hn]
  | zero hn hu hm =>
    have hlt : 0 < infinite := by decide
    simp [hm,hn,hlt]
  | finite b hpos hlt hu hm hb => simp [hm,hlt]

theorem magnitude_quiet (h : x.magnitude = .nan) : x.quiet.magnitude = .nan := by
  rw [magnitude,Magnitude.ofBits_eq_nan_iff] at h ⊢
  have hmark : (0x0008000000000000 : BitVec 64).toNat = 2 ^ 51 := rfl
  have hlow : (2 ^ 51) % 2 ^ 52 = 2 ^ 51 := by decide
  have hhigh : 2 ^ 51 / 2 ^ 52 = 0 := by decide
  rw [quiet,BitVec.toNat_or,hmark,Nat.or_div_two_pow,hhigh,Nat.or_zero,Nat.or_mod_two_pow,hlow]
  exact ⟨h.1,Nat.ne_of_gt (Nat.lt_of_lt_of_le (by decide) Nat.right_le_or)⟩

/-- Whatever the operation, with what is no number it gives what is none. -/
theorem magnitude_lift_of_nan (f : UnpackedFloat → UnpackedFloat → UnpackedFloat)
    (h : x.magnitude = .nan ∨ y.magnitude = .nan) : (lift f x y).magnitude = .nan := by
  unfold lift
  by_cases hx : x.magnitude = .nan
  · rw [if_pos (isNaN_iff.mpr hx)]
    exact magnitude_quiet hx
  · have hy := h.resolve_left hx
    rw [if_neg (mt isNaN_iff.mp hx),if_pos (isNaN_iff.mpr hy)]
    exact magnitude_quiet hy

theorem lift_eq_packed (f : UnpackedFloat → UnpackedFloat → UnpackedFloat) (hx : x.magnitude ≠ .nan)
    (hy : y.magnitude ≠ .nan) : lift f x y = packed (f x.unpacked y.unpacked) := by
  rw [lift,if_neg (mt isNaN_iff.mp hx),if_neg (mt isNaN_iff.mp hy)]

/-- But for what is no number, a double is known by its sign and its magnitude. -/
theorem eq_of_magnitude_eq (hx : x.magnitude ≠ .nan) (hm : x.magnitude = y.magnitude)
    (hs : x.isNegative = y.isNegative) : x = y := by
  refine eq_of_number_eq hs ?_
  cases form x with
  | nan hn hu h => exact absurd h hx
  | infinity hn hu h => rw [hn,magnitude_eq_infinite_iff.mp (hm.symm.trans h)]
  | zero hn hu h => rw [hn,magnitude_eq_zero_iff.mp (hm.symm.trans h)]
  | finite b hpos hlt hu h hb =>
    cases form y with
    | nan hn hu' h' | infinity hn hu' h' | zero hn hu' h' =>
      rw [h,h'] at hm
      cases hm
    | finite c hpos' hlt' hu' h' hc =>
      obtain rfl : b = c := by
        rw [h,h'] at hm
        cases hm
        rfl
      exact hb.unique hc

end Form

end Double
end ScriptEval
