import Mathlib.Algebra.Order.Field.Basic
import Mathlib.Tactic.FieldSimp
import ScriptEval.Expr.Eval
import ScriptEval.Proofs.Points
import ScriptEval.Proofs.Truncating

/-! Quotients of doubles. A finite one is the exact quotient rounded; the others follow from what the two numbers
are and from their signs, and no sign of what is no number matters. A negation goes through, wherever it stands. -/
namespace ScriptEval

def Binary.value (b : Binary) : ℚ := b.mantissa * 2 ^ b.exponent

namespace Double

open Float.Model
open UnpackedFloat (Sign accuracyOfFraction divCore)

/-- What `q` is as a quotient: the two numbers have the magnitudes `m` and `n`, and `negative` is whether one of
them is negative and the other is not. -/
def IsQuotient (negative : Bool) (m n : Magnitude) (q : Double) : Prop :=
  match m, n with
  | .nan, _ | _, .nan | .zero, .zero | .infinite, .infinite => q.magnitude = .nan
  | .infinite, _ | _, .zero => q.magnitude = .infinite ∧ q.isNegative = negative
  | .zero, _ | _, .infinite => q.magnitude = .zero ∧ q.isNegative = negative
  | .finite a, .finite b => RoundsTo negative (a.value / b.value) q

section Quotient

theorem tells_div (k : Nat) {d : Nat} (hd : 0 < d) :
    Tells (k / d) (k / d : Nat) (accuracyOfFraction (k % d) d) := by
  have hd' : (0 : ℚ) < d := by exact_mod_cast hd
  have hk : (k : ℚ) = d * (k / d : Nat) + (k % d : Nat) := by
    exact_mod_cast (Nat.div_add_mod k d).symm
  have hv : (k : ℚ) / d = (k / d : Nat) + (k % d : Nat) / d := by
    rw [div_eq_iff hd'.ne',add_mul,div_mul_cancel₀ _ hd'.ne',mul_comm]
    exact hk
  unfold accuracyOfFraction
  by_cases h0 : k % d = 0
  · rw [if_pos h0]
    rw [h0,Nat.cast_zero,zero_div,add_zero] at hv
    exact hv
  · have hpos : (0 : ℚ) < (k % d : Nat) / d := div_pos (by exact_mod_cast Nat.pos_of_ne_zero h0) hd'
    have hlt : ((k % d : Nat) : ℚ) / d < 1 := (div_lt_one hd').mpr (by exact_mod_cast Nat.mod_lt k hd)
    rw [if_neg h0,hv]
    have hmono : StrictMono fun n : Nat => 2 * ((k / d : Nat) : ℚ) + n / d := fun a b hab =>
      add_lt_add_right (div_lt_div_of_pos_right (by exact_mod_cast hab) hd') _
    have hc : (compare (2 * (k % d)) d).Compares (2 * (k % d)) d := by
      rw [← cmp_eq_compare]
      exact cmp_compares _ _
    have h₁ : 2 * ((k / d : Nat) : ℚ) + (2 * (k % d) : Nat) / d =
        2 * ((k / d : Nat) + (k % d : Nat) / d) := by
      push_cast
      ring
    have h₂ : 2 * ((k / d : Nat) : ℚ) + d / d = 2 * (k / d : Nat) + 1 := by rw [div_self hd'.ne']
    have h := hmono.compares.mpr hc
    simp only [h₁,h₂] at h
    exact ⟨by linarith,by linarith,h⟩

theorem log2_le_log2_div {k d : Nat} (hk : k ≠ 0) (hd : 0 < d) :
    k.log2 ≤ d.log2 + 1 + (k / d).log2 := by
  refine Nat.lt_succ_iff.mp ((Nat.log2_lt hk).mpr ?_)
  calc
    k < d * (k / d + 1) := Nat.lt_mul_div_succ k hd
    _ ≤ 2 ^ (d.log2 + 1) * 2 ^ ((k / d).log2 + 1) :=
      Nat.mul_le_mul Nat.lt_log2_self.le Nat.lt_log2_self
    _ = 2 ^ (d.log2 + 1 + (k / d).log2 + 1) := (Nat.pow_add 2 _ _).symm

/-- The dividend is shifted as far as the quotient needs to have all bits that a double can hold. -/
theorem divCore_spec {m n : Nat} (hm : 0 < m) (hn : 0 < n) (e f : Int) :
    let r := divCore .binary64 m e n f
    r.2.1 ≤ Format.binary64.targetExponent (totalExponent r.1 r.2.1) ∧
      ∃ y : ℚ, Tells y r.1 r.2.2 ∧ y * 2 ^ r.2.1 = (m * 2 ^ e) / (n * 2 ^ f) := by
  unfold divCore
  dsimp only
  rw [targetExponent_eq,targetExponent_eq,totalExponent,totalExponent,totalExponent]
  generalize ht : min (e - f) (max (m.log2 + 1 + e - (n.log2 + 1 + f) - 53) (-1074)) = t
  rw [Nat.shiftLeft_eq]
  have hpos : m * 2 ^ (e - f - t).toNat ≠ 0 := by positivity
  have hm : m.log2 + (e - f - t).toNat ≤ (m * 2 ^ (e - f - t).toNat).log2 := by
    rw [Nat.le_log2 hpos,pow_add]
    exact Nat.mul_le_mul_right _ (Nat.log2_self_le hm.ne')
  have hn' := log2_le_log2_div hpos hn
  refine ⟨by omega,_,tells_div _ hn,?_⟩
  have hz : (2 : ℚ) ^ e = 2 ^ (e - f - t).toNat * 2 ^ t * 2 ^ f := by
    rw [← zpow_natCast,← zpow_add₀ (by norm_num),← zpow_add₀ (by norm_num)]
    congr 1
    omega
  rw [hz]
  push_cast
  field_simp

theorem rounds_div (s t : Sign) (b c : Binary) :
    let x := packed (UnpackedFloat.div .binary64 (.finite s b.mantissa b.exponent b.mantissa_pos)
      (.finite t c.mantissa c.exponent c.mantissa_pos))
    sign x = s / t ∧ Rounds (b.value / c.value) (number x) := by
  obtain ⟨he,y,hy,hv⟩ := divCore_spec b.mantissa_pos c.mantissa_pos b.exponent c.exponent
  have h := rounds_roundWithAccuracy (s / t) hy he
  rwa [hv] at h

theorem isNegative_of_sign {a b x : Double} (h : sign x = sign a / sign b) :
    x.isNegative = (a.isNegative ^^ b.isNegative) := by
  unfold sign at h
  cases hx : x.isNegative <;> cases ha : a.isNegative <;> cases hb : b.isNegative <;> simp_all

theorem isQuotient_of_nan {s : Bool} {m n : Magnitude} {q : Double} (h : m = .nan ∨ n = .nan)
    (hq : q.magnitude = .nan) : IsQuotient s m n q := by
  cases m <;> cases n <;> simp_all [IsQuotient]

theorem isQuotient_div (a b : Double) :
    IsQuotient (a.isNegative ^^ b.isNegative) a.magnitude b.magnitude (a.div b) := by
  have hnan : (packed .notANumber).magnitude = .nan :=
    magnitude_eq_nan_iff.mpr infinite_lt_number_packed
  obtain ⟨hsi,hni⟩ := packed_infinity (a.sign / b.sign)
  obtain ⟨hsz,hnz⟩ := packed_zero (a.sign / b.sign)
  have hinf := And.intro (magnitude_eq_infinite_iff.mpr hni) (isNegative_of_sign hsi)
  have hzero := And.intro (magnitude_eq_zero_iff.mpr hnz) (isNegative_of_sign hsz)
  by_cases hab : a.magnitude = .nan ∨ b.magnitude = .nan
  · exact isQuotient_of_nan hab (magnitude_lift_of_nan _ hab)
  · obtain ⟨ha,hb⟩ := not_or.mp hab
    rw [div,lift_eq_packed _ ha hb]
    cases form a with
    | nan hn hu hm => exact absurd hm ha
    | infinity hn hu hm =>
      cases form b with
      | nan hn' hu' hm' => exact absurd hm' hb
      | infinity hn' hu' hm' =>
        rw [hu,hm,hu',hm']
        exact hnan
      | zero hn' hu' hm' | finite c hpos hlt hu' hm' hc =>
        rw [hu,hm,hu',hm']
        exact hinf
    | zero hn hu hm =>
      cases form b with
      | nan hn' hu' hm' => exact absurd hm' hb
      | zero hn' hu' hm' =>
        rw [hu,hm,hu',hm']
        exact hnan
      | infinity hn' hu' hm' | finite c hpos hlt hu' hm' hc =>
        rw [hu,hm,hu',hm']
        exact hzero
    | finite c hpos hlt hu hm hc =>
      cases form b with
      | nan hn' hu' hm' => exact absurd hm' hb
      | infinity hn' hu' hm' =>
        rw [hu,hm,hu',hm']
        exact hzero
      | zero hn' hu' hm' =>
        rw [hu,hm,hu',hm']
        exact hinf
      | finite d hpos' hlt' hu' hm' hd =>
        obtain ⟨hs,hr⟩ := rounds_div a.sign b.sign c d
        rw [hu,hm,hu',hm']
        exact ⟨isNegative_of_sign hs,hr⟩

end Quotient

section Negation

variable {x y q r : Double} {s : Bool} {m n : Magnitude}

/-- Two quotients of the same numbers are the same, though they may be other patterns of no number. -/
theorem IsQuotient.same (h : IsQuotient s m n q) (h' : IsQuotient s m n r) : q.same r = true := by
  have hnan (hq : q.magnitude = .nan) (hr : r.magnitude = .nan) : q.same r = true :=
    same_iff.mpr (.inr ⟨hq,hr⟩)
  have hsigned {k : Magnitude} (hq : q.magnitude = k ∧ q.isNegative = s)
      (hr : r.magnitude = k ∧ r.isNegative = s) (hk : k ≠ .nan) : q.same r = true :=
    same_iff.mpr (.inl (eq_of_magnitude_eq (hq.1 ▸ hk) (hq.1.trans hr.1.symm) (hq.2.trans hr.2.symm)))
  exact match m, n, h, h' with
  | .nan, _, h, h' | .infinite, .nan, h, h' | .zero, .nan, h, h' | .finite _, .nan, h, h'
  | .zero, .zero, h, h' | .infinite, .infinite, h, h' => hnan h h'
  | .infinite, .zero, h, h' | .infinite, .finite _, h, h' | .finite _, .zero, h, h' => hsigned h h' nofun
  | .zero, .infinite, h, h' | .zero, .finite _, h, h' | .finite _, .infinite, h, h' => hsigned h h' nofun
  | .finite _, .finite _, h, h' => same_iff.mpr (.inl (RoundsTo.unique h h'))

theorem IsQuotient.by_zero (h : IsQuotient s m .zero q) :
    (q.magnitude = .nan ↔ m = .nan ∨ m = .zero) ∧
    (q.magnitude ≠ .nan → q.magnitude = .infinite ∧ q.isNegative = s) := by
  cases m with
  | nan | zero =>
    have h : q.magnitude = .nan := h
    simp [h]
  | infinite | finite b =>
    have h : q.magnitude = .infinite ∧ q.isNegative = s := h
    simp [h]

theorem RoundsTo.neg {p : ℚ} (h : RoundsTo s p q) : RoundsTo (!s) p q.neg :=
  ⟨by rw [isNegative_neg,h.1],by rw [number_neg]; exact h.2⟩

theorem IsQuotient.neg (h : IsQuotient s m n q) : IsQuotient (!s) m n q.neg := by
  have hnan (hq : q.magnitude = .nan) : q.neg.magnitude = .nan := (magnitude_neg q).trans hq
  have hsigned {k : Magnitude} (hq : q.magnitude = k ∧ q.isNegative = s) :
      q.neg.magnitude = k ∧ q.neg.isNegative = !s :=
    ⟨(magnitude_neg q).trans hq.1,by rw [isNegative_neg,hq.2]⟩
  exact match m, n, h with
  | .nan, _, h | .infinite, .nan, h | .zero, .nan, h | .finite _, .nan, h
  | .zero, .zero, h | .infinite, .infinite, h => hnan h
  | .infinite, .zero, h | .infinite, .finite _, h | .finite _, .zero, h => hsigned h
  | .zero, .infinite, h | .zero, .finite _, h | .finite _, .infinite, h => hsigned h
  | .finite _, .finite _, h => RoundsTo.neg h

end Negation

section Signs

theorem infinite_of_signedOne (a b : Double) :
    (((signedOne a).mul (signedOne b)).mul infinity).magnitude = .infinite ∧
      (((signedOne a).mul (signedOne b)).mul infinity).isNegative = (a.isNegative ^^ b.isNegative) := by
  rw [magnitude_eq_infinite_iff]
  unfold signedOne
  cases a.isNegative <;> cases b.isNegative <;> decide

theorem quotient_of_ne_zero (a : Double) {b : Double} (hb : b.magnitude ≠ .zero) :
    quotient a b = a.div b := by
  rw [quotient,if_neg (by rwa [eqv_zero_iff,← magnitude_eq_zero_iff])]

/-- Division of the language keeps to the table. The signs are looked at only of dividends that are a number and
no zero. -/
theorem isQuotient_quotient (a b : Double) :
    IsQuotient (a.isNegative ^^ b.isNegative) a.magnitude b.magnitude (quotient a b) := by
  by_cases hb : b.magnitude = .zero
  · have hnan : notANumber.magnitude = .nan := magnitude_eq_nan_iff.mpr (by decide)
    have ha : (a.eqv zero || a.isNaN) = true ↔ a.magnitude = .zero ∨ a.magnitude = .nan := by
      rw [Bool.or_eq_true,eqv_zero_iff,isNaN_iff,magnitude_eq_zero_iff]
    rw [quotient,if_pos (eqv_zero_iff.mpr (magnitude_eq_zero_iff.mp hb)),hb]
    cases form a with
    | nan hn hu hm =>
      rw [if_pos (ha.mpr (.inr hm)),hm]
      exact hnan
    | zero hn hu hm =>
      rw [if_pos (ha.mpr (.inl hm)),hm]
      exact hnan
    | infinity hn hu hm =>
      rw [if_neg (by rw [ha,hm]; simp),hm]
      exact infinite_of_signedOne a b
    | finite c hpos hlt hu hm hc =>
      rw [if_neg (by rw [ha,hm]; simp),hm]
      exact infinite_of_signedOne a b
  · rw [quotient_of_ne_zero a hb]
    exact isQuotient_div a b

theorem quotient_neg (a b : Double) :
    (quotient a.neg b).same (quotient a b.neg) = true ∧
    (quotient a.neg b).same (quotient a b).neg = true ∧
    (quotient a b.neg).same (quotient a b).neg = true := by
  have h := (isQuotient_quotient a b).neg
  have h₁ := isQuotient_quotient a.neg b
  have h₂ := isQuotient_quotient a b.neg
  rw [isNegative_neg,magnitude_neg,Bool.not_xor] at h₁
  rw [isNegative_neg,magnitude_neg,Bool.xor_not] at h₂
  exact ⟨h₁.same h₂,h₁.same h,h₂.same h⟩

end Signs

end Double

namespace Expr

open Double

variable {slash minus : Token} {here : ScopeId} {F G H : Forest} {l r : Expr} {a b : Double}

theorem eval_divide (ho : slash.kind = .slash) (hl : l.eval here F = ⟨.ok (.number a),G⟩)
    (hr : r.eval here G = ⟨.ok (.number b),H⟩) :
    (binary l slash r).eval here F = ⟨.ok (.number (quotient a b)),H⟩ := by
  rw [eval,hl,Evaluation.andThen_ok,hr,Evaluation.andThen_ok,Token.binary,ho]
  rfl

theorem eval_negate (hm : minus.kind = .minus) (hr : r.eval here F = ⟨.ok (.number a),G⟩) :
    (unary minus r).eval here F = ⟨.ok (.number a.neg),G⟩ := by
  rw [eval,hr,Evaluation.andThen_ok,Token.unary,hm]
  rfl

/-- Two numbers always have a quotient: the exact one rounded, if both are finite and none is a zero. Divided by a
zero, a number gives no number if it is none or a zero, whatever its sign and payload, and otherwise the infinity
that has the sign of the two together. Divided by anything else, it gives what the arithmetic of doubles gives. It
makes no difference whether one negates the dividend, the divisor or the quotient. -/
theorem division_total (hs : slash.kind = .slash) (hm : minus.kind = .minus)
    (hl : l.eval here F = ⟨.ok (.number a),G⟩) (hr : r.eval here G = ⟨.ok (.number b),H⟩) :
    ∃ q, (binary l slash r).eval here F = ⟨.ok (.number q),H⟩ ∧
      IsQuotient (a.isNegative ^^ b.isNegative) a.magnitude b.magnitude q ∧
      (b.magnitude = .zero →
        (q.magnitude = .nan ↔ a.magnitude = .nan ∨ a.magnitude = .zero) ∧
        (q.magnitude ≠ .nan →
          q.magnitude = .infinite ∧ q.isNegative = (a.isNegative ^^ b.isNegative))) ∧
      (b.magnitude ≠ .zero → q = a.div b) ∧
      ∃ q₁ q₂ q₃ : Value,
        (binary (unary minus l) slash r).eval here F = ⟨.ok q₁,H⟩ ∧
        (binary l slash (unary minus r)).eval here F = ⟨.ok q₂,H⟩ ∧
        (unary minus (binary l slash r)).eval here F = ⟨.ok q₃,H⟩ ∧
        q₁.same q₂ = true ∧ q₁.same q₃ = true ∧ q₂.same q₃ = true := by
  have hq := eval_divide hs hl hr
  have hquot := isQuotient_quotient a b
  refine ⟨_,hq,hquot,fun hb => ?_,quotient_of_ne_zero a,_,_,_,eval_divide hs (eval_negate hm hl) hr,
    eval_divide hs hl (eval_negate hm hr),eval_negate hm hq,quotient_neg a b⟩
  rw [hb] at hquot
  exact hquot.by_zero

/-- The least double below zero is divided by either zero, and so are two patterns of no number of either sign. -/
theorem division_total_subnormal :
    let slash : Token := ⟨.slash,"/",1,none⟩
    let minus : Token := ⟨.minus,"-",1,none⟩
    let x : Expr := .literal (.number ⟨0x8000000000000001⟩) none
    let m : Expr := .literal (.number ⟨0xfff8000000000001⟩) none
    let n : Expr := .literal (.number ⟨0x7ff0000000000002⟩) none
    let z : Expr := .literal (.number ⟨0⟩) none
    let z' : Expr := .literal (.number ⟨0x8000000000000000⟩) none
    (∃ q, (binary x slash z).eval 0 {} = ⟨.ok (.number q),{}⟩ ∧ q.magnitude = .infinite ∧
      q.isNegative = true) ∧
    (∃ q, (binary x slash z').eval 0 {} = ⟨.ok (.number q),{}⟩ ∧ q.magnitude = .infinite ∧
      q.isNegative = false) ∧
    (∃ q, (binary m slash z').eval 0 {} = ⟨.ok (.number q),{}⟩ ∧ q.magnitude = .nan) ∧
    (∃ q, (binary n slash z).eval 0 {} = ⟨.ok (.number q),{}⟩ ∧ q.magnitude = .nan) ∧
    ∃ q₁ q₂ : Value, (binary (unary minus x) slash z).eval 0 {} = ⟨.ok q₁,{}⟩ ∧
      (binary x slash (unary minus z)).eval 0 {} = ⟨.ok q₂,{}⟩ ∧ q₁.same q₂ = true := by
  intro slash minus x m n z z'
  have h (a b : Double) := @division_total slash minus 0 {} {} {} (.literal (.number a) none)
    (.literal (.number b) none) a b rfl rfl rfl rfl
  have hzero {b : Double} (hb : b.number = 0) : b.magnitude = .zero := magnitude_eq_zero_iff.mpr hb
  have hnan {a : Double} (ha : infinite < a.number) : a.magnitude = .nan := magnitude_eq_nan_iff.mpr ha
  have hx : ¬((Double.mk 0x8000000000000001).magnitude = .nan ∨
      (Double.mk 0x8000000000000001).magnitude = .zero) := by
    rw [magnitude_eq_nan_iff,magnitude_eq_zero_iff]
    decide
  obtain ⟨q,hq,_,hz,_,q₁,q₂,_,h₁,h₂,_,hsame,_⟩ := h ⟨0x8000000000000001⟩ ⟨0⟩
  obtain ⟨q',hq',_,hz',_⟩ := h ⟨0x8000000000000001⟩ ⟨0x8000000000000000⟩
  obtain ⟨p,hp,_,hpz,_⟩ := h ⟨0xfff8000000000001⟩ ⟨0x8000000000000000⟩
  obtain ⟨p',hp',_,hpz',_⟩ := h ⟨0x7ff0000000000002⟩ ⟨0⟩
  obtain ⟨hiff,hi⟩ := hz (hzero (by decide))
  obtain ⟨hiff',hi'⟩ := hz' (hzero (by decide))
  have hinf := hi (mt hiff.mp hx)
  have hinf' := hi' (mt hiff'.mp hx)
  exact ⟨⟨q,hq,hinf.1,hinf.2.trans (by decide)⟩,⟨q',hq',hinf'.1,hinf'.2.trans (by decide)⟩,
    ⟨p,hp,(hpz (hzero (by decide))).1.mpr (.inl (hnan (by decide)))⟩,
    ⟨p',hp',(hpz' (hzero (by decide))).1.mpr (.inl (hnan (by decide)))⟩,q₁,q₂,h₁,h₂,hsame⟩

end Expr
end ScriptEval
