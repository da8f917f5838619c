import ScriptEval.Proofs.Unpacking

/-! The points of the doubles. Every double but those that are no numbers stands for a point of the line of the
rationals with an infinity at either end, and doubles are compared as their points are. With the sign the point
tells the double. -/
namespace ScriptEval.Double

open Float.Model

abbrev Line := WithBot (WithTop ℚ)

def Line.ofRat (q : ℚ) : Line := ((q : WithTop ℚ) : Line)

/-- The point that a double stands for; none if it is no number. -/
def point? (x : Double) : Option Line :=
  match x.magnitude with
  | .nan => none
  | .infinite => some (if x.isNegative then ⊥ else ⊤)
  | .zero => some (.ofRat 0)
  | .finite b => some (.ofRat ((if x.isNegative then -1 else 1) * (b.mantissa * 2 ^ b.exponent)))

section Line

variable {p q : ℚ}

theorem Line.ofRat_lt : Line.ofRat p < .ofRat q ↔ p < q := by simp [Line.ofRat]

theorem Line.ofRat_le : Line.ofRat p ≤ .ofRat q ↔ p ≤ q := by simp [Line.ofRat]

theorem Line.ofRat_injective (h : Line.ofRat p = .ofRat q) : p = q := by simpa [Line.ofRat] using h

theorem Line.bot_lt_ofRat : ⊥ < Line.ofRat q := WithBot.bot_lt_coe _

theorem Line.ofRat_lt_top : Line.ofRat q < ⊤ := WithBot.coe_lt_coe.mpr (WithTop.coe_lt_top q)

theorem Line.compares_ofRat {o : Ordering} (h : o.Compares p q) :
    o.Compares (Line.ofRat p) (Line.ofRat q) := by
  cases o with
  | lt => exact ofRat_lt.mpr h
  | eq => exact congrArg ofRat h
  | gt => exact ofRat_lt.mpr h

theorem compares_neg {o : Ordering} (h : o.Compares p q) : o.swap.Compares (-p) (-q) := by
  cases o with
  | lt => exact neg_lt_neg h
  | eq => exact congrArg Neg.neg h
  | gt => exact neg_lt_neg h

end Line

/-- Of two numbered doubles the one with the smaller number has the smaller exponent, or the same exponent and
the smaller significand. -/
theorem exponent_lt_or_significand_lt {m n : Nat} (h : m < n) : exponent m < exponent n ∨
    exponent m = exponent n ∧ significand m < significand n := by
  unfold exponent significand
  split_ifs <;> omega

theorem value_pos {n : Nat} (h : 0 < n) : 0 < value n := value_zero ▸ strictMono_value h

theorem compares_value (m n : Nat) :
    ((compare (exponent m) (exponent n)).then (compare (significand m) (significand n))).Compares
      (value m) (value n) := by
  rcases Nat.lt_trichotomy m n with h | rfl | h
  · have hv := strictMono_value h
    rcases exponent_lt_or_significand_lt h with he | ⟨he,hs⟩
    · rwa [compare_lt_iff_lt.mpr he]
    · rwa [compare_eq_iff_eq.mpr he,compare_lt_iff_lt.mpr hs]
  · rw [compare_eq_iff_eq.mpr rfl,compare_eq_iff_eq.mpr rfl]
    exact rfl
  · have hv := strictMono_value h
    rcases exponent_lt_or_significand_lt h with he | ⟨he,hs⟩
    · rwa [compare_gt_iff_gt.mpr he]
    · rwa [compare_eq_iff_eq.mpr he.symm,compare_gt_iff_gt.mpr hs]

open UnpackedFloat (Sign)

def signed (s : Sign) (q : ℚ) : ℚ :=
  match s with
  | .negative => -q
  | .positive => q

theorem signed_injective (s : Sign) {p q : ℚ} (h : signed s p = signed s q) : p = q := by
  cases s
  · exact neg_injective h
  · exact h

def limit (s : Sign) : Line :=
  match s with
  | .negative => ⊥
  | .positive => ⊤

theorem limit_ne_ofRat (s : Sign) (q : ℚ) : limit s ≠ .ofRat q := by
  cases s
  · exact ne_of_lt Line.bot_lt_ofRat
  · exact ne_of_gt Line.ofRat_lt_top

inductive Stands : UnpackedFloat → Option Line → Prop
  | nan : Stands .notANumber none
  | infinity (s : Sign) : Stands (.infinity s) (some (limit s))
  | zero (s : Sign) : Stands (.zero s) (some (.ofRat 0))
  | finite (s : Sign) {m n : Nat} {e : Int} (hm : 0 < m) (hn : 0 < n) (hs : m = significand n)
      (he : e = exponent n) : Stands (.finite s m e hm) (some (.ofRat (signed s (value n))))

theorem Stands.compare_eq_none {u v : UnpackedFloat} {o o' : Option Line} (hu : Stands u o)
    (hv : Stands v o') (h : o = none ∨ o' = none) : u.compare v = none := by
  rcases h with rfl | rfl
  · cases hu
    rfl
  · cases hv
    cases u <;> rfl

/-- Doubles in parts are compared as the points are that they stand for. Where the signs do not decide, both
are finite and have the same sign, and the values do. -/
theorem Stands.exists_compares {u v : UnpackedFloat} {p q : Line} (hu : Stands u (some p))
    (hv : Stands v (some q)) : ∃ o, u.compare v = some o ∧ o.Compares p q := by
  cases hu with
  | infinity s =>
    cases hv with
    | infinity t =>
      cases s <;> cases t
      · exact ⟨_,rfl,rfl⟩
      · exact ⟨_,rfl,bot_lt_top⟩
      · exact ⟨_,rfl,bot_lt_top⟩
      · exact ⟨_,rfl,rfl⟩
    | zero t | finite t hm hn hs he =>
      cases s
      · exact ⟨_,rfl,Line.bot_lt_ofRat⟩
      · exact ⟨_,rfl,Line.ofRat_lt_top⟩
  | zero s =>
    cases hv with
    | infinity t =>
      cases t
      · exact ⟨_,rfl,Line.bot_lt_ofRat⟩
      · exact ⟨_,rfl,Line.ofRat_lt_top⟩
    | zero t => exact ⟨_,rfl,rfl⟩
    | finite t hm hn hs he =>
      have hv := value_pos hn
      cases t
      · exact ⟨_,rfl,Line.ofRat_lt.mpr (neg_neg_of_pos hv)⟩
      · exact ⟨_,rfl,Line.ofRat_lt.mpr hv⟩
  | @finite s m n e hm hn hs he =>
    have hpos := value_pos hn
    cases hv with
    | infinity t =>
      cases t
      · exact ⟨_,rfl,Line.bot_lt_ofRat⟩
      · exact ⟨_,rfl,Line.ofRat_lt_top⟩
    | zero t =>
      cases s
      · exact ⟨_,rfl,Line.ofRat_lt.mpr (neg_neg_of_pos hpos)⟩
      · exact ⟨_,rfl,Line.ofRat_lt.mpr hpos⟩
    | @finite t m' n' e' hm' hn' hs' he' =>
      have hpos' := value_pos hn'
      have hc := compares_value n n'
      rw [← hs,← hs',← he,← he'] at hc
      cases s <;> cases t
      · exact ⟨_,rfl,Line.compares_ofRat (compares_neg hc)⟩
      · exact ⟨_,rfl,Line.ofRat_lt.mpr ((neg_neg_of_pos hpos).trans hpos')⟩
      · exact ⟨_,rfl,Line.ofRat_lt.mpr ((neg_neg_of_pos hpos').trans hpos)⟩
      · exact ⟨_,rfl,Line.compares_ofRat hc⟩

section Point

variable {x : Double}

theorem point?_eq_none_iff : point? x = none ↔ x.magnitude = .nan := by
  unfold point?
  cases x.magnitude <;> simp

theorem point?_of_eq_infinite (h : x.number = infinite) : point? x = some (limit x.sign) := by
  rw [point?,magnitude_eq_infinite_iff.mpr h]
  unfold limit sign
  split_ifs <;> rfl

@[simp] theorem signed_zero (s : Sign) : signed s 0 = 0 := by cases s <;> simp [signed]

theorem point?_of_lt_infinite (h : x.number < infinite) :
    point? x = some (.ofRat (signed x.sign (value x.number))) := by
  unfold point?
  cases form x with
  | nan hn hu hm => exact absurd h (Nat.lt_asymm hn)
  | infinity hn hu hm => exact absurd hn h.ne
  | zero hn hu hm => rw [hm,hn,value_zero,signed_zero]
  | finite b hpos hlt hu hm hb =>
    rw [hm,value,ulp,← hb.mantissa_eq,← hb.exponent_eq]
    unfold signed sign
    split_ifs <;> simp

/-- The parts of a double stand for its point. -/
theorem stands_unpacked (x : Double) : Stands x.unpacked (point? x) := by
  cases form x with
  | nan hn hu hm =>
    rw [hu,point?_eq_none_iff.mpr hm]
    exact .nan
  | infinity hn hu hm =>
    rw [hu,point?_of_eq_infinite hn]
    exact .infinity _
  | zero hn hu hm =>
    have hlt : x.number < infinite := by
      rw [hn]
      decide
    rw [hu,point?_of_lt_infinite hlt,hn,value_zero,signed_zero]
    exact .zero _
  | finite b hpos hlt hu hm hb =>
    rw [hu,point?_of_lt_infinite hlt]
    exact .finite _ _ hpos hb.mantissa_eq hb.exponent_eq

end Point

section Comparison

variable {a b : Double} {p q : Line}

theorem compare_eq_none (h : point? a = none ∨ point? b = none) : a.compare b = none :=
  (stands_unpacked a).compare_eq_none (stands_unpacked b) h

theorem exists_compares (ha : point? a = some p) (hb : point? b = some q) :
    ∃ o, a.compare b = some o ∧ o.Compares p q :=
  (ha ▸ stands_unpacked a).exists_compares (hb ▸ stands_unpacked b)

theorem lt_iff (ha : point? a = some p) (hb : point? b = some q) : a.lt b = true ↔ p < q := by
  obtain ⟨o,ho,hc⟩ := exists_compares ha hb
  rw [lt,ho,beq_iff_eq,Option.some.injEq]
  exact hc.eq_lt

theorem eqv_iff (ha : point? a = some p) (hb : point? b = some q) : a.eqv b = true ↔ p = q := by
  obtain ⟨o,ho,hc⟩ := exists_compares ha hb
  rw [eqv,ho,beq_iff_eq,Option.some.injEq]
  exact hc.eq_eq

theorem le_iff (ha : point? a = some p) (hb : point? b = some q) : a.le b = true ↔ p ≤ q := by
  obtain ⟨o,ho,hc⟩ := exists_compares ha hb
  rw [le,ho,Option.any_some,Ordering.isLE_iff_ne_gt,hc.eq_gt,not_lt]

theorem not_lt_of_none (h : point? a = none ∨ point? b = none) : ¬a.lt b = true := by
  simp [lt,compare_eq_none h]

theorem not_le_of_none (h : point? a = none ∨ point? b = none) : ¬a.le b = true := by
  simp [le,compare_eq_none h]

theorem not_eqv_of_none (h : point? a = none ∨ point? b = none) : ¬a.eqv b = true := by
  simp [eqv,compare_eq_none h]

theorem not_lt_of_swap_le (h : b.le a = true) : ¬a.lt b = true := by
  cases ha : point? a with
  | none => exact not_lt_of_none (.inl ha)
  | some p =>
    cases hb : point? b with
    | none => exact not_lt_of_none (.inr hb)
    | some q =>
      rw [lt_iff ha hb,not_lt]
      exact (le_iff hb ha).mp h

theorem compares_number (ha : a.isNegative = false) (hb : b.isNegative = false)
    (hna : a.number < infinite) (hnb : b.number < infinite) :
    (a.lt b = true ↔ a.number < b.number) ∧ (a.le b = true ↔ a.number ≤ b.number) ∧
      (a.eqv b = true ↔ a.number = b.number) := by
  have hpa := point?_of_lt_infinite hna
  have hpb := point?_of_lt_infinite hnb
  have hsa : a.sign = .positive := by rw [sign,ha]; rfl
  have hsb : b.sign = .positive := by rw [sign,hb]; rfl
  rw [hsa] at hpa
  rw [hsb] at hpb
  rw [lt_iff hpa hpb,le_iff hpa hpb,eqv_iff hpa hpb,← strictMono_value.lt_iff_lt,
    ← strictMono_value.le_iff_le,← strictMono_value.injective.eq_iff]
  exact ⟨Line.ofRat_lt,Line.ofRat_le,⟨Line.ofRat_injective,congrArg Line.ofRat⟩⟩

theorem eqv_zero_iff : a.eqv zero = true ↔ a.number = 0 := by
  have hz : point? zero = some (.ofRat 0) := rfl
  cases form a with
  | nan hn hu hm =>
    exact iff_of_false (not_eqv_of_none (.inl (point?_eq_none_iff.mpr hm))) (Nat.zero_lt_of_lt hn).ne'
  | infinity hn hu hm =>
    rw [eqv_iff (point?_of_eq_infinite hn) hz,hn]
    exact iff_of_false (limit_ne_ofRat _ _) (by decide)
  | zero hn hu hm =>
    rw [eqv_iff (point?_of_lt_infinite (by rw [hn]; decide)) hz,hn,value_zero,signed_zero]
    exact iff_of_true rfl rfl
  | finite b hpos hlt hu hm hb =>
    rw [eqv_iff (point?_of_lt_infinite hlt) hz]
    refine iff_of_false (fun h => (value_pos hpos).ne' ?_) hpos.ne'
    exact signed_injective a.sign ((Line.ofRat_injective h).trans (signed_zero _).symm)

theorem lt_zero_iff (hpos : 0 < a.number) (hlt : a.number < infinite) :
    a.lt zero = true ↔ a.isNegative = true := by
  have hz : point? zero = some (.ofRat 0) := rfl
  have hv := value_pos hpos
  rw [lt_iff (point?_of_lt_infinite hlt) hz,Line.ofRat_lt]
  unfold sign signed
  cases a.isNegative with
  | false => simpa using le_of_lt hv
  | true => simpa using hv

theorem zero_lt_iff_of_infinite (h : a.number = infinite) : zero.lt a = true ↔ a.isNegative = false := by
  have hz : point? zero = some (.ofRat 0) := rfl
  rw [lt_iff hz (point?_of_eq_infinite h)]
  unfold sign
  cases a.isNegative with
  | false => exact iff_of_true Line.ofRat_lt_top rfl
  | true => exact iff_of_false (not_lt_of_gt Line.bot_lt_ofRat) Bool.noConfusion

theorem number_eq_of_point?_eq (hs : a.isNegative = b.isNegative) (ha : point? a = some p)
    (hb : point? b = some p) : a.number = b.number := by
  have hsign : a.sign = b.sign := by rw [sign,sign,hs]
  have hle {x : Double} (hx : point? x = some p) : x.number < infinite ∨ x.number = infinite := by
    refine Nat.lt_or_eq_of_le (Nat.le_of_not_lt fun hlt => ?_)
    rw [point?_eq_none_iff.mpr (magnitude_eq_nan_iff.mpr hlt)] at hx
    cases hx
  rcases hle ha with hna | hna <;> rcases hle hb with hnb | hnb
  · rw [point?_of_lt_infinite hna] at ha
    rw [point?_of_lt_infinite hnb,← ha,hsign] at hb
    refine strictMono_value.injective (signed_injective b.sign (Line.ofRat_injective ?_))
    exact (Option.some.inj hb).symm
  · rw [point?_of_lt_infinite hna] at ha
    rw [point?_of_eq_infinite hnb,← ha] at hb
    exact absurd (Option.some.inj hb) (limit_ne_ofRat _ _)
  · rw [point?_of_lt_infinite hnb] at hb
    rw [point?_of_eq_infinite hna,← hb] at ha
    exact absurd (Option.some.inj ha) (limit_ne_ofRat _ _)
  · rw [hna,hnb]

/-- Doubles are the same if they are one double, or if both are no numbers at all. -/
theorem same_iff : a.same b = true ↔ a = b ∨ (a.magnitude = .nan ∧ b.magnitude = .nan) := by
  unfold same
  by_cases hna : a.magnitude = .nan
  · rw [if_pos (isNaN_iff.mpr hna),isNaN_iff]
    constructor
    · intro hnb
      exact .inr ⟨hna,hnb⟩
    · rintro (rfl | ⟨_,hnb⟩)
      · exact hna
      · exact hnb
  · rw [if_neg (mt isNaN_iff.mp hna),Bool.and_eq_true,beq_iff_eq]
    obtain ⟨p,ha⟩ := Option.ne_none_iff_exists'.mp (mt point?_eq_none_iff.mp hna)
    constructor
    · rintro ⟨he,hs⟩
      cases hb : point? b with
      | none => exact absurd he (not_eqv_of_none (.inr hb))
      | some q =>
        obtain rfl := (eqv_iff ha hb).mp he
        exact .inl (eq_of_number_eq hs (number_eq_of_point?_eq hs ha hb))
    · rintro (rfl | ⟨hnan,_⟩)
      · exact ⟨(eqv_iff ha ha).mpr rfl,rfl⟩
      · exact absurd hnan hna

theorem same_iff_bits :
    a.same b = true ↔ a.bits = b.bits ∨ (a.magnitude = .nan ∧ b.magnitude = .nan) :=
  same_iff.trans (or_congr_left ⟨congrArg bits,congrArg mk⟩)

/-- Doubles are the same if they are no numbers, or if neither is greater and they have one sign. -/
theorem same_iff_le : a.same b = true ↔ (point? a = none ∧ point? b = none) ∨
    (a.le b = true ∧ b.le a = true ∧ a.isNegative = b.isNegative) := by
  unfold same
  cases ha : point? a with
  | none =>
    rw [if_pos (isNaN_iff.mpr (point?_eq_none_iff.mp ha)),isNaN_iff,← point?_eq_none_iff]
    simp [not_le_of_none (.inl ha)]
  | some p =>
    have hna : ¬a.isNaN = true := by
      rw [isNaN_iff,← point?_eq_none_iff,ha]
      simp
    rw [if_neg hna,Bool.and_eq_true,beq_iff_eq]
    cases hb : point? b with
    | none => simp [not_eqv_of_none (.inr hb),not_le_of_none (.inr hb)]
    | some q => simp [eqv_iff ha hb,le_iff ha hb,le_iff hb ha,le_antisymm_iff,and_assoc]

end Comparison

end ScriptEval.Double
