import ScriptEval.Proofs.ReadBack

/-! The one text that a printed number has. It stands for the decimal that is listed too, but it is laid out
without superfluous zeros: digits with perhaps a point in the middle range, a digit with an exponent else. -/
namespace ScriptEval

namespace Numeral

structure Whole (ws : List Char) : Prop where
  isDigit : ∀ c ∈ ws, c.isDigit
  ne_nil : ws ≠ []
  front : ws.head? = some '0' → ws = ['0']

structure Fraction (ps : List Char) : Prop where
  isDigit : ∀ c ∈ ps, c.isDigit
  ne_nil : ps ≠ []
  back : ps.getLast? ≠ some '0'

/-- Digits, with a point and more digits behind them when the number is not whole. -/
def Positional (whole : Prop) (text : List Char) : Prop :=
  (whole ∧ Whole text) ∨ (¬whole ∧ ∃ ws ps, text = ws ++ '.' :: ps ∧ Whole ws ∧ Fraction ps)

/-- The exponent of a number that is not written positionally: far from zero, without a plus sign. -/
def FarExponent (text : List Char) : Prop :=
  ∃ ws k, Whole ws ∧ natural? ws = some k ∧ (text = ws ∧ 7 ≤ k ∨ text = '-' :: ws ∧ 4 ≤ k)

/-- A digit other than zero, a point and digits, and an exponent. A sole digit behind the point may be
a zero. -/
def Scientific (text : List Char) : Prop :=
  ∃ c ps es, text = c :: '.' :: (ps ++ 'E' :: es) ∧ c.isDigit ∧ c ≠ '0' ∧
    (Fraction ps ∨ ps = ['0']) ∧ FarExponent es

/-- The layout of a number of the value `v`, its sign aside. -/
def Canonical (v : ℚ) (text : List Char) : Prop :=
  if v = 0 ∨ 10 ^ (-3 : Int) ≤ v ∧ v < 10 ^ (7 : Int) then Positional (∃ m : Nat, v = m) text
  else Scientific text

variable {n : Nat}

theorem whole_toDigits (n : Nat) : Whole (Nat.toDigits 10 n) where
  isDigit := isDigit_of_mem_toDigits
  ne_nil := Nat.toDigits_ne_nil
  front h := by
    rcases Nat.eq_zero_or_pos n with rfl | hpos
    · exact Nat.toDigits_zero 10
    · exact absurd h (head?_toDigits hpos)

end Numeral

namespace Layout

open Numeral

variable {d : Decimal}

theorem whole_plain (hd : 0 < d.digits) (he : 0 ≤ d.exponent) : Whole (print.plain d) := by
  have hp : print.plain d =
      Nat.toDigits 10 d.digits ++ List.replicate d.exponent.toNat '0' := by
    rw [plain,if_pos he]
    exact List.append_nil _
  rw [hp]
  refine ⟨List.forall_mem_append.mpr ⟨isDigit_of_mem_toDigits,isDigit_of_mem_zeros⟩,
    by simp [Nat.toDigits_ne_nil],fun h => ?_⟩
  rw [List.head?_append_of_ne_nil _ Nat.toDigits_ne_nil] at h
  exact absurd h (head?_toDigits hd)

theorem whole_take_padded {n : Nat} (hn : 0 < n) (p : Nat) :
    Whole ((padded 10 (p + 1) n).take ((padded 10 (p + 1) n).length - p)) := by
  have hlen := length_padded 10 (p + 1) n
  refine ⟨fun c hc => isDigit_of_mem_padded c (List.mem_of_mem_take hc),?_,fun h0 => ?_⟩
  · exact List.ne_nil_of_length_pos (by rw [List.length_take]; omega)
  · rw [List.head?_take,if_neg (by omega)] at h0
    by_cases hone : (Nat.toDigits 10 n).length ≤ p + 1
    · obtain ⟨cs,hcs⟩ := List.head?_eq_some_iff.mp h0
      have htake : (padded 10 (p + 1) n).length - p = 1 := by omega
      rw [htake,hcs,List.take_succ_cons,List.take_zero]
    · rw [padded_of_le (by omega)] at h0
      exact absurd h0 (head?_toDigits hn)

theorem fraction_drop_padded {n p : Nat} (hn : n % 10 ≠ 0) (hp : 0 < p) :
    Fraction ((padded 10 (p + 1) n).drop ((padded 10 (p + 1) n).length - p)) where
  isDigit c hc := isDigit_of_mem_padded c (List.mem_of_mem_drop hc)
  ne_nil := drop_padded_ne_nil hp
  back := getLast?_drop_padded hn hp

theorem exists_plain_point (hd : d.digits % 10 ≠ 0) (he : d.exponent < 0) :
    ∃ ws ps, print.plain d = ws ++ '.' :: ps ∧ Whole ws ∧ Fraction ps := by
  rw [plain,if_neg (not_le_of_gt he)]
  exact ⟨_,_,rfl,whole_take_padded (by omega) _,fraction_drop_padded hd (by omega)⟩

theorem scientific_scientific (hd : d.digits % 10 ≠ 0) (hl : d.leading < -3 ∨ 7 ≤ d.leading) :
    Scientific (print.scientific d) := by
  have hpad : padded 10 1 d.leading.natAbs = Nat.toDigits 10 d.leading.natAbs :=
    padded_of_le Nat.length_toDigits_pos
  have hexp : FarExponent ((if d.leading < 0 then ['-'] else []) ++ padded 10 1 d.leading.natAbs) := by
    refine ⟨_,d.leading.natAbs,hpad ▸ whole_toDigits _,natural?_padded _ _,?_⟩
    rcases hl with hl | hl
    · exact .inr ⟨by rw [if_pos (by omega)]; rfl,by omega⟩
    · exact .inl ⟨by rw [if_neg (by omega)]; rfl,by omega⟩
  have hfront := head?_toDigits (n := d.digits) (by omega)
  have hback := getLast?_toDigits hd
  have hdigit := isDigit_of_mem_toDigits (n := d.digits)
  unfold scientific
  dsimp only
  cases hds : Nat.toDigits 10 d.digits with
  | nil => exact absurd hds Nat.toDigits_ne_nil
  | cons c cs =>
    rw [hds] at hfront hback hdigit
    have hc : c ≠ '0' := fun h0 => hfront (by rw [h0]; rfl)
    cases cs with
    | nil => exact ⟨c,['0'],_,rfl,hdigit c (by simp),hc,.inr rfl,hexp⟩
    | cons c' cs =>
      refine ⟨c,c' :: cs,_,?_,hdigit c (by simp),hc,.inl ⟨?_,by simp,?_⟩,hexp⟩
      · rw [if_neg (by simp)]
        simp [print]
      · exact fun a ha => hdigit a (List.mem_cons_of_mem c ha)
      · rwa [List.getLast?_cons_cons] at hback

/-- The notation and the place of the point are chosen by the value of the double itself. -/
theorem canonical_positive {n : Nat} (h : Double.Shortest d n) (hn : 0 < n)
    (hi : n < Double.infinite) (hd : d.digits % 10 ≠ 0) :
    Canonical (Double.value n) (print.positive d) := by
  have hpos := Double.strictMono_value hn
  rw [Double.value_zero] at hpos
  have hlo := h.leading_ge_iff hn hi
  have hhi := h.leading_lt_seven_iff hn hi
  by_cases hr : -3 ≤ d.leading ∧ d.leading < 7
  · have hw : print.positive d = print.plain d := if_pos hr
    rw [Canonical,if_pos (.inr ⟨hlo.mp hr.1,hhi.mp hr.2⟩),hw]
    have hlt : d.value < 2 ^ 53 := by
      refine lt_of_not_ge fun hge => not_le_of_gt hr.2 ?_
      rw [← Decimal.pow_le_value_iff (h.digits_pos hn)]
      exact le_trans (by norm_num) hge
    have hint := h.exponent_nonneg_iff hn hi hd hlt
    by_cases he : 0 ≤ d.exponent
    · exact .inl ⟨hint.mp he,whole_plain (h.digits_pos hn) he⟩
    · exact .inr ⟨fun hm => he (hint.mpr hm),exists_plain_point hd (lt_of_not_ge he)⟩
  · have hw : print.positive d = print.scientific d := if_neg hr
    rw [Canonical,if_neg,hw]
    · exact scientific_scientific hd (by omega)
    · rintro (h0 | ⟨h₁,h₂⟩)
      · exact ne_of_gt hpos h0
      · exact hr ⟨hlo.mpr h₁,hhi.mpr h₂⟩

end Layout

/-- A finite number is printed with the sign and the decimal that it is listed with, the shortest one that is
read back, laid out in one way: positionally if it is zero or from a thousandth up to ten millions, with
a point exactly when it is no integer, and else with an exponent. -/
theorem Value.display_canonical {x : Double} (h : x.isFinite = true) :
    (∃ d e : Decimal, Numeral.read? (number x).display = some (x.isNegative,d) ∧
      Numeral.read? (number x).listing = some (x.isNegative,e) ∧ d.value = e.value ∧
      Double.Shortest d x.number) ∧
    ∃ text, (number x).display.toList = (if x.isNegative then ['-'] else []) ++ text ∧
      Numeral.Canonical (Double.value x.number) text := by
  rw [display_number]
  constructor
  · obtain ⟨d,hd,hdv⟩ := Double.exists_read?_decimal Layout.legible_print h
    obtain ⟨e,he,hev⟩ := Double.exists_read?_decimal Layout.legible_listLayout h
    exact ⟨d,e,hd,he,hdv.trans hev.symm,(Double.shortest_decimal h).congr hdv⟩
  · rcases Double.write_cases Layout.print h with ⟨hn,hd,hw⟩ | ⟨hn,hw,b,_,hd⟩
    · refine ⟨_,(congrArg String.toList hw).trans (Layout.toList_signed _ _),?_⟩
      rw [hn,hd,Double.value_zero,Numeral.Canonical,if_pos (.inl rfl)]
      exact .inl ⟨⟨0,rfl⟩,Numeral.whole_toDigits 0⟩
    · refine ⟨_,(congrArg String.toList hw).trans (Layout.toList_signed _ _),?_⟩
      have hs := Double.shortest_decimal h
      have hpos := hs.digits_pos hn
      refine Layout.canonical_positive hs hn (Double.isFinite_iff.mp h) ?_
      rw [hd] at hpos ⊢
      exact Binary.shortest_digits_mod_ten hpos

/-- The double just below the one that a thousandth is rounded to. -/
theorem Value.display_canonical_below_thousandth :
    let x : Double := ⟨0x3F50624DD2F1A9FB⟩
    x.isFinite = true ∧ (number x).display = "9.999999999999998E-4" ∧
      (number x).listing = "0.0009999999999999998" ∧
      (∃ d e : Decimal, Numeral.read? (number x).display = some (x.isNegative,d) ∧
        Numeral.read? (number x).listing = some (x.isNegative,e) ∧ d.value = e.value ∧
        Double.Shortest d x.number) ∧
      ∃ text, (number x).display.toList = (if x.isNegative then ['-'] else []) ++ text ∧
        Numeral.Canonical (Double.value x.number) text :=
  ⟨by decide,by decide +kernel,by decide +kernel,display_canonical (by decide)⟩

end ScriptEval
