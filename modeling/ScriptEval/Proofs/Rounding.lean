import Mathlib.Algebra.Order.Ring.Abs
import Mathlib.Tactic.Linarith
import ScriptEval.Proofs.Double

/-! Rounding to the nearest double, where of two equally near ones the even one is taken and what
lies too far beyond the largest one becomes infinite. -/
namespace ScriptEval.Double

/-- `n` is nearer to `q` than `m` is. Of two equally near doubles an even one counts as nearer. -/
def Nearer (q : ℚ) (n m : Nat) : Prop :=
  |q - value n| < |q - value m| ∨ |q - value n| = |q - value m| ∧ n % 2 = 0

/-- `q` is rounded to the `n`th double: the nearest of the finite ones, as long as `q` is below the
point halfway from the largest of them to the next power of two. -/
def Rounds (q : ℚ) (n : Nat) : Prop :=
  if q < 2 ^ (1024 : Int) - 2 ^ (970 : Int) then
    n < infinite ∧ ∀ m < infinite, m ≠ n → Nearer q n m
  else n = infinite

def Below (n : Nat) (a b : ℚ) : Prop := a < b ∨ a = b ∧ n % 2 = 0

/-- `q` lies between the points halfway to the doubles next to `n`. -/
def Around (n : Nat) (q : ℚ) : Prop :=
  (0 < n → Below n (value (n - 1) + value n) (2 * q)) ∧ Below n (2 * q) (value n + value (n + 1))

variable {q : ℚ} {n m : Nat}

theorem Below.trans_le {a b c : ℚ} (h : Below n a b) (hc : b ≤ c) : Below n a c := by
  rcases h with h | ⟨rfl,hn⟩
  · exact .inl (lt_of_lt_of_le h hc)
  · rcases lt_or_eq_of_le hc with hc | hc
    · exact .inl hc
    · exact .inr ⟨hc,hn⟩

theorem Below.le_trans {a b c : ℚ} (ha : a ≤ b) (h : Below n b c) : Below n a c := by
  rcases h with h | ⟨rfl,hn⟩
  · exact .inl (lt_of_le_of_lt ha h)
  · rcases lt_or_eq_of_le ha with ha | ha
    · exact .inl ha
    · exact .inr ⟨ha,hn⟩

theorem Below.le {a b : ℚ} (h : Below n a b) : a ≤ b := by
  rcases h with h | ⟨h,_⟩
  · exact le_of_lt h
  · exact le_of_eq h

theorem sq_sub_sub (q a b : ℚ) : (q - a) ^ 2 - (q - b) ^ 2 = (b - a) * (2 * q - (a + b)) := by
  ring

theorem abs_sub_lt_iff {a b : ℚ} (h : a < b) : |q - b| < |q - a| ↔ a + b < 2 * q := by
  rw [← sq_lt_sq,← sub_pos,sq_sub_sub,mul_pos_iff_of_pos_left (sub_pos.mpr h),sub_pos]

theorem abs_sub_lt_iff' {a b : ℚ} (h : a < b) : |q - a| < |q - b| ↔ 2 * q < a + b := by
  rw [← sq_lt_sq,← sub_pos,← neg_sub,sq_sub_sub,← mul_neg,
    mul_pos_iff_of_pos_left (sub_pos.mpr h),neg_sub,sub_pos]

theorem abs_sub_eq_iff {a b : ℚ} (h : a < b) : |q - b| = |q - a| ↔ a + b = 2 * q := by
  rw [eq_comm,← sq_eq_sq_iff_abs_eq_abs,← sub_eq_zero,sq_sub_sub,mul_eq_zero,sub_eq_zero,
    or_iff_right (ne_of_gt h),sub_eq_zero,eq_comm]

theorem nearer_iff_of_lt (h : m < n) : Nearer q n m ↔ Below n (value m + value n) (2 * q) := by
  rw [Nearer,Below,abs_sub_lt_iff (strictMono_value h),abs_sub_eq_iff (strictMono_value h)]

theorem nearer_iff_of_gt (h : n < m) : Nearer q n m ↔ Below n (2 * q) (value n + value m) := by
  rw [Nearer,Below,abs_sub_lt_iff' (strictMono_value h),eq_comm (a := |q - value n|),
    abs_sub_eq_iff (strictMono_value h),eq_comm (a := 2 * q)]

theorem value_pred_add_value_infinite :
    value (infinite - 1) + value infinite = 2 * (2 ^ (1024 : Int) - 2 ^ (970 : Int)) := by
  have h : (2 : ℚ) ^ (971 : Int) = 2 ^ (970 : Int) * 2 := zpow_add_one₀ (by norm_num) 970
  rw [value_pred_infinite,value_infinite,h]
  ring

theorem value_add_value_succ_le (hn : n < infinite) :
    value n + value (n + 1) ≤ 2 * (2 ^ (1024 : Int) - 2 ^ (970 : Int)) := by
  rw [← value_pred_add_value_infinite]
  exact add_le_add (strictMono_value.monotone (Nat.le_pred_of_lt hn))
    (strictMono_value.monotone hn)

/-- What is around a finite double is not too large: the last of them is odd. -/
theorem lt_of_around (hn : n < infinite) (h : Around n q) :
    q < 2 ^ (1024 : Int) - 2 ^ (970 : Int) := by
  rcases h.2 with h | ⟨h,heven⟩
  · linarith [value_add_value_succ_le hn]
  · have hodd : (infinite - 1) % 2 = 1 := by decide
    have hlt : n < infinite - 1 :=
      lt_of_le_of_ne (Nat.le_pred_of_lt hn) fun he => by
        rw [he,hodd] at heven
        cases heven
    have h₁ := strictMono_value hlt
    have h₂ := strictMono_value (Nat.add_lt_of_lt_sub hlt)
    linarith [value_pred_add_value_infinite]

/-- Rounding to a finite double is decided by the points halfway to its neighbours. -/
theorem rounds_iff_around (hn : n < infinite) : Rounds q n ↔ Around n q := by
  constructor
  · intro h
    unfold Rounds at h
    split_ifs at h with hq
    · refine ⟨fun hpos => ?_,?_⟩
      · have hlt : n - 1 < n := Nat.sub_lt hpos Nat.one_pos
        exact (nearer_iff_of_lt hlt).mp (h.2 _ (lt_trans hlt hn) (ne_of_lt hlt))
      · by_cases hs : n + 1 < infinite
        · exact (nearer_iff_of_gt (Nat.lt_succ_self n)).mp (h.2 _ hs (Nat.succ_ne_self n))
        · have hs : n + 1 = infinite := Nat.le_antisymm hn (Nat.le_of_not_lt hs)
          have he : n = infinite - 1 := Nat.eq_sub_of_add_eq hs
          left
          rw [hs,he,value_pred_add_value_infinite]
          linarith
    · exact absurd h (ne_of_lt hn)
  · intro h
    unfold Rounds
    rw [if_pos (lt_of_around hn h)]
    refine ⟨hn,fun m _ hm => ?_⟩
    by_cases hlt : m < n
    · have hle : value m ≤ value (n - 1) := strictMono_value.monotone (Nat.le_pred_of_lt hlt)
      have hb := (h.1 (Nat.zero_lt_of_lt hlt)).le_trans (add_le_add hle le_rfl)
      exact (nearer_iff_of_lt hlt).mpr hb
    · have hgt : n < m := Nat.lt_of_le_of_ne (Nat.le_of_not_lt hlt) (Ne.symm hm)
      have hle : value (n + 1) ≤ value m := strictMono_value.monotone (Nat.succ_le_of_lt hgt)
      exact (nearer_iff_of_gt hgt).mpr (h.2.trans_le (add_le_add le_rfl hle))

/-- No point lies around two doubles: between even ones there is an odd one. -/
theorem Around.not_lt (hn : Around n q) (hm : Around m q) : ¬n < m := by
  intro h
  have h₁ := hn.2
  have h₂ := hm.1 (Nat.zero_lt_of_lt h)
  have hle₁ : value n ≤ value (m - 1) := strictMono_value.monotone (Nat.le_pred_of_lt h)
  have hle₂ : value (n + 1) ≤ value m := strictMono_value.monotone (Nat.succ_le_of_lt h)
  rcases h₁ with h₁ | ⟨h₁,hn⟩
  · linarith [h₂.le]
  · rcases h₂ with h₂ | ⟨h₂,hm⟩
    · linarith
    · have hlt := strictMono_value (show n < m - 1 by omega)
      linarith

theorem Rounds.unique (hn : Rounds q n) (hm : Rounds q m) : n = m := by
  have key : ∀ {n}, q < 2 ^ (1024 : Int) - 2 ^ (970 : Int) → Rounds q n → Around n q := by
    intro n hq h
    have hlt := h
    rw [Rounds,if_pos hq] at hlt
    exact (rounds_iff_around hlt.1).mp h
  by_cases hq : q < 2 ^ (1024 : Int) - 2 ^ (970 : Int)
  · exact Nat.le_antisymm (Nat.le_of_not_lt ((key hq hm).not_lt (key hq hn)))
      (Nat.le_of_not_lt ((key hq hn).not_lt (key hq hm)))
  · rw [Rounds,if_neg hq] at hn hm
    rw [hn,hm]

/-- The place of a double among those of its sign. -/
def number (x : Double) : Nat := x.bits.toNat % 2 ^ 63

/-- A signed decimal is rounded to the double: the sign is kept, also where the value is lost. -/
def RoundsTo (negative : Bool) (q : ℚ) (x : Double) : Prop :=
  x.isNegative = negative ∧ Rounds q x.number

theorem number_lt (x : Double) : x.number < 2 ^ 63 := Nat.mod_lt _ (by norm_num)

theorem isNegative_iff {x : Double} : x.isNegative = true ↔ 2 ^ 63 ≤ x.bits.toNat := by
  rw [isNegative,decide_eq_true_iff,Nat.pow_eq]

theorem eq_of_number_eq {x y : Double} (hs : x.isNegative = y.isNegative) (hn : x.number = y.number) :
    x = y := by
  rw [Bool.eq_iff_iff,isNegative_iff,isNegative_iff] at hs
  unfold number at hn
  have hxl := x.bits.isLt
  have hyl := y.bits.isLt
  have hbits : x.bits = y.bits := BitVec.eq_of_toNat_eq (by omega)
  exact congrArg mk hbits

theorem RoundsTo.unique {s : Bool} {x y : Double} (hx : RoundsTo s q x) (hy : RoundsTo s q y) :
    x = y := eq_of_number_eq (hx.1.trans hy.1.symm) (hx.2.unique hy.2)

end ScriptEval.Double
