import Mathlib.Algebra.Order.Field.Power
import Mathlib.Algebra.Order.Field.Rat
import Mathlib.Tactic.LinearCombination
import Mathlib.Tactic.Ring
import Mathlib.Tactic.SplitIfs
import ScriptEval.Double

/-! The doubles that are not negative, in order. Their 63 low bits number them from zero on, and from
each one to the next the value grows by a unit in the last place. -/
namespace ScriptEval.Double

/-- The number of the infinite double: those before it are finite. -/
def infinite : Nat := 2047 * 2 ^ 52

/-- The significand: below the first normal double the bit in front is missing. -/
def significand (n : Nat) : Nat := if n < 2 ^ 52 then n else 2 ^ 52 + n % 2 ^ 52

def exponent (n : Nat) : Int := max (n / 2 ^ 52 : Nat) 1 - 1075

/-- The number of the double with the significand `m` at the exponent `e`. -/
def place (m : Nat) (e : Int) : Nat := (e + 1074).toNat * 2 ^ 52 + m

theorem place_parts (n : Nat) : place (significand n) (exponent n) = n := by
  unfold place significand exponent
  split_ifs <;> omega

def ulp (n : Nat) : ℚ := 2 ^ exponent n

/-- The value of the `n`th double; infinity counts as the next power of two. -/
def value (n : Nat) : ℚ := significand n * ulp n

theorem ulp_pos (n : Nat) : 0 < ulp n := zpow_pos (by norm_num) _

theorem value_zero : value 0 = 0 := by simp [value,significand]

theorem significand_mod_two (n : Nat) : significand n % 2 = n % 2 := by
  unfold significand
  split <;> omega

/-- From one double to the next the significand counts on, save that the last significand of a
binade is followed by half as many units of twice the size. -/
theorem significand_succ (n : Nat) :
    (exponent (n + 1) = exponent n ∧ significand (n + 1) = significand n + 1) ∨
    (exponent (n + 1) = exponent n + 1 ∧ 2 * significand (n + 1) = significand n + 1) := by
  unfold exponent significand
  by_cases h : n % 2 ^ 52 + 1 = 2 ^ 52 ∧ 2 ^ 52 ≤ n
  · right
    rw [if_neg (by omega),if_neg (by omega)]
    omega
  · left
    refine ⟨by omega,?_⟩
    split_ifs <;> omega

theorem value_succ (n : Nat) : value (n + 1) = value n + ulp n := by
  rcases significand_succ n with ⟨he,hs⟩ | ⟨he,hs⟩
  · rw [value,value,ulp,he,hs,← ulp]
    push_cast
    ring
  · have hs : (2 : ℚ) * significand (n + 1) = significand n + 1 := by exact_mod_cast hs
    rw [value,value,ulp,he,zpow_add_one₀ (by norm_num),← ulp]
    linear_combination ulp n * hs

theorem strictMono_value : StrictMono value :=
  strictMono_nat_of_lt_succ fun n => by
    rw [value_succ]
    exact lt_add_of_pos_right _ (ulp_pos n)

theorem value_infinite : value infinite = 2 ^ (1024 : Int) := by
  have hs : significand infinite = 2 ^ 52 := by decide
  have he : exponent infinite = 972 := by decide
  have h52 : ((2 ^ 52 : Nat) : ℚ) = 2 ^ (52 : Int) := by norm_cast
  have hsum : (52 : Int) + 972 = 1024 := by norm_num
  rw [value,ulp,hs,he,h52,← zpow_add₀ (by norm_num),hsum]

theorem value_pred_infinite : value (infinite - 1) = 2 ^ (1024 : Int) - 2 ^ (971 : Int) := by
  have hi : infinite - 1 + 1 = infinite := by decide
  have he : exponent (infinite - 1) = 971 := by decide
  have hs := value_succ (infinite - 1)
  rw [hi,value_infinite,ulp,he] at hs
  exact eq_sub_of_add_eq hs.symm

/-- Whether the double below is half as far away as the one above. -/
def IsNarrow (n : Nat) : Prop := n % 2 ^ 52 = 0 ∧ 1 < n / 2 ^ 52

theorem ulp_pred_of_not_isNarrow {n : Nat} (hn : 0 < n) (h : ¬IsNarrow n) :
    ulp (n - 1) = ulp n := by
  have he : exponent (n - 1) = exponent n := by
    unfold exponent
    unfold IsNarrow at h
    omega
  rw [ulp,he,← ulp]

theorem ulp_pred_of_isNarrow {n : Nat} (h : IsNarrow n) : 2 * ulp (n - 1) = ulp n := by
  obtain ⟨h₁,h₂⟩ := h
  have he : exponent n = exponent (n - 1) + 1 := by
    unfold exponent
    omega
  rw [ulp,ulp,he,zpow_add_one₀ (by norm_num)]
  ring

theorem ofBits_mod (bits : Nat) : Magnitude.ofBits (bits % 2 ^ 63) = Magnitude.ofBits bits := by
  have he : bits % 2 ^ 63 / 2 ^ 52 % 2 ^ 11 = bits / 2 ^ 52 % 2 ^ 11 := by omega
  have hf : bits % 2 ^ 63 % 2 ^ 52 = bits % 2 ^ 52 := by omega
  simp only [Magnitude.ofBits,Nat.pow_eq,he,hf]

structure Parts (n : Nat) (b : Binary) : Prop where
  mantissa_eq : b.mantissa = significand n
  exponent_eq : b.exponent = exponent n
  narrow_iff : b.narrowBelow = true ↔ IsNarrow n

theorem Parts.unique {m n : Nat} {b : Binary} (hm : Parts m b) (hn : Parts n b) : m = n := by
  rw [← place_parts m,← place_parts n,← hm.mantissa_eq,← hm.exponent_eq,hn.mantissa_eq,hn.exponent_eq]

theorem parts_of_subnormal {n : Nat} (hn : n < 2 ^ 52) (h : 0 < n % 2 ^ 52) :
    Parts n ⟨n % 2 ^ 52,-1074,false,h⟩ where
  mantissa_eq := by
    rw [significand,if_pos hn]
    exact Nat.mod_eq_of_lt hn
  exponent_eq := by
    unfold exponent
    dsimp only
    omega
  narrow_iff := by
    unfold IsNarrow
    simp only [Bool.false_eq_true,false_iff]
    omega

theorem parts_of_normal {n e : Nat} (hn : 2 ^ 52 ≤ n) (he : n / 2 ^ 52 = e)
    (h : 0 < 2 ^ 52 + n % 2 ^ 52) :
    Parts n ⟨2 ^ 52 + n % 2 ^ 52,(e : Int) - 1075,n % 2 ^ 52 = 0 ∧ 1 < e,h⟩ where
  mantissa_eq := by rw [significand,if_neg (Nat.not_lt_of_le hn)]
  exponent_eq := by
    unfold exponent
    dsimp only
    omega
  narrow_iff := by
    subst he
    exact decide_eq_true_iff

theorem ofBits_cases {n : Nat} (hn : n < 2 ^ 63) :
    (infinite ≤ n ∧ (Magnitude.ofBits n = .infinite ∨ Magnitude.ofBits n = .nan)) ∨
    (n = 0 ∧ Magnitude.ofBits n = .zero) ∨
    (0 < n ∧ n < infinite ∧ ∃ b, Magnitude.ofBits n = .finite b ∧ Parts n b) := by
  have he : n / 2 ^ 52 % 2 ^ 11 = n / 2 ^ 52 := Nat.mod_eq_of_lt (by omega)
  unfold Magnitude.ofBits infinite
  simp only [Nat.pow_eq,he]
  by_cases h₁ : n / 2 ^ 52 = 2047
  · left
    rw [if_pos h₁]
    refine ⟨by omega,?_⟩
    by_cases h₂ : n % 2 ^ 52 = 0
    · exact .inl (if_pos h₂)
    · exact .inr (if_neg h₂)
  · right
    rw [if_neg h₁]
    by_cases h₂ : n / 2 ^ 52 = 0
    · rw [if_pos h₂]
      by_cases h₃ : n % 2 ^ 52 = 0
      · exact .inl ⟨by omega,dif_pos h₃⟩
      · exact .inr ⟨by omega,by omega,_,dif_neg h₃,parts_of_subnormal (by omega) _⟩
    · rw [if_neg h₂]
      exact .inr ⟨by omega,by omega,_,rfl,parts_of_normal (by omega) rfl _⟩

end ScriptEval.Double
