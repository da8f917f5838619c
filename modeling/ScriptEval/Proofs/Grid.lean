import Mathlib.Algebra.Order.Group.Abs
import ScriptEval.Proofs.Significant

/-! The search for the shortest decimal. On each grid the two neighbours of the value stand for all
points of the grid, since what is read back has no gaps; and a decimal of few digits that is read
back leads to a point of a coarse grid that is no further away. -/
namespace ScriptEval.Binary

variable {b : Binary} {p q r : ℚ}

/-- A rational count of `10 ^ scale` that is read back as `b`. -/
def Reads (b : Binary) (q : ℚ) : Prop :=
  if b.mantissa % 2 = 0 then (b.low : ℚ) ≤ 4 * q ∧ 4 * q ≤ b.high
  else (b.low : ℚ) < 4 * q ∧ 4 * q < b.high

theorem covers_iff_reads (b : Binary) (n : Nat) : b.Covers n ↔ b.Reads n := by
  unfold Covers Reads
  split <;> norm_cast

theorem Reads.convex (hp : b.Reads p) (hr : b.Reads r) (hpq : p ≤ q) (hqr : q ≤ r) :
    b.Reads q := by
  unfold Reads at *
  split_ifs at * with h
  · exact ⟨by linarith [hp.1],by linarith [hr.2]⟩
  · exact ⟨by linarith [hp.1],by linarith [hr.2]⟩

theorem unit_le_count (b : Binary) : b.unit ≤ b.count := Nat.le_mul_of_pos_left _ b.mantissa_pos

theorem covers_count (b : Binary) : b.Covers b.count := by
  have hu := b.unit_pos
  have hc := b.unit_le_count
  have hl : b.low < 4 * b.count := by
    unfold low
    split <;> omega
  have hh : 4 * b.count < b.high := by
    unfold high
    omega
  unfold Covers
  split
  · exact ⟨Nat.le_of_lt hl,Nat.le_of_lt hh⟩
  · exact ⟨hl,hh⟩

theorem reads_count (b : Binary) : b.Reads b.count := (b.covers_iff_reads _).mp b.covers_count

theorem low_pos (b : Binary) : 0 < b.low := by
  have hu := b.unit_pos
  have hc := b.unit_le_count
  unfold low
  split <;> omega

theorem Reads.pos (h : b.Reads q) : 0 < q := by
  have hl : (0 : ℚ) < b.low := by exact_mod_cast b.low_pos
  unfold Reads at h
  split_ifs at h with he
  · linarith [h.1]
  · linarith [h.1]

def distance (b : Binary) (q : ℚ) : ℚ := |q - b.count|

theorem distance_le_of_le (hqp : q ≤ p) (hp : p ≤ b.count) : b.distance p ≤ b.distance q := by
  unfold distance
  rw [abs_of_nonpos (by linarith),abs_of_nonpos (by linarith)]
  linarith

theorem distance_le_of_ge (hp : b.count ≤ p) (hpq : p ≤ q) : b.distance p ≤ b.distance q := by
  unfold distance
  rw [abs_of_nonneg (by linarith),abs_of_nonneg (by linarith)]
  linarith

/-- Among the multiples of `step` that are read back, `c` steps are nearest to the value. -/
structure Nearest (b : Binary) (step c : Nat) : Prop where
  covers : b.Covers (c * step)
  nearest : ∀ m, b.Covers (m * step) →
    b.distance ((c * step : Nat) : ℚ) ≤ b.distance ((m * step : Nat) : ℚ)

variable {step m : Nat}

theorem covers_below (hm : m ≤ b.count / step) (h : b.Covers (m * step)) :
    b.Covers (b.count / step * step) ∧
      b.distance ((b.count / step * step : Nat) : ℚ) ≤ b.distance ((m * step : Nat) : ℚ) := by
  have hle : ((m * step : Nat) : ℚ) ≤ (b.count / step * step : Nat) := by
    exact_mod_cast Nat.mul_le_mul_right step hm
  have hc : ((b.count / step * step : Nat) : ℚ) ≤ b.count := by
    exact_mod_cast Nat.div_mul_le_self b.count step
  rw [covers_iff_reads] at h ⊢
  exact ⟨h.convex b.reads_count hle hc,distance_le_of_le hle hc⟩

theorem covers_above (hstep : 0 < step) (hm : b.count / step < m) (h : b.Covers (m * step)) :
    b.Covers ((b.count / step + 1) * step) ∧
      b.distance (((b.count / step + 1) * step : Nat) : ℚ) ≤
        b.distance ((m * step : Nat) : ℚ) := by
  have hle : (((b.count / step + 1) * step : Nat) : ℚ) ≤ (m * step : Nat) := by
    exact_mod_cast Nat.mul_le_mul_right step hm
  have hc : (b.count : ℚ) ≤ ((b.count / step + 1) * step : Nat) := by
    exact_mod_cast Nat.le_of_lt (Nat.lt_mul_of_div_lt (Nat.lt_succ_self _) hstep)
  rw [covers_iff_reads] at h ⊢
  exact ⟨b.reads_count.convex h hc hle,distance_le_of_ge hc hle⟩

theorem distance_below (b : Binary) (step : Nat) :
    b.distance ((b.count / step * step : Nat) : ℚ) = (b.count % step : Nat) := by
  have h : ((b.count / step * step : Nat) : ℚ) + (b.count % step : Nat) = b.count := by
    exact_mod_cast Nat.div_add_mod' b.count step
  have hr : (0 : ℚ) ≤ (b.count % step : Nat) := Nat.cast_nonneg _
  rw [distance,abs_of_nonpos (by linarith)]
  linarith

theorem distance_above (b : Binary) (hstep : 0 < step) :
    b.distance (((b.count / step + 1) * step : Nat) : ℚ) = step - (b.count % step : Nat) := by
  have h : ((b.count / step * step : Nat) : ℚ) + (b.count % step : Nat) = b.count := by
    exact_mod_cast Nat.div_add_mod' b.count step
  have hr : ((b.count % step : Nat) : ℚ) ≤ step := by
    exact_mod_cast Nat.le_of_lt (Nat.mod_lt b.count hstep)
  rw [Nat.succ_mul,Nat.cast_add,distance,abs_of_nonneg (by linarith)]
  linarith

theorem neighbours_cases (b : Binary) (hstep : 0 < step) :
    (neighbours b.count step = [b.count / step,b.count / step + 1] ∧
      b.distance ((b.count / step * step : Nat) : ℚ) ≤
        b.distance (((b.count / step + 1) * step : Nat) : ℚ)) ∨
    (neighbours b.count step = [b.count / step + 1,b.count / step] ∧
      b.distance (((b.count / step + 1) * step : Nat) : ℚ) ≤
        b.distance ((b.count / step * step : Nat) : ℚ)) := by
  rw [distance_below,distance_above b hstep]
  unfold neighbours
  dsimp only
  split_ifs with h
  · left
    have hr : 2 * (b.count % step) ≤ step := by omega
    have hr : (2 : ℚ) * (b.count % step : Nat) ≤ step := by exact_mod_cast hr
    exact ⟨rfl,by linarith⟩
  · right
    have hr : step ≤ 2 * (b.count % step) := by omega
    have hr : (step : ℚ) ≤ 2 * (b.count % step : Nat) := by exact_mod_cast hr
    exact ⟨rfl,by linarith⟩

/-- Two points, the nearer first, that stand for all points of a grid: the first of them that is
read back is the nearest that is read back, and if neither is then none is. -/
theorem find?_pair {x y : Nat}
    (hxy : b.distance ((x * step : Nat) : ℚ) ≤ b.distance ((y * step : Nat) : ℚ))
    (h : ∀ m, b.Covers (m * step) →
      (b.Covers (x * step) ∧ b.distance ((x * step : Nat) : ℚ) ≤ b.distance ((m * step : Nat) : ℚ)) ∨
      (b.Covers (y * step) ∧ b.distance ((y * step : Nat) : ℚ) ≤ b.distance ((m * step : Nat) : ℚ))) :
    (∃ c, (c = x ∨ c = y) ∧ [x,y].find? (fun c => b.Covers (c * step)) = some c ∧
      b.Nearest step c) ∨
    ([x,y].find? (fun c => b.Covers (c * step)) = none ∧ ∀ m, ¬b.Covers (m * step)) := by
  by_cases hx : b.Covers (x * step)
  · refine .inl ⟨x,.inl rfl,by simp [hx],hx,fun m hm => ?_⟩
    rcases h m hm with ⟨_,hd⟩ | ⟨_,hd⟩
    · exact hd
    · exact le_trans hxy hd
  · by_cases hy : b.Covers (y * step)
    · refine .inl ⟨y,.inr rfl,by simp [hx,hy],hy,fun m hm => ?_⟩
      rcases h m hm with ⟨hx',_⟩ | ⟨_,hd⟩
      · exact absurd hx' hx
      · exact hd
    · refine .inr ⟨by simp [hx,hy],fun m hm => ?_⟩
      rcases h m hm with ⟨hx',_⟩ | ⟨hy',_⟩
      · exact hx hx'
      · exact hy hy'

theorem onGrid?_cases (b : Binary) (hstep : 0 < step) :
    (∃ c ≤ b.count / step + 1, b.onGrid? step = some c ∧ b.Nearest step c) ∨
    (b.onGrid? step = none ∧ ∀ m, ¬b.Covers (m * step)) := by
  have h : ∀ m, b.Covers (m * step) →
      (b.Covers (b.count / step * step) ∧
        b.distance ((b.count / step * step : Nat) : ℚ) ≤ b.distance ((m * step : Nat) : ℚ)) ∨
      (b.Covers ((b.count / step + 1) * step) ∧
        b.distance (((b.count / step + 1) * step : Nat) : ℚ) ≤
          b.distance ((m * step : Nat) : ℚ)) := by
    intro m hm
    by_cases hle : m ≤ b.count / step
    · exact .inl (covers_below hle hm)
    · exact .inr (covers_above hstep (Nat.lt_of_not_le hle) hm)
  unfold onGrid?
  rcases b.neighbours_cases hstep with ⟨hn,hd⟩ | ⟨hn,hd⟩
  · rw [hn]
    rcases find?_pair hd h with ⟨c,hc,hf,hb⟩ | hnone
    · exact .inl ⟨c,by omega,hf,hb⟩
    · exact .inr hnone
  · rw [hn]
    rcases find?_pair hd fun m hm => (h m hm).symm with ⟨c,hc,hf,hb⟩ | hnone
    · exact .inl ⟨c,by omega,hf,hb⟩
    · exact .inr hnone

/-- The search stops at the coarsest grid that has a point that is read back. -/
theorem search_cases (b : Binary) (j : Nat) :
    ∃ i ≤ j, ∃ c ≤ b.count / 10 ^ i + 1, b.search j = ⟨c,b.scale + i⟩ ∧ b.Nearest (10 ^ i) c ∧
      ∀ k, i < k → k ≤ j → ∀ m, ¬b.Covers (m * 10 ^ k) := by
  induction j with
  | zero =>
    refine ⟨0,le_rfl,b.count,by simp,by simp [search],⟨?_,fun m _ => ?_⟩,fun k hk hk' => ?_⟩
    · simpa using b.covers_count
    · simp [distance]
    · omega
  | succ j ih =>
    rw [search,Nat.pow_eq]
    have hpos : 0 < 10 ^ (j + 1) := Nat.pow_pos (by norm_num)
    rcases b.onGrid?_cases hpos with ⟨c,hc,hs,hb⟩ | ⟨hs,hnone⟩
    · refine ⟨j + 1,le_rfl,c,hc,by rw [hs]; simp,hb,fun k hk hk' => ?_⟩
      omega
    · obtain ⟨i,hi,c,hc,he,hb,hk⟩ := ih
      refine ⟨i,Nat.le_succ_of_le hi,c,hc,by rw [hs]; exact he,hb,fun k hik hkj => ?_⟩
      by_cases hle : k ≤ j
      · exact hk k hik hle
      · obtain rfl : k = j + 1 := Nat.le_antisymm hkj (Nat.lt_of_not_le hle)
        exact hnone

end ScriptEval.Binary
