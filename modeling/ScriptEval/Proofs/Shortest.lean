import ScriptEval.Proofs.Grid

/-! The decimal that the search finds is read back, no decimal with fewer digits is, and none with as
many digits is nearer. -/
namespace ScriptEval

namespace Decimal

theorem lt_pow_log10 (n : Nat) : n < 10 ^ (log10 n + 1) := by
  have hpos : 0 < (Nat.toDigits 10 n).length := Nat.length_toDigits_pos
  refine (Nat.length_toDigits_le_iff (by norm_num) (Nat.succ_pos _)).mp ?_
  unfold log10
  omega

theorem pow_log10_le {n : Nat} (h : 0 < n) : 10 ^ log10 n ≤ n := by
  by_cases h0 : log10 n = 0
  · rw [h0]
    exact h
  · refine Nat.le_of_not_lt fun hlt => ?_
    have hle := (Nat.length_toDigits_le_iff (by norm_num) (Nat.pos_of_ne_zero h0)).mpr hlt
    unfold log10 at hle h0
    omega

end Decimal

namespace Binary

variable {b : Binary} {n : Nat}

def counts (b : Binary) (d : Decimal) : ℚ := d.value / 10 ^ b.scale

theorem counts_mul (b : Binary) (d : Decimal) : b.counts d * 10 ^ b.scale = d.value :=
  div_mul_cancel₀ _ (ne_of_gt (zpow_pos (by norm_num) _))

theorem counts_eq {d : Decimal} {m : Nat} {k : Int} (h : d.value = m * 10 ^ k) :
    b.counts d = m * 10 ^ (k - b.scale) := by
  rw [counts,h,mul_div_assoc,zpow_sub₀ (by norm_num)]

theorem counts_grid (b : Binary) (c i : Nat) : b.counts ⟨c,b.scale + i⟩ = (c * 10 ^ i : Nat) := by
  rw [counts_eq (m := c) (k := b.scale + i) rfl,add_sub_cancel_left,zpow_natCast]
  norm_cast

theorem exists_multiple {m l : Nat} {k : Int} (hm : m < 10 ^ n) (hn : n ≤ l + 1)
    (h : (10 : ℚ) ^ l ≤ m * 10 ^ k) :
    ∃ c : Nat, (m : ℚ) * 10 ^ k = (c * 10 ^ (l + 1 - n) : Nat) := by
  have hk : ((l + 1 - n : Nat) : Int) ≤ k := by
    have hlt : (10 : ℚ) ^ (l : Int) < 10 ^ ((n : Int) + k) := by
      rw [zpow_natCast,zpow_add₀ (by norm_num),zpow_natCast]
      have hm : (m : ℚ) < 10 ^ n := by exact_mod_cast hm
      exact lt_of_le_of_lt h (mul_lt_mul_of_pos_right hm (zpow_pos (by norm_num) k))
    have := (zpow_lt_zpow_iff_right₀ (by norm_num)).mp hlt
    omega
  refine ⟨m * 10 ^ (k - (l + 1 - n : Nat)).toNat,?_⟩
  have he : (10 : ℚ) ^ k = 10 ^ (k - (l + 1 - n : Nat)).toNat * 10 ^ (l + 1 - n) := by
    rw [← zpow_natCast,← zpow_natCast,← zpow_add₀ (by norm_num)]
    congr 1
    omega
  rw [he]
  push_cast
  ring

/-- A decimal of at most `n` digits that is read back leads to a point of the grid of `n` digits that
is read back and no further from the value. -/
theorem exists_on_grid {e : Decimal} (he : b.Reads (b.counts e)) (hs : e.significant ≤ n)
    (hpos : 0 < n) (hn : n ≤ Decimal.log10 b.count + 1) :
    ∃ c : Nat, b.Covers (c * 10 ^ (Decimal.log10 b.count + 1 - n)) ∧
      b.distance ((c * 10 ^ (Decimal.log10 b.count + 1 - n) : Nat) : ℚ) ≤
        b.distance (b.counts e) := by
  have hcount := Decimal.pow_log10_le b.count_pos
  generalize Decimal.log10 b.count = l at hn hcount ⊢
  obtain ⟨m,k,hm,hv⟩ := (Decimal.significant_le_iff e n).mp hs
  by_cases hl : (10 : ℚ) ^ l ≤ b.counts e
  · rw [counts_eq hv] at hl he ⊢
    obtain ⟨c,hc⟩ := exists_multiple hm hn hl
    rw [hc] at he ⊢
    exact ⟨c,(b.covers_iff_reads _).mpr he,le_rfl⟩
  · have hc : 10 ^ (n - 1) * 10 ^ (l + 1 - n) = 10 ^ l := by
      rw [← Nat.pow_add]
      congr 1
      omega
    have hle : ((10 ^ l : Nat) : ℚ) ≤ b.count := by exact_mod_cast hcount
    have hge : b.counts e ≤ ((10 ^ l : Nat) : ℚ) := by
      push_cast
      exact le_of_lt (lt_of_not_ge hl)
    refine ⟨10 ^ (n - 1),?_,?_⟩
    · rw [hc,covers_iff_reads]
      exact he.convex b.reads_count hge hle
    · rw [hc]
      exact distance_le_of_le hge hle

theorem significant_hit {i c : Nat} (hi : i ≤ Decimal.log10 b.count)
    (hc : c ≤ b.count / 10 ^ i + 1) (k : Int) :
    (Decimal.mk c k).significant ≤ Decimal.log10 b.count + 1 - i := by
  have hlt : b.count / 10 ^ i < 10 ^ (Decimal.log10 b.count + 1 - i) := by
    rw [Nat.div_lt_iff_lt_mul (Nat.pow_pos (by norm_num)),← Nat.pow_add,
      Nat.sub_add_cancel (Nat.le_succ_of_le hi)]
    exact Decimal.lt_pow_log10 b.count
  rcases Nat.lt_or_eq_of_le (Nat.le_trans hc hlt) with h | rfl
  · exact (Decimal.significant_le_iff _ _).mpr ⟨c,k,h,rfl⟩
  · refine le_trans ((Decimal.significant_le_iff _ 1).mpr
      ⟨1,k + (Decimal.log10 b.count + 1 - i : Nat),by norm_num,?_⟩) (by omega)
    rw [Decimal.value,zpow_add₀ (by norm_num),zpow_natCast]
    push_cast
    ring

/-- The shortest decimal is read back. Every other one that is read back has at least as many digits,
and with as many digits it is no nearer to the value. -/
theorem shortest_optimal (b : Binary) :
    b.Reads (b.counts b.shortest) ∧ ∀ e : Decimal, b.Reads (b.counts e) →
      b.shortest.significant ≤ e.significant ∧ (e.significant = b.shortest.significant →
        b.distance (b.counts b.shortest) ≤ b.distance (b.counts e)) := by
  obtain ⟨i,hi,c,hc,hd,hb,hnone⟩ := b.search_cases (Decimal.log10 b.count)
  have hv : b.counts b.shortest = (c * 10 ^ i : Nat) := by
    rw [← b.counts_grid c i,← hd,counts,counts,shortest,Decimal.value_trim]
  have hs : b.shortest.significant ≤ Decimal.log10 b.count + 1 - i := by
    rw [shortest,Decimal.significant_trim,hd]
    exact significant_hit hi hc _
  rw [hv]
  refine ⟨(b.covers_iff_reads _).mp hb.covers,fun e he => ?_⟩
  have hpos : 0 < e.significant := by
    refine Decimal.significant_pos ?_
    rw [← b.counts_mul e]
    exact mul_pos he.pos (zpow_pos (by norm_num) _)
  by_cases hle : e.significant ≤ Decimal.log10 b.count + 1
  · obtain ⟨m,hm,hdist⟩ := exists_on_grid he le_rfl hpos hle
    -- Coarser grids than the one that was hit have no point that is read back.
    have hgrid : Decimal.log10 b.count + 1 - e.significant ≤ i := by
      refine Nat.le_of_not_lt fun hlt => ?_
      exact hnone _ hlt (by omega) m hm
    refine ⟨by omega,fun heq => ?_⟩
    have hi : Decimal.log10 b.count + 1 - e.significant = i := by omega
    rw [hi] at hm hdist
    exact le_trans (hb.nearest m hm) hdist
  · exact ⟨by omega,fun heq => by omega⟩

end Binary
end ScriptEval
