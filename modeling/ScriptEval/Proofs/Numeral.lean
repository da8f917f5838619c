import ScriptEval.Proofs.Significant
import ScriptEval.Value

/-! Decimal numerals as they are commonly read: digits, perhaps a point and more digits, perhaps an
exponent. What a layout writes is such a numeral, and has the value of what was laid out. -/
namespace ScriptEval

namespace Numeral

variable {ws ps tail : List Char} {k : Int}

theorem exponent?_head (h : exponent? tail = some k) :
    tail = [] ∨ ∃ c cs, tail = c :: cs ∧ c.isDigit = false ∧ c ≠ '.' := by
  cases tail with
  | nil => exact .inl rfl
  | cons c cs =>
    right
    unfold exponent? at h
    dsimp only at h
    split_ifs at h with hc
    rcases hc with rfl | rfl
    · exact ⟨_,cs,rfl,by decide,by decide⟩
    · exact ⟨_,cs,rfl,by decide,by decide⟩

theorem digits_append (hw : ∀ c ∈ ws, c.isDigit) (ht : digits tail = []) :
    digits (ws ++ tail) = ws := by
  unfold digits at *
  rw [List.takeWhile_append_of_pos hw,ht,List.append_nil]

theorem rest_append (hw : ∀ c ∈ ws, c.isDigit) (ht : rest tail = tail) :
    rest (ws ++ tail) = tail := by
  unfold rest at *
  rw [List.dropWhile_append_of_pos hw,ht]

theorem digits_of_exponent? (h : exponent? tail = some k) : digits tail = [] := by
  rcases exponent?_head h with rfl | ⟨c,cs,rfl,hc,_⟩
  · rfl
  · simp [digits,hc]

theorem rest_of_exponent? (h : exponent? tail = some k) : rest tail = tail := by
  rcases exponent?_head h with rfl | ⟨c,cs,rfl,hc,_⟩
  · rfl
  · simp [rest,hc]

theorem unsigned?_whole (hw : ∀ c ∈ ws, c.isDigit) (hne : ws ≠ []) (h : exponent? tail = some k) :
    unsigned? (ws ++ tail) = some ⟨Nat.ofDigitChars 10 ws 0,k⟩ := by
  unfold unsigned?
  rw [digits_append hw (digits_of_exponent? h),rest_append hw (rest_of_exponent? h)]
  dsimp only
  rw [if_neg hne]
  rcases exponent?_head h with rfl | ⟨c,cs,rfl,_,hc⟩
  · simp [h]
  · split
    · rename_i hcs
      exact absurd (List.cons.inj hcs).1 hc
    · simp [h]

theorem unsigned?_point (hw : ∀ c ∈ ws, c.isDigit) (hne : ws ≠ []) (hp : ∀ c ∈ ps, c.isDigit)
    (hpne : ps ≠ []) (h : exponent? tail = some k) :
    unsigned? (ws ++ '.' :: (ps ++ tail)) =
      some ⟨Nat.ofDigitChars 10 (ws ++ ps) 0,k - ps.length⟩ := by
  have hd : digits ('.' :: (ps ++ tail)) = [] := rfl
  have hr : rest ('.' :: (ps ++ tail)) = '.' :: (ps ++ tail) := rfl
  unfold unsigned?
  rw [digits_append hw hd,rest_append hw hr]
  dsimp only
  rw [if_neg hne]
  simp only [digits_append hp (digits_of_exponent? h),rest_append hp (rest_of_exponent? h),
    if_neg hpne,h,Option.map_some]

/-- Digits with a point before all but the first `i`. -/
theorem unsigned?_split {ds : List Char} {i : Nat} (hd : ∀ c ∈ ds, c.isDigit) (hpos : 0 < i)
    (hi : i < ds.length) (h : exponent? tail = some k) :
    unsigned? (ds.take i ++ '.' :: (ds.drop i ++ tail)) =
      some ⟨Nat.ofDigitChars 10 ds 0,k - (ds.length - i : Nat)⟩ := by
  have hw : ds.take i ≠ [] := List.ne_nil_of_length_pos (by rw [List.length_take]; omega)
  have hp : ds.drop i ≠ [] := List.ne_nil_of_length_pos (by rw [List.length_drop]; omega)
  rw [unsigned?_point (fun c hc => hd c (List.mem_of_mem_take hc)) hw
    (fun c hc => hd c (List.mem_of_mem_drop hc)) hp h,List.take_append_drop,List.length_drop]

theorem isDigit_of_mem_toDigits {n : Nat} : ∀ c ∈ Nat.toDigits 10 n, c.isDigit := fun _ hc =>
  Nat.isDigit_of_mem_toDigits (by decide) (by decide) hc

theorem head?_toDigits {n : Nat} (h : 0 < n) : (Nat.toDigits 10 n).head? ≠ some '0' := by
  induction n using Nat.strongRecOn with
  | ind n ih =>
    by_cases hlt : n < 10
    · rw [Nat.toDigits_of_lt_base hlt,List.head?_cons]
      intro h0
      exact Nat.ne_of_gt h (Nat.digitChar_eq_zero.mp (Option.some.inj h0))
    · have hle : 10 ≤ n := Nat.le_of_not_lt hlt
      rw [Nat.toDigits_of_base_le (by decide) hle,List.head?_append_of_ne_nil _ Nat.toDigits_ne_nil]
      exact ih (n / 10) (by omega) (by omega)

theorem getLast?_toDigits {n : Nat} (h : n % 10 ≠ 0) : (Nat.toDigits 10 n).getLast? ≠ some '0' := by
  have hlast : (Nat.toDigits 10 n).getLast? = some (n % 10).digitChar := by
    rw [Nat.toDigits_eq_if (by decide)]
    split
    · rename_i hlt
      rw [List.getLast?_singleton,Nat.mod_eq_of_lt hlt]
    · exact List.getLast?_concat
  rw [hlast]
  intro h0
  exact h (Nat.digitChar_eq_zero.mp (Option.some.inj h0))

theorem isDigit_of_mem_zeros {k : Nat} : ∀ c ∈ List.replicate k '0', c.isDigit := fun c hc => by
  rw [List.eq_of_mem_replicate hc]
  decide

theorem isDigit_of_mem_padded {w n : Nat} : ∀ c ∈ padded 10 w n, c.isDigit :=
  List.forall_mem_append.mpr ⟨isDigit_of_mem_zeros,isDigit_of_mem_toDigits⟩

theorem drop_padded_ne_nil {n p : Nat} (hp : 0 < p) :
    (padded 10 (p + 1) n).drop ((padded 10 (p + 1) n).length - p) ≠ [] := by
  have hlen := length_padded 10 (p + 1) n
  exact List.ne_nil_of_length_pos (by rw [List.length_drop]; omega)

theorem getLast?_drop_padded {n p : Nat} (hn : n % 10 ≠ 0) (hp : 0 < p) :
    ((padded 10 (p + 1) n).drop ((padded 10 (p + 1) n).length - p)).getLast? ≠ some '0' := by
  have hlen := length_padded 10 (p + 1) n
  rw [List.getLast?_drop,if_neg (by omega),padded,List.getLast?_append_of_ne_nil _ Nat.toDigits_ne_nil]
  exact getLast?_toDigits hn

theorem ofDigitChars_padded (w n : Nat) : Nat.ofDigitChars 10 (padded 10 w n) 0 = n := by
  rw [padded,Nat.ofDigitChars_append,Nat.ofDigitChars_replicate_zero,Nat.mul_zero,
    Nat.ofDigitChars_ten_toDigits]

theorem padded_ne_nil (w n : Nat) : padded 10 w n ≠ [] := by
  simp [padded,Nat.toDigits_ne_nil]

theorem natural?_padded (w n : Nat) : natural? (padded 10 w n) = some n := by
  have hall : (padded 10 w n).all Char.isDigit :=
    List.all_eq_true.mpr isDigit_of_mem_padded
  simp [natural?,hall,padded_ne_nil,ofDigitChars_padded]

theorem integer?_padded (w n : Nat) : integer? (padded 10 w n) = some (n : Int) := by
  have hn := natural?_padded w n
  have hd : ∀ c ∈ padded 10 w n, c.isDigit := isDigit_of_mem_padded
  revert hn hd
  generalize padded 10 w n = cs
  intro hn hd
  unfold integer?
  split
  · exact absurd (hd '-' (by simp)) (by decide)
  · exact absurd (hd '+' (by simp)) (by decide)
  · simp [hn]

end Numeral

namespace Layout

open Numeral

/-- The layout of printed numbers: positional from a thousandth up to ten millions, with a point only where
there are places behind it, and with an exponent that has no superfluous digit or sign. -/
def print : Layout where
  plainFrom := -3
  plainBelow := 7
  wholeTail := ""
  soleTail := ".0"
  mark := "E"
  plus := ""
  exponentWidth := 1
  nan := "NaN"
  infinity := "Infinity"

/-- The layout keeps to what is commonly read: a tail is a point with a zero or nothing. -/
structure Legible (l : Layout) : Prop where
  wholeTail : l.wholeTail = "" ∨ l.wholeTail = ".0"
  soleTail : l.soleTail = "" ∨ l.soleTail = ".0"
  mark : l.mark = "e" ∨ l.mark = "E"
  plus : l.plus = "" ∨ l.plus = "+"

theorem legible_print : print.Legible :=
  ⟨.inl rfl,.inr rfl,.inr rfl,.inl rfl⟩

theorem legible_listLayout : Value.listLayout.Legible :=
  ⟨.inr rfl,.inl rfl,.inl rfl,.inr rfl⟩

variable {l : Layout} {ws tail : List Char} {k : Int}

/-- A tail that is a point with a zero or nothing does not change the value. -/
theorem exists_unsigned?_tail {t : String} (ht : t = "" ∨ t = ".0") (hw : ∀ c ∈ ws, c.isDigit)
    (hne : ws ≠ []) (h : exponent? tail = some k) :
    ∃ e, unsigned? (ws ++ (t.toList ++ tail)) = some e ∧
      e.value = (Nat.ofDigitChars 10 ws 0 : ℚ) * 10 ^ k := by
  rcases ht with rfl | rfl
  · exact ⟨_,unsigned?_whole hw hne h,rfl⟩
  · have hp : ∀ c ∈ ['0'], c.isDigit := List.forall_mem_singleton.mpr rfl
    have hu := unsigned?_point hw hne hp (List.cons_ne_nil _ _) h
    refine ⟨_,hu,?_⟩
    have hd : Nat.ofDigitChars 10 (ws ++ ['0']) 0 = 10 * Nat.ofDigitChars 10 ws 0 := by
      rw [Nat.ofDigitChars_append]
      exact Nat.ofDigitChars_replicate_zero (n := 1)
    rw [Decimal.value,hd,zpow_sub₀ (by norm_num)]
    simp
    ring

theorem exists_unsigned?_plain (h : l.Legible) (d : Decimal) :
    ∃ e, unsigned? (l.plain d) = some e ∧ e.value = d.value := by
  unfold plain
  split
  · rename_i hexp
    obtain ⟨k,hk⟩ := Int.eq_ofNat_of_zero_le hexp
    have hw : ∀ c ∈ Nat.toDigits 10 d.digits ++ List.replicate d.exponent.toNat '0',
        c.isDigit := List.forall_mem_append.mpr ⟨isDigit_of_mem_toDigits,isDigit_of_mem_zeros⟩
    have hne : Nat.toDigits 10 d.digits ++ List.replicate d.exponent.toNat '0' ≠ [] := by
      simp [Nat.toDigits_ne_nil]
    have hend : exponent? [] = some 0 := rfl
    obtain ⟨e,he,hv⟩ := exists_unsigned?_tail h.wholeTail hw hne hend
    refine ⟨e,by simpa using he,?_⟩
    rw [hv,Nat.ofDigitChars_append,Nat.ofDigitChars_replicate_zero,Nat.ofDigitChars_ten_toDigits,
      Decimal.value,hk]
    simp
    ring
  · rename_i hexp
    have hlen : (-d.exponent).toNat + 1 ≤
        (padded 10 ((-d.exponent).toNat + 1) d.digits).length := by
      rw [length_padded]
      exact Nat.le_max_left _ _
    have hd : ∀ c ∈ padded 10 ((-d.exponent).toNat + 1) d.digits, c.isDigit :=
      isDigit_of_mem_padded
    have hend : exponent? [] = some 0 := rfl
    have hu := unsigned?_split hd (Nat.sub_pos_of_lt hlen) (by omega) hend
    have he : (0 : Int) - (-d.exponent).toNat = d.exponent := by omega
    rw [List.append_nil,ofDigitChars_padded,Nat.sub_sub_self (Nat.le_of_succ_le hlen),he] at hu
    exact ⟨_,hu,rfl⟩

theorem exponent?_scientific (h : l.Legible) (d : Decimal) :
    exponent? (l.mark.toList ++ (if d.leading < 0 then ['-'] else l.plus.toList) ++
      padded 10 l.exponentWidth d.leading.natAbs) = some d.leading := by
  have hsign : integer? ((if d.leading < 0 then ['-'] else l.plus.toList) ++
      padded 10 l.exponentWidth d.leading.natAbs) = some d.leading := by
    split
    · rename_i hneg
      rw [List.singleton_append,integer?,natural?_padded,Option.map_some]
      congr 1
      omega
    · rename_i hneg
      have habs : (d.leading.natAbs : Int) = d.leading := by omega
      rcases h.plus with hp | hp
      · rw [hp,String.toList_empty,List.nil_append,integer?_padded,habs]
      · rw [hp]
        show integer? ('+' :: padded 10 l.exponentWidth d.leading.natAbs) = some d.leading
        rw [integer?,natural?_padded,Option.map_some,habs]
  rw [List.append_assoc]
  rcases h.mark with hm | hm
  · rw [hm]
    exact hsign
  · rw [hm]
    exact hsign

theorem exists_unsigned?_scientific (h : l.Legible) (d : Decimal) :
    ∃ e, unsigned? (l.scientific d) = some e ∧ e.value = d.value := by
  have hexp := exponent?_scientific h d
  have hpos : 0 < (Nat.toDigits 10 d.digits).length := Nat.length_toDigits_pos
  have hd : ∀ c ∈ Nat.toDigits 10 d.digits, c.isDigit := isDigit_of_mem_toDigits
  unfold scientific
  dsimp only
  by_cases h1 : (Nat.toDigits 10 d.digits).length = 1
  · have htake : (Nat.toDigits 10 d.digits).take 1 = Nat.toDigits 10 d.digits :=
      List.take_of_length_le (Nat.le_of_eq h1)
    have hlead : d.leading = d.exponent := by
      rw [Decimal.leading,Decimal.log10,h1]
      simp
    obtain ⟨e,he,hv⟩ := exists_unsigned?_tail h.soleTail hd Nat.toDigits_ne_nil hexp
    refine ⟨e,?_,?_⟩
    · rw [if_pos h1,htake]
      simpa only [List.append_assoc] using he
    · rw [hv,Nat.ofDigitChars_ten_toDigits,hlead]
      rfl
  · have hu := unsigned?_split hd Nat.one_pos (by omega) hexp
    have hlead : d.leading - ((Nat.toDigits 10 d.digits).length - 1 : Nat) = d.exponent := by
      rw [Decimal.leading,Decimal.log10]
      omega
    rw [Nat.ofDigitChars_ten_toDigits,hlead] at hu
    refine ⟨d,?_,rfl⟩
    rw [if_neg h1]
    simpa only [List.append_assoc,List.cons_append] using hu

/-- What a legible layout writes has the value of the decimal. -/
theorem exists_unsigned?_positive (h : l.Legible) (d : Decimal) :
    ∃ e, unsigned? (l.positive d) = some e ∧ e.value = d.value := by
  unfold positive
  split
  · exact exists_unsigned?_plain h d
  · exact exists_unsigned?_scientific h d

theorem read?_signed {x : Double} {text : List Char} {e : Decimal} (h : unsigned? text = some e) :
    read? (signed x text) = some (x.isNegative,e) := by
  unfold read? signed
  rw [String.toList_ofList]
  cases x.isNegative with
  | true => simp [h]
  | false =>
    simp only [Bool.false_eq_true,if_false]
    split
    · simp [unsigned?,digits] at h
    · simp [h]

end Layout
end ScriptEval
