import ScriptEval.Proofs.Numeral
import ScriptEval.Proofs.Points
import ScriptEval.Proofs.Reading

/-! What layouts write for doubles. A finite double is written as a numeral that is read back, and what is no finite
double as a text that no numeral is. So one text is written for two doubles exactly if they are the same. -/
namespace ScriptEval

namespace Double

theorem magnitude_cases {x : Double} (h : x.isFinite = true) :
    (x.number = 0 ∧ x.magnitude = .zero) ∨
    (0 < x.number ∧ ∃ b, x.magnitude = .finite b ∧ Parts x.number b) := by
  have hlt := isFinite_iff.mp h
  cases form x with
  | nan hn hu hm => exact absurd hlt (Nat.lt_asymm hn)
  | infinity hn hu hm => exact absurd hn hlt.ne
  | zero hn hu hm => exact .inl ⟨hn,hm⟩
  | finite b hpos hlt hu hm hb => exact .inr ⟨hpos,b,hm,hb⟩

theorem rounds_zero : Rounds 0 0 := by
  refine (rounds_iff_around (by decide)).mpr ⟨fun h => absurd h (lt_irrefl 0),.inl ?_⟩
  have h := strictMono_value Nat.one_pos
  rw [value_zero] at h
  simpa [value_zero] using h

/-- The decimal is rounded to the `n`th double. None with fewer digits is, and none with as many
digits that is rounded to it is nearer. -/
structure Shortest (d : Decimal) (n : Nat) : Prop where
  rounds : Rounds d.value n
  fewest : ∀ e : Decimal, Rounds e.value n → d.significant ≤ e.significant
  nearest : ∀ e : Decimal, Rounds e.value n → e.significant = d.significant →
    |d.value - value n| ≤ |e.value - value n|

theorem Shortest.congr {d e : Decimal} {n : Nat} (h : Shortest d n) (he : e.value = d.value) :
    Shortest e n where
  rounds := he ▸ h.rounds
  fewest := by
    rw [Decimal.significant_congr he]
    exact h.fewest
  nearest := by
    rw [Decimal.significant_congr he,he]
    exact h.nearest

theorem shortest_zero {d : Decimal} (h : d.value = 0) : Shortest d 0 where
  rounds := h ▸ rounds_zero
  fewest e _ := by
    have hd := (Decimal.significant_le_iff d 0).mpr ⟨0,0,by norm_num,by simp [h]⟩
    exact Nat.le_trans hd (Nat.zero_le _)
  nearest e _ _ := by
    rw [h,value_zero,sub_self,abs_zero]
    exact abs_nonneg _

theorem shortest_of_parts {b : Binary} {n : Nat} (h : Parts n b) (hn : 0 < n)
    (hi : n < infinite) : Shortest b.shortest n := by
  obtain ⟨hr,ho⟩ := Binary.rounds_shortest h hn hi
  exact ⟨hr,fun e he => (ho e he).1,fun e he => (ho e he).2⟩

def decimal (x : Double) : Decimal :=
  match x.magnitude with
  | .finite b => b.shortest
  | _ => ⟨0,0⟩

theorem write_cases (l : Layout) {x : Double} (h : x.isFinite = true) :
    (x.number = 0 ∧ decimal x = ⟨0,0⟩ ∧ l.write x = Layout.signed x (l.plain (decimal x))) ∨
    (0 < x.number ∧ l.write x = Layout.signed x (l.positive (decimal x)) ∧
      ∃ b, Parts x.number b ∧ decimal x = b.shortest) := by
  unfold Layout.write decimal
  rcases magnitude_cases h with ⟨hn,hz⟩ | ⟨hn,b,hb,hp⟩
  · rw [hz]
    exact .inl ⟨hn,rfl,rfl⟩
  · rw [hb]
    exact .inr ⟨hn,rfl,b,hp,rfl⟩

theorem shortest_decimal {x : Double} (h : x.isFinite = true) : Shortest (decimal x) x.number := by
  rcases write_cases Layout.print h with ⟨hn,hd,_⟩ | ⟨hn,_,b,hb,hd⟩
  · rw [hn,hd]
    exact shortest_zero (by simp [Decimal.value])
  · rw [hd]
    exact shortest_of_parts hb hn (isFinite_iff.mp h)

theorem exists_read?_decimal {l : Layout} (hl : l.Legible) {x : Double} (h : x.isFinite = true) :
    ∃ d, Numeral.read? (l.write x) = some (x.isNegative,d) ∧ d.value = (decimal x).value := by
  rcases write_cases l h with ⟨_,_,hw⟩ | ⟨_,hw,_⟩
  · obtain ⟨d,hd,hv⟩ := Layout.exists_unsigned?_plain hl (decimal x)
    rw [hw]
    exact ⟨d,Layout.read?_signed hd,hv⟩
  · obtain ⟨d,hd,hv⟩ := Layout.exists_unsigned?_positive hl (decimal x)
    rw [hw]
    exact ⟨d,Layout.read?_signed hd,hv⟩

/-- Every legible layout writes a shortest numeral. -/
theorem exists_read?_write {l : Layout} (hl : l.Legible) {x : Double} (h : x.isFinite = true) :
    ∃ d, Numeral.read? (l.write x) = some (x.isNegative,d) ∧ Shortest d x.number := by
  obtain ⟨d,hd,hv⟩ := exists_read?_decimal hl h
  exact ⟨d,hd,(shortest_decimal h).congr hv⟩

theorem magnitude_cases_of_not_isFinite {x : Double} (h : x.isFinite = false) :
    x.magnitude = .nan ∨ x.magnitude = .infinite ∧ x.number = infinite := by
  have hlt : ¬x.number < infinite := by
    rw [← isFinite_iff,h]
    simp
  cases form x with
  | nan hn hu hm => exact .inl hm
  | infinity hn hu hm => exact .inr ⟨hm,hn⟩
  | zero hn hu hm => exact absurd (by rw [hn]; decide) hlt
  | finite b hpos hlt' hu hm hb => exact absurd hlt' hlt

end Double

theorem Binary.shortest_digits_mod_ten {b : Binary} (h : 0 < b.shortest.digits) :
    b.shortest.digits % 10 ≠ 0 := by
  rw [Binary.shortest] at h ⊢
  exact (Decimal.trim_digits _).resolve_left (Nat.ne_of_gt h)

namespace Layout

open Double

/-- What the layout writes for the doubles that are not finite is no numeral, and tells them apart. -/
structure Apart (l : Layout) : Prop where
  nan : Numeral.read? l.nan = none
  infinity (x : Double) : Numeral.read? (signed x l.infinity.toList) = none
  nan_ne_infinity (x : Double) : l.nan ≠ signed x l.infinity.toList

theorem apart_print : print.Apart where
  nan := by decide
  infinity x := by cases h : x.isNegative <;> (rw [signed,h]; decide)
  nan_ne_infinity x := by cases h : x.isNegative <;> (rw [signed,h]; decide)

theorem apart_listLayout : Value.listLayout.Apart where
  nan := by decide
  infinity x := by cases h : x.isNegative <;> (rw [signed,h]; decide)
  nan_ne_infinity x := by cases h : x.isNegative <;> (rw [signed,h]; decide)

theorem toList_signed (x : Double) (text : List Char) :
    (signed x text).toList = (if x.isNegative then ['-'] else []) ++ text := by
  rw [signed,String.toList_ofList]
  split <;> rfl

theorem isNegative_of_signed_eq {x y : Double} {text : List Char}
    (h : signed x text = signed y text) : x.isNegative = y.isNegative := by
  unfold signed at h
  have h := String.ofList_injective h
  cases hx : x.isNegative <;> cases hy : y.isNegative <;> simp [hx,hy] at h ⊢

variable {l : Layout} {x y : Double}

theorem write_cases_of_not_isFinite (l : Layout) (h : x.isFinite = false) :
    (x.magnitude = .nan ∧ l.write x = l.nan) ∨
      (x.number = infinite ∧ l.write x = signed x l.infinity.toList) := by
  unfold write
  rcases magnitude_cases_of_not_isFinite h with hn | ⟨hi,hx⟩
  · rw [hn]
    exact .inl ⟨rfl,rfl⟩
  · rw [hi]
    exact .inr ⟨hx,rfl⟩

theorem read?_write_of_not_isFinite (ha : l.Apart) (h : x.isFinite = false) :
    Numeral.read? (l.write x) = none := by
  rcases write_cases_of_not_isFinite l h with ⟨_,hw⟩ | ⟨_,hw⟩
  · rw [hw,ha.nan]
  · rw [hw,ha.infinity]

theorem isFinite_of_write_eq (hl : l.Legible) (ha : l.Apart) (h : l.write x = l.write y)
    (hx : x.isFinite = true) : y.isFinite = true := by
  obtain ⟨d,hd,_⟩ := exists_read?_write hl hx
  by_contra hy
  rw [h,read?_write_of_not_isFinite ha (by simpa using hy)] at hd
  cases hd

/-- One text is written exactly for doubles that are the same. -/
theorem write_eq_iff_same (hl : l.Legible) (ha : l.Apart) : l.write x = l.write y ↔ x.same y = true := by
  rw [same_iff]
  constructor
  · intro h
    by_cases hx : x.isFinite = true
    · have hy := isFinite_of_write_eq hl ha h hx
      obtain ⟨d,hd,hsx⟩ := exists_read?_write hl hx
      obtain ⟨e,he,hsy⟩ := exists_read?_write hl hy
      rw [h,he] at hd
      obtain ⟨hs,rfl⟩ := Prod.mk.inj (Option.some.inj hd)
      exact .inl (eq_of_number_eq hs.symm (hsx.rounds.unique hsy.rounds))
    · have hy : ¬y.isFinite = true := fun hy => hx (isFinite_of_write_eq hl ha h.symm hy)
      rcases write_cases_of_not_isFinite l (by simpa using hx) with ⟨hnx,hwx⟩ | ⟨hix,hwx⟩
      · rcases write_cases_of_not_isFinite l (by simpa using hy) with ⟨hny,_⟩ | ⟨_,hwy⟩
        · exact .inr ⟨hnx,hny⟩
        · exact absurd (hwx.symm.trans (h.trans hwy)) (ha.nan_ne_infinity y)
      · rcases write_cases_of_not_isFinite l (by simpa using hy) with ⟨_,hwy⟩ | ⟨hiy,hwy⟩
        · exact absurd (hwy.symm.trans (h.symm.trans hwx)) (ha.nan_ne_infinity x)
        · have hs : signed x l.infinity.toList = signed y l.infinity.toList :=
            hwx.symm.trans (h.trans hwy)
          exact .inl (eq_of_number_eq (isNegative_of_signed_eq hs) (hix.trans hiy.symm))
  · rintro (rfl | ⟨hx,hy⟩)
    · rfl
    · rw [write,write,hx,hy]

end Layout

end ScriptEval
