import ScriptEval.Operator
import ScriptEval.Proofs.Thresholds

/-! Printed numbers. A number is printed as it is listed, without a point and a zero at the end, or its digits are
spread anew. Either way this is the text of one layout. It is read back: the numeral is rounded to the double that
was printed, and there is none with fewer digits, nor a nearer one with as many. And one text is printed exactly
for numbers that are the same. -/
namespace ScriptEval

namespace Numeral

theorem shortened_append (cs : List Char) : shortened (cs ++ ['.','0']) = cs := by
  have hs : ['.','0'].isSuffixOf (cs ++ ['.','0']) = true :=
    List.isSuffixOf_iff_suffix.mpr (List.suffix_append _ _)
  rw [shortened,if_pos hs]
  simp

theorem shortened_of_getLast? {cs : List Char} (h : cs.getLast? ≠ some '0') : shortened cs = cs := by
  unfold shortened
  split
  · rename_i hs
    obtain ⟨front,rfl⟩ := List.isSuffixOf_iff_suffix.mp hs
    exact absurd (by simp) h
  · rfl

/-- What ends without a point among the last two characters has no point and zero at its end. -/
theorem shortened_append_of_notMem {front tail : List Char} (hlen : 2 ≤ tail.length)
    (h : '.' ∉ tail) : shortened (front ++ tail) = front ++ tail := by
  unfold shortened
  split
  · rename_i hs
    have hs := List.isSuffixOf_iff_suffix.mp hs
    have htail := List.suffix_of_suffix_length_le hs (List.suffix_append front tail) hlen
    exact absurd (htail.subset (by simp)) h
  · rfl

variable {d : Decimal}

theorem spread_eq_scientific (d : Decimal) : spread d = Layout.print.scientific d := by
  have hpad : padded 10 1 d.leading.natAbs = Nat.toDigits 10 d.leading.natAbs :=
    padded_of_le Nat.length_toDigits_pos
  unfold spread Layout.scientific
  dsimp only [Layout.print]
  rw [hpad]
  split_ifs <;> simp

theorem shortened_spread (front : List Char) (d : Decimal) :
    shortened (front ++ spread d) = front ++ spread d := by
  have hpos : 0 < (Nat.toDigits 10 d.leading.natAbs).length := Nat.length_toDigits_pos
  unfold spread
  dsimp only
  generalize hes : (if d.leading < 0 then ['-'] else []) ++ Nat.toDigits 10 d.leading.natAbs = es
  generalize (if (Nat.toDigits 10 d.digits).length = 1 then ['0'] else _) = ps
  have hlen : 2 ≤ ('E' :: es).length := by
    rw [← hes,List.length_cons,List.length_append]
    omega
  have hpoint : '.' ∉ 'E' :: es := by
    intro h
    have hmem : '.' ∈ Nat.toDigits 10 d.leading.natAbs := by
      rw [← hes] at h
      split_ifs at h <;> simpa using h
    exact absurd (isDigit_of_mem_toDigits _ hmem) (by decide)
  rw [← List.append_assoc]
  exact shortened_append_of_notMem hlen hpoint

theorem shortened_plain (front : List Char) (hd : d.digits % 10 ≠ 0) :
    shortened (front ++ Value.listLayout.plain d) = front ++ Layout.print.plain d := by
  unfold Layout.plain
  split_ifs with he
  · have hw : Value.listLayout.wholeTail.toList = ['.','0'] := rfl
    have hp : Layout.print.wholeTail.toList = [] := rfl
    rw [hw,hp,List.append_nil,← List.append_assoc]
    exact shortened_append _
  · refine shortened_of_getLast? ?_
    have hback := getLast?_drop_padded hd (p := (-d.exponent).toNat) (by omega)
    have hne := drop_padded_ne_nil (n := d.digits) (p := (-d.exponent).toNat) (by omega)
    dsimp only
    rw [← List.append_assoc,List.getLast?_append_of_ne_nil _ (List.cons_ne_nil _ _),
      List.getLast?_cons_of_ne_nil hne]
    exact hback

end Numeral

open Double

namespace Layout

theorem write_of_parts (l : Layout) {x : Double} {b : Binary} (hm : x.magnitude = .finite b) :
    l.write x = signed x (l.positive b.shortest) := by rw [write,hm]

end Layout

section Display

variable {x : Double} {b : Binary}

theorem thousandth_le_iff (hlt : x.number < infinite) :
    Numeral.thousandth.le x.abs = true ↔ 10 ^ (-3 : Int) ≤ value x.number := by
  have hn : Numeral.thousandth.number = 0x3F50624DD2F1A9FC := rfl
  obtain ⟨hr,hle⟩ := rounds_thousandth
  rw [(compares_number rfl (isNegative_abs x) (by rw [hn]; decide) (by rwa [number_abs])).2.1,
    number_abs,hn]
  constructor
  · intro h
    exact le_trans hle (strictMono_value.monotone h)
  · intro h
    -- The double below the one that a thousandth is rounded to is less than a thousandth.
    refine Nat.le_of_not_lt fun hx => not_lt_of_ge h ?_
    have hbelow := (((rounds_iff_around (by decide)).mp hr).1 (by decide)).le
    have hv := strictMono_value.monotone (Nat.le_sub_one_of_lt hx)
    have hpred := strictMono_value (Nat.sub_lt (by decide : 0 < 0x3F50624DD2F1A9FC) Nat.one_pos)
    linarith

theorem lt_tenMillions_iff (hlt : x.number < infinite) :
    x.abs.lt Numeral.tenMillions = true ↔ value x.number < 10 ^ (7 : Int) := by
  have hn : Numeral.tenMillions.number = 0x416312D000000000 := rfl
  have hs : significand 0x416312D000000000 = 5368709120000000 := by decide
  have he : exponent 0x416312D000000000 = -29 := by decide
  have hv : value 0x416312D000000000 = 10 ^ (7 : Int) := by
    rw [value,ulp,hs,he]
    norm_num
  rw [(compares_number (isNegative_abs x) rfl (by rwa [number_abs]) (by rw [hn]; decide)).1,
    number_abs,hn,← hv]
  exact strictMono_value.lt_iff_lt.symm

theorem text_of_parts (hm : x.magnitude = .finite b) (hpos : 0 < x.number)
    (hlt : x.number < infinite) (hb : Parts x.number b) :
    Numeral.text x = if -3 ≤ b.shortest.leading ∧ b.shortest.leading < 7 then
      (Value.listLayout.write x).toList
    else (if x.isNegative then ['-'] else []) ++ Numeral.spread b.shortest := by
  have hs := shortest_of_parts hb hpos hlt
  have hd := Binary.shortest_digits_mod_ten (hs.digits_pos hpos)
  have hz : ¬x.abs.eqv .zero = true := by
    rw [(compares_number (isNegative_abs x) rfl (by rwa [number_abs]) (by decide)).2.2,number_abs]
    exact hpos.ne'
  have hrange : (x.abs.eqv .zero || Numeral.thousandth.le x.abs && x.abs.lt Numeral.tenMillions) = true ↔
      -3 ≤ b.shortest.leading ∧ b.shortest.leading < 7 := by
    rw [hs.leading_ge_iff hpos hlt,hs.leading_lt_seven_iff hpos hlt,← thousandth_le_iff hlt,
      ← lt_tenMillions_iff hlt]
    simp [hz]
  obtain ⟨e,he,hv⟩ := Layout.exists_unsigned?_positive Layout.legible_listLayout b.shortest
  have htrim : e.trim = b.shortest := by
    have hv : e.trim.value = b.shortest.value := e.value_trim.trans hv
    refine Decimal.eq_of_value_eq (e.trim_digits.resolve_left fun h0 => ?_) hd hv
    have hvpos := hs.value_pos hpos
    rw [← hv,Decimal.value,h0] at hvpos
    simp at hvpos
  have hwrite : (Value.listLayout.write x.abs).toList = Value.listLayout.positive b.shortest := by
    rw [Layout.write_of_parts _ (x.magnitude_abs.trans hm),Layout.toList_signed,isNegative_abs]
    rfl
  have hneg : (x.lt .zero) = x.isNegative := Bool.eq_iff_iff.mpr (lt_zero_iff hpos hlt)
  unfold Numeral.text
  rw [hwrite,he]
  dsimp only
  rw [hneg,htrim]
  exact if_congr hrange rfl rfl

theorem display_of_parts (hm : x.magnitude = .finite b) (hpos : 0 < x.number)
    (hlt : x.number < infinite) (hb : Parts x.number b) :
    Numeral.shortened (Numeral.text x) = (Layout.print.write x).toList := by
  have hs := shortest_of_parts hb hpos hlt
  have hd := Binary.shortest_digits_mod_ten (hs.digits_pos hpos)
  rw [text_of_parts hm hpos hlt hb,Layout.write_of_parts _ hm,Layout.write_of_parts _ hm,
    Layout.toList_signed,Layout.toList_signed]
  by_cases hr : -3 ≤ b.shortest.leading ∧ b.shortest.leading < 7
  · have hlist : Value.listLayout.positive b.shortest = Value.listLayout.plain b.shortest :=
      if_pos ⟨by show -4 ≤ _; omega,by show _ < 16; omega⟩
    have hprint : Layout.print.positive b.shortest = Layout.print.plain b.shortest := if_pos hr
    rw [if_pos hr,hlist,hprint,Numeral.shortened_plain _ hd]
  · have hprint : Layout.print.positive b.shortest = Layout.print.scientific b.shortest := if_neg hr
    rw [if_neg hr,hprint,← Numeral.spread_eq_scientific,Numeral.shortened_spread]

theorem display_of_zero (hm : x.magnitude = .zero) (hn : x.number = 0) :
    Numeral.shortened (Numeral.text x) = (Layout.print.write x).toList := by
  have hz : x.abs.eqv .zero = true := by
    rw [(compares_number (isNegative_abs x) rfl (by rw [number_abs,hn]; decide) (by decide)).2.2,
      number_abs]
    exact hn
  rw [Numeral.text,hz,Bool.true_or,if_pos rfl,Layout.write,Layout.write,hm]
  dsimp only
  have hlist : Value.listLayout.plain ⟨0,0⟩ = ['0'] ++ ['.','0'] := by decide
  have hprint : Layout.print.plain ⟨0,0⟩ = ['0'] := by decide
  rw [Layout.toList_signed,Layout.toList_signed,hlist,hprint,← List.append_assoc]
  exact Numeral.shortened_append _

/-- Printed numbers are laid out in one way. -/
theorem Value.display_number (x : Double) : (Value.number x).display = Layout.print.write x := by
  rw [display.eq_def]
  dsimp only
  cases form x with
  | nan hn hu hm =>
    rw [Layout.write,hm]
    rfl
  | infinity hn hu hm =>
    rw [Layout.write,hm]
    dsimp only
    rw [Layout.signed]
    cases hs : x.isNegative with
    | false =>
      rw [if_pos ((zero_lt_iff_of_infinite hn).mpr hs)]
      rfl
    | true =>
      rw [if_neg (by rw [zero_lt_iff_of_infinite hn,hs]; simp)]
      rfl
  | zero hn hu hm =>
    rw [hm]
    dsimp only
    rw [display_of_zero hm hn,String.ofList_toList]
  | finite b hpos hlt hu hm hb =>
    rw [hm]
    dsimp only
    rw [display_of_parts hm hpos hlt hb,String.ofList_toList]

end Display

/-- The printed numeral of a finite double is rounded to that double and to no other. No decimal with
fewer significant digits is rounded to it, and none with as many that is rounded to it is nearer. -/
theorem display_reads_back {x : Double} (h : x.isFinite = true) :
    ∃ d : Decimal, Numeral.read? (Value.number x).display = some (x.isNegative,d) ∧
      (∀ y : Double, RoundsTo x.isNegative d.value y ↔ y = x) ∧
      ∀ (s : Bool) (e : Decimal), RoundsTo s e.value x →
        d.significant ≤ e.significant ∧ (e.significant = d.significant →
          |d.value - value x.number| ≤ |e.value - value x.number|) := by
  obtain ⟨d,hd,hs⟩ := exists_read?_write Layout.legible_print h
  have hx : RoundsTo x.isNegative d.value x := ⟨rfl,hs.rounds⟩
  rw [Value.display_number]
  refine ⟨d,hd,fun y => ⟨fun hy => hy.unique hx,fun hy => hy ▸ hx⟩,fun s e he => ?_⟩
  exact ⟨hs.fewest e he.2,hs.nearest e he.2⟩

/-- The double `2 ^ (-44)`, which has a nearer neighbour below than above: the decimal of sixteen
digits that is nearest to it is not read back. -/
theorem display_reads_back_narrow :
    let x : Double := ⟨0x3D30000000000000⟩
    x.isFinite = true ∧ (Value.number x).display = "5.684341886080802E-14" ∧
      ∃ d : Decimal, Numeral.read? (Value.number x).display = some (x.isNegative,d) ∧
        (∀ y : Double, RoundsTo x.isNegative d.value y ↔ y = x) ∧
        ∀ (s : Bool) (e : Decimal), RoundsTo s e.value x →
          d.significant ≤ e.significant ∧ (e.significant = d.significant →
            |d.value - value x.number| ≤ |e.value - value x.number|) :=
  ⟨by decide,by decide +kernel,display_reads_back (by decide)⟩

/-- Two numbers are printed alike exactly when they are the same, whatever bits stand for them: if they have the
same bits, or if both are no numbers at all, whichever signs and payloads they have. So the operator that asks
whether two numbers are the same tells whether they are printed alike. -/
theorem Value.display_eq_iff_same (a b : Double) :
    ((number a).display = (number b).display ↔ (number a).same (number b) = true) ∧
    ((number a).display = (number b).display ↔
      a.bits = b.bits ∨ (a.magnitude = .nan ∧ b.magnitude = .nan)) ∧
    BinaryOp.same.apply (number a) (number b) =
      .ok (.bool ((number a).display = (number b).display)) := by
  have hd : (number a).display = (number b).display ↔ (number a).same (number b) = true := by
    rw [display_number,display_number]
    exact Layout.write_eq_iff_same Layout.legible_print Layout.apart_print
  refine ⟨hd,hd.trans same_iff_bits,?_⟩
  rw [BinaryOp.apply,Bool.eq_iff_iff.mpr (hd.symm.trans decide_eq_true_iff.symm)]

/-- Two patterns of no number, with other signs and payloads, and the two zeros. -/
example : (Value.number ⟨0x7ff8000000000001⟩).display = (Value.number ⟨0xfff0000000000002⟩).display ∧
    (Value.number ⟨0⟩).display ≠ (Value.number ⟨0x8000000000000000⟩).display := by decide

end ScriptEval
