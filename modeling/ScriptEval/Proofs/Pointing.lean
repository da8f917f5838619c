import Mathlib.Data.List.TakeWhile
import ScriptEval.Journal
import ScriptEval.Proofs.Bounds

/-! The picture of a failure points at its token: it shows the line that the place of the token falls in, and
the carets below begin in the column of that place and end with the line at the latest. This holds for every
sketcher that goes by the bounds of the text. -/
namespace ScriptEval

/-- The sketcher goes by the bounds of the text. The row of an offset is the number of bounds up to it, where the
end of the text is no bound; its column is counted from the bound before that number; a row reaches from one
bound to the next. A drawing is the line without the blanks at its end, and below it as many carets as are asked
for and the line has room for, but at least one. -/
structure Sketcher.Lawful (d : Sketcher) : Prop where
  row (text : String) (offset : Int) : (d.place text offset).1 =
    ((bounds text.toList).dropLast.countP fun (b : Nat) => (b : Int) ≤ offset : Nat)
  column (text : String) (offset : Int) (b : Nat) :
    nth? (bounds text.toList) ((d.place text offset).1 - 1) = some b →
      (d.place text offset).2 = offset - b
  line (text : String) (row : Int) (a b : Nat) :
    nth? (bounds text.toList) (max 0 (row - 1)) = some a →
      nth? (bounds text.toList) (max 0 (row - 1) + 1) = some b →
        (d.line text row).toList = slice text.toList a b
  draw (line : String) (column : Int) (width : Nat) (margin caption : String) :
    (d.draw line column width margin caption).toList = margin.toList ++ stripEnd line.toList ++
      '\n' :: (below (margin.toList ++ before line.toList column) ++
        List.replicate (max 1 (min (width : Int) (line.toList.length - column))).toNat '^' ++
        ' ' :: caption.toList)

def Sketcher.sketch (d : Sketcher) (text : String) (offset : Int) (width : Nat) (caption : String) :
    String :=
  let (row,column) := d.place text offset
  d.draw (d.line text row) column width (margin row) caption

theorem Failure.picture?_of_offset {f : Failure} {i : Int} (h : f.token.offset = some i) (d : Sketcher)
    (source caption : String) :
    f.picture? d source caption = some (d.sketch source i f.token.width caption) := by
  rw [picture?,h]
  rfl

theorem Sketcher.lawful_plain : plain.Lawful where
  row _ _ := rfl
  column text offset b h := congrArg (fun o : Option Nat => offset - (o.getD 0 : Nat)) h
  line text row a b ha hb := by
    simp only [plain,String.toList_ofList,ha,hb,Option.getD_some]
  draw _ _ _ _ _ := by simp only [plain,String.toList_ofList]

/-- Two rows. The first is the number of the row, after a blank and right-aligned to six columns, a bar, and the
line up to the blanks at its end. The second has as many characters as there are before the column, tabs where
the row above and the whole line have tabs and blanks elsewhere, and then carets and a caption. -/
def Shows (picture : String) (row : Nat) (l : List Char) (column carets : Nat) (caption : String) :
    Prop :=
  let number := Nat.toDigits 10 row
  let margin := List.replicate (5 - number.length) ' ' ++ ' ' :: number ++ [' ','|']
  ∃ shown rest indent : List Char, l = shown ++ rest ∧ (∀ c ∈ rest, c.toNat ∈ blanks) ∧
    (∀ c, shown.getLast? = some c → c.toNat ∉ blanks) ∧ '\n' ∉ margin ++ shown ∧
    picture.toList = margin ++ shown ++
      '\n' :: (indent ++ List.replicate carets '^' ++ ' ' :: caption.toList) ∧
    indent.length = margin.length + column ∧
    ∀ j < indent.length, indent[j]? = some (if (margin ++ l)[j]? = some '\t' then '\t' else ' ')

theorem toList_margin (row : Nat) : (margin row).toList =
    List.replicate (5 - (Nat.toDigits 10 row).length) ' ' ++ ' ' :: Nat.toDigits 10 row ++ [' ','|'] := by
  have hr : ¬(row : Int) < 0 := by omega
  simp only [margin,String.toList_ofList,if_neg hr,Int.natAbs_natCast,List.leftpad,List.length_cons,
    Nat.add_sub_add_right 5 1]

theorem newline_not_mem_margin (row : Nat) : '\n' ∉ (margin row).toList := by
  have hd : '\n' ∉ Nat.toDigits 10 row := fun h =>
    absurd (Nat.isDigit_of_mem_toDigits (by decide) (by decide) h) (by decide)
  simp [toList_margin,hd]

variable {s l : List Char}

theorem exists_stripped (l : List Char) :
    ∃ rest, l = stripEnd l ++ rest ∧ ∀ c ∈ rest, c.toNat ∈ blanks := by
  refine ⟨(l.reverse.takeWhile fun c => blanks.contains c.toNat).reverse,?_,fun c hc => ?_⟩
  · rw [stripEnd,← List.reverse_append,List.takeWhile_append_dropWhile,List.reverse_reverse]
  · simpa using List.mem_takeWhile_imp (List.mem_reverse.mp hc)

theorem not_mem_blanks_of_getLast? {c : Char} (h : (stripEnd l).getLast? = some c) :
    c.toNat ∉ blanks := by
  have hd := List.head?_dropWhile_not (fun c : Char => blanks.contains c.toNat) l.reverse
  rw [← List.getLast?_reverse,← stripEnd,h] at hd
  simpa using hd

theorem newline_not_mem_stripEnd (h : l ∈ lines s) : '\n' ∉ stripEnd l := by
  obtain ⟨body,br,rfl,hbody,hbr⟩ := exists_body s l h
  have hblank : ∀ c ∈ br.reverse, blanks.contains c.toNat = true := by
    intro c hc
    rcases hbr c (List.mem_reverse.mp hc) with rfl | rfl <;> decide
  intro hn
  rw [stripEnd,List.reverse_append,List.dropWhile_append_of_pos hblank,List.mem_reverse] at hn
  exact hbody (List.mem_reverse.mp ((List.dropWhile_sublist _).subset hn))

theorem length_below (l : List Char) : (below l).length = l.length := by rw [below,List.length_map]

theorem getElem?_below {j : Nat} (h : j < l.length) :
    (below l)[j]? = some (if l[j]? = some '\t' then '\t' else ' ') := by
  rw [below,List.getElem?_map,List.getElem?_eq_getElem h,Option.map_some]
  simp only [Option.some.injEq]

theorem nth?_natCast (ms : List Nat) (k : Nat) : nth? ms k = ms[k]? := by
  rw [nth?,if_neg (by omega),Int.toNat_natCast]

/-- The line behind `k` breaks, which begins at `a`: it reaches from one bound to the next. -/
structure IsLine (s : List Char) (k a : Nat) (l : List Char) : Prop where
  start : (bounds s)[k]? = some a
  stop : (bounds s)[k + 1]? = some (a + l.length)
  eq_slice : l = slice s a (a + l.length)

variable {k a b o : Nat}

theorem isLine_slice (hk : (bounds s)[k]? = some a) (hb : (bounds s)[k + 1]? = some b)
    (hab : a ≤ b) (hle : b ≤ s.length) : IsLine s k a (slice s a b) := by
  have hlen : a + (slice s a b).length = b := by
    rw [slice,List.length_drop,List.length_take]
    omega
  constructor <;> simp only [hlen,hk,hb]

theorem IsLine.getElem?_sub (h : IsLine s k a l) (ha : a ≤ o) (ho : o < a + l.length) :
    l[o - a]? = s[o]? := by
  rw [h.eq_slice,slice,List.getElem?_drop,Nat.add_sub_cancel' ha,List.getElem?_take_of_lt ho]

/-- A place in the text or past it is in the line behind the breaks that end up to there. -/
theorem exists_isLine (s : List Char) (o : Nat) :
    ∃ a l, IsLine s ((breakEnds s).countP (· ≤ o)) a l ∧ a ≤ o ∧ l ∈ lines s ∧
      (o < s.length → o < a + l.length) ∧ (s.length ≤ o → a + l.length = s.length) := by
  obtain ⟨a,b,hh,hm⟩ := exists_holds (lines_ne_nil s) o
  rw [starts_lines,marks_lines,flatten_lines] at hh
  rw [flatten_lines] at hm
  have hl := isLine_slice hh.start hh.stop hh.start_le_stop hh.stop_le
  have hb : a + (slice s a b).length = b := Option.some.inj (hl.stop.symm.trans hh.stop)
  refine ⟨a,slice s a b,hl,hh.start_le,hm,fun h => ?_,fun h => ?_⟩
  · rw [hb]
    exact hh.lt_stop h
  · rw [hb]
    exact hh.stop_eq h

theorem exists_isLine_zero (s : List Char) : ∃ l, IsLine s 0 0 l ∧ l ∈ lines s := by
  obtain ⟨b,hb,hle,hl⟩ := exists_first (lines_ne_nil s)
  rw [marks_lines] at hb
  rw [flatten_lines] at hle hl
  refine ⟨slice s 0 b,isLine_slice rfl hb (Nat.zero_le b) hle,?_⟩
  obtain ⟨l,ls,hls⟩ := List.exists_cons_of_ne_nil (lines_ne_nil s)
  rw [slice,List.drop_zero,← hl,hls]
  exact List.mem_cons_self

theorem countP_breakEnds (ho : s.length ≤ o) :
    (breakEnds s).countP (· ≤ o) = (breakEnds s).length := by
  refine List.countP_eq_length.mpr fun n hn => ?_
  obtain ⟨j,hj,rfl⟩ := List.mem_map.mp hn
  have hj := List.mem_range.mp (List.mem_filter.mp hj).1
  simp only [decide_eq_true_eq]
  omega

theorem dropLast_bounds (s : List Char) : (bounds s).dropLast = 0 :: breakEnds s := by
  rw [bounds,← List.cons_append,List.dropLast_concat]

namespace Sketcher.Lawful

variable {d : Sketcher} {text : String} {i : Int}

/-- A place in the text or past it is told by its line. -/
theorem place_natCast (hd : d.Lawful) (hk : k = (breakEnds text.toList).countP (· ≤ o))
    (hl : IsLine text.toList k a l) :
    d.place text o = (((k + 1 : Nat) : Int),(o : Int) - a) ∧ (d.line text (k + 1 : Nat)).toList = l := by
  have hrow : (d.place text o).1 = (k + 1 : Nat) := by
    rw [hd.row,dropLast_bounds,List.countP_cons_of_pos (by simp),hk]
    simp only [Int.ofNat_le]
  have hpred : ((k + 1 : Nat) : Int) - 1 = k := by omega
  have hmax : max 0 (((k + 1 : Nat) : Int) - 1) = k := by omega
  have hnext : max 0 (((k + 1 : Nat) : Int) - 1) + 1 = (k + 1 : Nat) := by omega
  refine ⟨Prod.ext hrow (hd.column text o a ?_),?_⟩
  · rw [hrow,hpred,nth?_natCast,hl.start]
  · rw [hd.line text (k + 1 : Nat) a (a + l.length),← hl.eq_slice]
    · rw [hmax,nth?_natCast,hl.start]
    · rw [hnext,nth?_natCast,hl.stop]

theorem place_of_neg (hd : d.Lawful) (hi : i < 0) (hl : IsLine text.toList 0 0 l) :
    d.place text i = (0,i - text.toList.length) ∧ (d.line text 0).toList = l := by
  have hrow : (d.place text i).1 = 0 := by
    rw [hd.row,Int.natCast_eq_zero,List.countP_eq_zero]
    intro b _
    simp only [decide_eq_true_eq]
    omega
  refine ⟨Prod.ext hrow (hd.column text i _ ?_),?_⟩
  · rw [hrow,bounds,← List.cons_append]
    simp [nth?]
  · rw [hd.line text 0 0 (0 + l.length),← hl.eq_slice]
    · exact hl.start
    · exact hl.stop

/-- A line of the text is drawn whole, with carets from the column on. -/
theorem shows_sketch (hd : d.Lawful) {row width c n : Nat} {column : Int}
    (hp : d.place text i = ((row : Int),column)) (hl : (d.line text row).toList = l) (hm : l ∈ lines s)
    (hb : before l column = l.take c) (hc : c ≤ l.length)
    (hn : (max 1 (min (width : Int) (l.length - column))).toNat = n) (caption : String) :
    Shows (d.sketch text i width caption) row l c n caption := by
  obtain ⟨rest,hrest,hblank⟩ := exists_stripped l
  have hlen : ((margin row).toList ++ l.take c).length = (margin row).toList.length + c := by
    rw [List.length_append,List.length_take,Nat.min_eq_left hc]
  refine ⟨stripEnd l,rest,below ((margin row).toList ++ l.take c),hrest,hblank,
    fun _ => not_mem_blanks_of_getLast?,?_,?_,?_,fun j hj => ?_⟩
  · rw [← toList_margin,List.mem_append,not_or]
    exact ⟨newline_not_mem_margin row,newline_not_mem_stripEnd hm⟩
  · rw [sketch,hp,hd.draw,hl,hb,hn,toList_margin]
  · rw [length_below,hlen,toList_margin]
  · rw [length_below] at hj
    have htake : ((margin row).toList ++ l.take c)[j]? = ((margin row).toList ++ l)[j]? := by
      rw [← List.take_length_add_append,List.getElem?_take_of_lt (hlen ▸ hj)]
    rw [getElem?_below hj,htake,toList_margin]

variable (hd : d.Lawful) (width : Nat) (caption : String)

include hd

/-- A place in the text is pointed at where it stands in its line. -/
theorem shows_within (ho : o ≤ text.toList.length) :
    ∃ a l, IsLine text.toList ((breakEnds text.toList).countP (· ≤ o)) a l ∧ a ≤ o ∧
      Shows (d.sketch text o width caption) ((breakEnds text.toList).countP (· ≤ o) + 1) l (o - a)
        (max 1 (min width (l.length - (o - a)))) caption ∧
      (o < text.toList.length → l[o - a]? = text.toList[o]? ∧
        (o - a) + max 1 (min width (l.length - (o - a))) ≤ l.length) := by
  obtain ⟨a,l,hl,ha,hm,hlt,heq⟩ := exists_isLine text.toList o
  obtain ⟨hp,hline⟩ := hd.place_natCast rfl hl
  have hroom : o - a ≤ l.length := by
    rcases Nat.lt_or_eq_of_le ho with h | h
    · have := hlt h
      omega
    · have := heq (Nat.le_of_eq h.symm)
      omega
  refine ⟨a,l,hl,ha,?_,fun h => ⟨hl.getElem?_sub ha (hlt h),?_⟩⟩
  · have hb : before l ((o : Int) - a) = l.take (o - a) := by
      rw [before,if_neg (by omega)]
      congr 1
      omega
    exact hd.shows_sketch hp hline hm hb hroom (by omega) caption
  · have := hlt h
    omega

theorem shows_past (ho : text.toList.length < o) :
    ∃ a l, IsLine text.toList (breakEnds text.toList).length a l ∧
      a + l.length = text.toList.length ∧
      Shows (d.sketch text o width caption) ((breakEnds text.toList).length + 1) l l.length 1 caption := by
  obtain ⟨a,l,hl,ha,hm,_,heq⟩ := exists_isLine text.toList o
  have hlen := heq (Nat.le_of_lt ho)
  obtain ⟨hp,hline⟩ := hd.place_natCast rfl hl
  rw [countP_breakEnds (Nat.le_of_lt ho)] at hl hp hline
  have hb : before l ((o : Int) - a) = l.take l.length := by
    rw [before,if_neg (by omega),List.take_length,List.take_of_length_le (by omega)]
  exact ⟨a,l,hl,hlen,hd.shows_sketch hp hline hm hb (Nat.le_refl _) (by omega) caption⟩

theorem shows_before (hw : 1 ≤ width) (hi : i < 0) :
    ∃ l, IsLine text.toList 0 0 l ∧
      Shows (d.sketch text i width caption) 0 l 0
        (min width (l.length + text.toList.length + i.natAbs)) caption := by
  obtain ⟨l,hl,hm⟩ := exists_isLine_zero text.toList
  obtain ⟨hp,hline⟩ := hd.place_of_neg hi hl
  have hle : l.length ≤ text.toList.length := by
    rw [hl.eq_slice,slice,List.length_drop,List.length_take]
    omega
  have hb : before l (i - text.toList.length) = l.take 0 := by
    rw [before,if_pos (by omega)]
    congr 1
    omega
  exact ⟨l,hl,hd.shows_sketch hp hline hm hb (Nat.zero_le _) (by omega) caption⟩

end Sketcher.Lawful

/-- The picture of a failure points at its token. A place in the source is shown in the line whose number is
one more than the number of breaks that end up to there. The carets begin below the character of that place
and are as many as the token is wide, as far as the line with its break has room, but at least one. So
they stay below the line unless the place is the end of the source. A place past the source is shown by one
caret behind the last line, and a place before it by carets in front of the first line, on a row zero. -/
theorem Failure.picture_points {d : Sketcher} (hd : d.Lawful) (f : Failure) (source given : String) :
    let width := max f.token.lexeme.length 1
    let caption := if given = "" then f.message else given
    (f.token.offset = none → f.picture? d source (f.caption given) = none) ∧
    ∀ i, f.token.offset = some i → ∃ picture, f.picture? d source (f.caption given) = some picture ∧
      (∀ o : Nat, i = o → o ≤ source.length → ∃ k a l,
        k = (breakEnds source.toList).countP (· ≤ o) ∧ IsLine source.toList k a l ∧ a ≤ o ∧
        Shows picture (k + 1) l (o - a) (max 1 (min width (l.length - (o - a)))) caption ∧
        (o < source.length → l[o - a]? = source.toList[o]? ∧
          (o - a) + max 1 (min width (l.length - (o - a))) ≤ l.length)) ∧
      (∀ o : Nat, i = o → source.length < o → ∃ k a l,
        k = (breakEnds source.toList).length ∧ IsLine source.toList k a l ∧
        a + l.length = source.length ∧ Shows picture (k + 1) l l.length 1 caption) ∧
      (i < 0 → ∃ l, IsLine source.toList 0 0 l ∧
        Shows picture 0 l 0 (min width (l.length + source.length + i.natAbs)) caption) ∧
      ∀ j : Journal, j.source = some source → j.sketcher = d → given = "" →
        j.explain f = f.message ++ "\n[line " ++ toString f.token.line ++ "]" ++ "\n" ++ picture := by
  intro width caption
  refine ⟨fun h => by rw [picture?,h,Option.map_none],fun i h =>
    ⟨d.sketch source i width caption,picture?_of_offset h d source _,?_,?_,?_,?_⟩⟩
  · rintro o rfl ho
    rw [← String.length_toList] at ho
    obtain ⟨a,l,hl,ha,hs,hc⟩ := hd.shows_within width caption ho
    rw [String.length_toList] at hc
    exact ⟨_,a,l,rfl,hl,ha,hs,hc⟩
  · rintro o rfl ho
    rw [← String.length_toList] at ho
    obtain ⟨a,l,hl,hlen,hs⟩ := hd.shows_past width caption ho
    rw [String.length_toList] at hlen
    exact ⟨_,a,l,rfl,hl,hlen,hs⟩
  · intro hi
    rw [← String.length_toList]
    exact hd.shows_before width caption f.token.one_le_width hi
  · intro j hj hsk hg
    have hcaption : caption = f.message := if_pos hg
    rw [Journal.explain,hj,Option.bind_some,hsk,picture?_of_offset h,hcaption]
    rfl

/-- A text in quotes over two lines, behind a tab on the second line: the carets stop at the break. -/
theorem Failure.picture_points_broken :
    let f := Failure.general ⟨.string,"\"c\rd\"",2,some 8⟩ "No."
    let source := "a\r\n\tb = \"c\rd\";"
    let picture := "     2 |\tb = \"c\n        \t    ^^^ No."
    f.token.offset = some 8 ∧ f.picture? .plain source (f.caption "") = some picture ∧
      ∃ l, IsLine source.toList 1 3 l ∧ l[8 - 3]? = source.toList[8]? ∧
        Shows picture 2 l 5 3 "No." := by
  intro f source picture
  have hpic : f.picture? .plain source (f.caption "") = some picture := by decide +kernel
  obtain ⟨p,hp,hwithin,_⟩ := (Failure.picture_points Sketcher.lawful_plain f source "").2 8 rfl
  obtain ⟨k,a,l,hk,hl,_,hs,hc⟩ := hwithin 8 rfl (by decide +kernel)
  obtain rfl : p = picture := Option.some.inj (hp.symm.trans hpic)
  obtain rfl : k = 1 := hk.trans (by decide +kernel)
  have ha : (bounds source.toList)[1]? = some 3 := by decide +kernel
  obtain rfl : a = 3 := Option.some.inj (hl.start.symm.trans ha)
  have hb : (bounds source.toList)[2]? = some 11 := by decide +kernel
  have hlen : l.length = 8 := Nat.add_left_cancel (Option.some.inj (hl.stop.symm.trans hb))
  have hcarets : max 1 (min (max f.token.lexeme.length 1) (8 - (8 - 3))) = 3 := by decide +kernel
  have hcaption : (if "" = "" then f.message else "") = "No." := if_pos rfl
  rw [hlen,hcarets,hcaption] at hs
  exact ⟨rfl,hpic,l,hl,(hc (by decide +kernel)).1,hs⟩

end ScriptEval
