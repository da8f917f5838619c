import ScriptEval.Expr.Eval
import ScriptEval.Proofs.Points

/-! The operators that order numbers. They answer by the points of the two numbers, and what is no number is less
than nothing and nothing is less than it. -/
namespace ScriptEval

namespace Token

open Double

variable {op lt le gt ge eq : Token} {a b : Double}

def Holds (op : Token) (a b : Double) : Prop := op.binary (.number a) (.number b) = .ok (.bool true)

/-- The operator answers no, which is more than not to answer yes. -/
def Fails (op : Token) (a b : Double) : Prop := op.binary (.number a) (.number b) = .ok (.bool false)

structure Decides (op : Token) (a b : Double) (p : Bool) : Prop where
  holds_iff : op.Holds a b ↔ p = true
  fails_iff : op.Fails a b ↔ ¬p = true

theorem Decides.of_apply {f : BinaryOp} {p : Bool} (hk : BinaryOp.ofKind? op.kind = some f)
    (hf : f.apply (.number a) (.number b) = .ok (.bool p)) : op.Decides a b p := by
  have h : op.binary (.number a) (.number b) = .ok (.bool p) := by
    rw [binary,hk]
    simp [hf,Except.mapError]
  constructor <;> simp [Holds,Fails,h]

theorem Decides.holds_or_fails {p : Bool} (h : op.Decides a b p) : op.Holds a b ∨ op.Fails a b := by
  rw [h.holds_iff,h.fails_iff]
  exact Classical.em _

/-- The four orderings of two numbers are those of their points, where both have one, and fail where one of
the numbers has none. Two numbers are the same if neither has a point, whatever bits they have, or if each is at
most the other and they have one sign; then none is less than the other. -/
theorem orderings_agree_with_points (hlt : lt.kind = .less) (hle : le.kind = .lessEqual)
    (hgt : gt.kind = .greater) (hge : ge.kind = .greaterEqual) (heq : eq.kind = .equalEqual) (a b : Double) :
    (∀ op ∈ [lt,le,gt,ge,eq], op.Holds a b ∨ op.Fails a b) ∧
    (point? a = none ∨ point? b = none → ∀ op ∈ [lt,le,gt,ge], op.Fails a b) ∧
    (∀ p q, point? a = some p → point? b = some q →
      (lt.Holds a b ↔ p < q) ∧ (gt.Holds a b ↔ lt.Holds b a) ∧
      (le.Holds a b ↔ ¬gt.Holds a b) ∧ (ge.Holds a b ↔ ¬lt.Holds a b)) ∧
    (eq.Holds a b ↔ (point? a = none ∧ point? b = none) ∨
      (le.Holds a b ∧ le.Holds b a ∧ a.isNegative = b.isNegative)) ∧
    (eq.Holds a b → lt.Fails a b ∧ gt.Fails a b) := by
  have dlt : ∀ a b, lt.Decides a b (a.lt b) := fun _ _ =>
    .of_apply (f := .onNumbers .less) (by rw [hlt]; rfl) rfl
  have dle : ∀ a b, le.Decides a b (a.le b) := fun _ _ =>
    .of_apply (f := .onNumbers .lessEqual) (by rw [hle]; rfl) rfl
  have dgt : ∀ a b, gt.Decides a b (b.lt a) := fun _ _ =>
    .of_apply (f := .onNumbers .greater) (by rw [hgt]; rfl) rfl
  have dge : ∀ a b, ge.Decides a b (b.le a) := fun _ _ =>
    .of_apply (f := .onNumbers .greaterEqual) (by rw [hge]; rfl) rfl
  have deq : ∀ a b, eq.Decides a b (a.same b) := fun _ _ =>
    .of_apply (f := .same) (by rw [heq]; rfl) rfl
  have hnone : point? a = none ∨ point? b = none → lt.Fails a b ∧ le.Fails a b ∧ gt.Fails a b ∧
      ge.Fails a b := by
    intro h
    rw [(dlt a b).fails_iff,(dle a b).fails_iff,(dgt a b).fails_iff,(dge a b).fails_iff]
    exact ⟨not_lt_of_none h,not_le_of_none h,not_lt_of_none h.symm,not_le_of_none h.symm⟩
  refine ⟨?_,?_,fun p q ha hb => ?_,?_,fun h => ?_⟩
  · simp only [List.forall_mem_cons,List.not_mem_nil,false_implies,implies_true,and_true]
    exact ⟨(dlt a b).holds_or_fails,(dle a b).holds_or_fails,(dgt a b).holds_or_fails,
      (dge a b).holds_or_fails,(deq a b).holds_or_fails⟩
  · simpa only [List.forall_mem_cons,List.not_mem_nil,false_implies,implies_true,and_true] using hnone
  · rw [(dlt a b).holds_iff,(dgt a b).holds_iff,(dlt b a).holds_iff,(dle a b).holds_iff,
      (dge a b).holds_iff,lt_iff ha hb,lt_iff hb ha,le_iff ha hb,le_iff hb ha,not_lt,not_lt]
    exact ⟨Iff.rfl,Iff.rfl,Iff.rfl,Iff.rfl⟩
  · rw [(deq a b).holds_iff,(dle a b).holds_iff,(dle b a).holds_iff]
    exact same_iff_le
  · rcases same_iff_le.mp ((deq a b).holds_iff.mp h) with ⟨ha,_⟩ | ⟨hab,hba,_⟩
    · exact ⟨(hnone (.inl ha)).1,(hnone (.inl ha)).2.2.1⟩
    · exact ⟨(dlt a b).fails_iff.mpr (not_lt_of_swap_le hba),
        (dgt a b).fails_iff.mpr (not_lt_of_swap_le hab)⟩

/-- The two zeros have one point, so neither is less and each is at most the other, but they are not the same.
Two patterns of no number, with other signs and payloads, are not at most each other, but the same. -/
theorem orderings_agree_with_points_zeros :
    let lt : Token := ⟨.less,"<",1,none⟩
    let le : Token := ⟨.lessEqual,"<=",1,none⟩
    let gt : Token := ⟨.greater,">",1,none⟩
    let ge : Token := ⟨.greaterEqual,">=",1,none⟩
    let eq : Token := ⟨.equalEqual,"==",1,none⟩
    let x : Double := ⟨0x8000000000000000⟩
    let y : Double := ⟨0⟩
    let m : Double := ⟨0xfff8000000000001⟩
    let n : Double := ⟨0x7ff0000000000002⟩
    point? x = some (.ofRat 0) ∧ point? y = some (.ofRat 0) ∧ point? m = none ∧ point? n = none ∧
      ¬lt.Holds x y ∧ ¬gt.Holds x y ∧ le.Holds x y ∧ ge.Holds x y ∧ ¬eq.Holds x y ∧
      (∀ op ∈ [lt,le,gt,ge], op.Fails m n) ∧ eq.Holds m n := by
  intro lt le gt ge eq x y m n
  have h := @orderings_agree_with_points lt le gt ge eq rfl rfl rfl rfl rfl
  have hzero {z : Double} (hz : z.number = 0) : point? z = some (.ofRat 0) := by
    rw [point?_of_lt_infinite (by rw [hz]; decide),hz,value_zero,signed_zero]
  have hx : point? x = some (.ofRat 0) := hzero (by decide)
  have hy : point? y = some (.ofRat 0) := hzero (by decide)
  have hm : point? m = none := point?_eq_none_iff.mpr (magnitude_eq_nan_iff.mpr (by decide))
  have hn : point? n = none := point?_eq_none_iff.mpr (magnitude_eq_nan_iff.mpr (by decide))
  obtain ⟨_,_,hxy,hsame,_⟩ := h x y
  obtain ⟨hlt,hgt,hle,hge⟩ := hxy _ _ hx hy
  obtain ⟨hlt',_⟩ := (h y x).2.2.1 _ _ hy hx
  have hnlt : ¬lt.Holds x y := fun hl => absurd (hlt.mp hl) (lt_irrefl _)
  have hngt : ¬gt.Holds x y := fun hg => absurd (hlt'.mp (hgt.mp hg)) (lt_irrefl _)
  obtain ⟨_,hfails,_,hself,_⟩ := h m n
  refine ⟨hx,hy,hm,hn,hnlt,hngt,hle.mpr hngt,hge.mpr hnlt,fun he => ?_,hfails (.inl hm),
    hself.mpr (.inl ⟨hm,hn⟩)⟩
  rcases hsame.mp he with ⟨hnone,_⟩ | ⟨_,_,hs⟩
  · rw [hx] at hnone
    cases hnone
  · exact absurd hs (by decide)

end Token
end ScriptEval
