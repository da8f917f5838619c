import ScriptEval.Proofs.LikeSteps
import ScriptEval.Proofs.Listing
import ScriptEval.Proofs.ReadBack

/-! Values that are the same cannot be told apart by programs: in place of each other they lead to
the same failures, the same output and the same values. What is no number at all has many patterns of bits, and no
operator lets its sign or its payload show; the two zeros, which division tells apart, are not the same. -/
namespace ScriptEval

namespace Double

variable {a b c d : Double}

theorem same_of_nan (ha : a.magnitude = .nan) (hb : b.magnitude = .nan) : a.same b = true :=
  same_iff.mpr (.inr ⟨ha,hb⟩)

theorem same_self (a : Double) : a.same a = true := same_iff.mpr (.inl rfl)

theorem same_neg (h : a.same b = true) : a.neg.same b.neg = true := by
  rcases same_iff.mp h with rfl | ⟨ha,hb⟩
  · exact same_self _
  · exact same_of_nan (a.magnitude_neg.trans ha) (b.magnitude_neg.trans hb)

/-- An operation that gives no number for what is none gives the same for the same. -/
theorem same_congr {f : Double → Double → Double}
    (hf : ∀ x y, x.magnitude = .nan ∨ y.magnitude = .nan → (f x y).magnitude = .nan)
    (h : a.same b = true) (h' : c.same d = true) : (f a c).same (f b d) = true := by
  rcases same_iff.mp h with rfl | ⟨ha,hb⟩
  · rcases same_iff.mp h' with rfl | ⟨hc,hd⟩
    · exact same_self _
    · exact same_of_nan (hf _ _ (.inr hc)) (hf _ _ (.inr hd))
  · exact same_of_nan (hf _ _ (.inl ha)) (hf _ _ (.inl hb))

theorem eq_of_same {p : Double → Double → Bool}
    (hp : ∀ x y, x.magnitude = .nan ∨ y.magnitude = .nan → p x y = false)
    (h : a.same b = true) (h' : c.same d = true) : p a c = p b d := by
  rcases same_iff.mp h with rfl | ⟨ha,hb⟩
  · rcases same_iff.mp h' with rfl | ⟨hc,hd⟩
    · rfl
    · rw [hp _ _ (.inr hc),hp _ _ (.inr hd)]
  · rw [hp _ _ (.inl ha),hp _ _ (.inl hb)]

/-- Neither sign is looked at where the dividend is no number. -/
theorem magnitude_quotient_of_nan (h : a.magnitude = .nan ∨ b.magnitude = .nan) :
    (quotient a b).magnitude = .nan := by
  unfold quotient
  by_cases hb : b.eqv zero = true
  · have hbz := magnitude_eq_zero_iff.mpr (eqv_zero_iff.mp hb)
    have ha : a.magnitude = .nan := h.resolve_right fun hn => by
      rw [hbz] at hn
      cases hn
    rw [if_pos hb,if_pos (by rw [isNaN_iff.mpr ha,Bool.or_true])]
    exact magnitude_eq_nan_iff.mpr (by decide)
  · rw [if_neg hb]
    exact magnitude_lift_of_nan _ h

theorem lt_of_nan (h : a.magnitude = .nan ∨ b.magnitude = .nan) : a.lt b = false :=
  Bool.eq_false_iff.mpr (not_lt_of_none (h.imp point?_eq_none_iff.mpr point?_eq_none_iff.mpr))

theorem le_of_nan (h : a.magnitude = .nan ∨ b.magnitude = .nan) : a.le b = false :=
  Bool.eq_false_iff.mpr (not_le_of_none (h.imp point?_eq_none_iff.mpr point?_eq_none_iff.mpr))

end Double

namespace Value

open Double

inductive Twins : Value → Value → Prop
  | nil : Twins nil nil
  | bool (b : Bool) : Twins (bool b) (bool b)
  | number {x y : Double} (h : x.same y = true) : Twins (number x) (number y)
  | text (s : String) : Twins (text s) (text s)

variable {a b c d : Value}

theorem twins (h : a.same b = true) : Twins a b := by
  cases a <;> cases b <;> simp only [same,Bool.false_eq_true] at h
  · exact .nil
  · obtain rfl := beq_iff_eq.mp h
    exact .bool _
  · exact .number h
  · obtain rfl := beq_iff_eq.mp h
    exact .text _

theorem same_self (a : Value) : a.same a = true := same_equivalence.refl a

theorem Twins.truthy_eq (h : Twins a b) : a.truthy = b.truthy := by cases h <;> rfl

theorem Twins.display_eq (h : Twins a b) : a.display = b.display := by
  cases h with
  | number h => exact (display_eq_iff_same _ _).1.mpr h
  | nil | bool | text => rfl

theorem same_congr (h : a.same b = true) (h' : c.same d = true) : a.same c = b.same d := by
  have hab := same_equivalence.symm h
  have hcd := same_equivalence.symm h'
  exact Bool.eq_iff_iff.mpr ⟨fun hac => same_equivalence.trans hab (same_equivalence.trans hac h'),
    fun hbd => same_equivalence.trans h (same_equivalence.trans hbd hcd)⟩

end Value

namespace Outcomes

open Double

abbrev Same : Except Demand Value → Except Demand Value → Prop :=
  Outcomes Eq fun a b => a.same b = true

theorem same_bool {p q : Bool} (h : p = q) : Same (.ok (.bool p)) (.ok (.bool q)) :=
  h ▸ .ok (Value.same_self _)

variable {a b c d : Value}

theorem same_unary (f : UnaryOp) (h : a.same b = true) : Same (f.apply a) (f.apply b) := by
  have ht := Value.twins h
  cases f with
  | negate =>
    cases ht with
    | number h => exact .ok (same_neg h)
    | nil | bool | text => exact .error rfl
  | not => exact same_bool (congrArg Bool.not ht.truthy_eq)

theorem same_onNumbers (f : NumberOp) {w x y z : Double} (h : w.same x = true) (h' : y.same z = true) :
    (f.apply w y).same (f.apply x z) = true := by
  cases f with
  | subtract => exact Double.same_congr (fun _ _ => magnitude_lift_of_nan _) h h'
  | multiply => exact Double.same_congr (fun _ _ => magnitude_lift_of_nan _) h h'
  | divide => exact Double.same_congr (fun _ _ => magnitude_quotient_of_nan) h h'
  | less => exact beq_iff_eq.mpr (eq_of_same (fun _ _ => lt_of_nan) h h')
  | lessEqual => exact beq_iff_eq.mpr (eq_of_same (fun _ _ => le_of_nan) h h')
  | greater => exact beq_iff_eq.mpr (eq_of_same (fun _ _ => lt_of_nan) h' h)
  | greaterEqual => exact beq_iff_eq.mpr (eq_of_same (fun _ _ => le_of_nan) h' h)

theorem same_binary (f : BinaryOp) (h : a.same b = true) (h' : c.same d = true) :
    Same (f.apply a c) (f.apply b d) := by
  cases f with
  | same => exact same_bool (Value.same_congr h h')
  | differ => exact same_bool (congrArg Bool.not (Value.same_congr h h'))
  | add =>
    cases Value.twins h with
    | number h =>
      cases Value.twins h' with
      | number h' => exact .ok (Double.same_congr (fun _ _ => magnitude_lift_of_nan _) h h')
      | nil | bool | text => exact .error rfl
    | text s =>
      cases Value.twins h' with
      | text t => exact .ok (Value.same_self _)
      | nil | bool | number => exact .error rfl
    | nil | bool => exact .error rfl
  | onNumbers f =>
    cases Value.twins h with
    | number h =>
      cases Value.twins h' with
      | number h' => exact .ok (same_onNumbers f h h')
      | nil | bool | text => exact .error rfl
    | nil | bool | text => exact .error rfl

end Outcomes

namespace Likeness

/-- Values stand for the values that are the same. Everything else stands for itself. -/
def same : Likeness where
  operator := Eq
  name := Eq
  label := Eq
  value a b := a.same b = true
  kind_eq h := by rw [h]
  label_of_name h := by rw [h]
  label_unique h h' := by rw [h,h']
  nil := rfl
  truthy_eq h := (Value.twins h).truthy_eq
  display_eq h := (Value.twins h).display_eq
  unary f _ _ h := Outcomes.same_unary f h
  binary f _ _ _ _ h h' := Outcomes.same_binary f h h'

theorem keepsTokens_same : same.KeepsTokens := ⟨id,id⟩

theorem forests_same (F : Forest) : same.Forests F F where
  size_eq := rfl
  outer_eq _ := rfl
  bindings i m n h := by
    obtain rfl : m = n := h
    cases (F.bindings i)[m]? with
    | none => exact .none
    | some v => exact .some v.same_self

end Likeness

namespace Session

/-- Numbers are the same if they have the same bits or if both are no numbers at all, whichever signs and payloads
these have. Where the values bound in two sessions are the same, and so are the literals of two
programs, the programs give values that are the same or halt for one cause at one token, record one
failure or none, write the same, and leave values bound that are the same. -/
theorem perform_of_same :
    (∀ x y : Double, (Value.number x).same (.number y) = true ↔
      x.bits = y.bits ∨ (x.magnitude = .nan ∧ y.magnitude = .nan)) ∧
    ∀ (s s' : Session) (t t' : Step), Likeness.same.Sessions s s' → Likeness.same.Steps t t' →
      Outcomes Eq Likeness.same.Replies (s.perform t).reply (s'.perform t').reply ∧
      (s.perform t).answer.output = (s'.perform t').answer.output ∧
      (∃ fs, (s.perform t).session.journal.failures = s.journal.failures ++ fs ∧
        (s'.perform t').session.journal.failures = s'.journal.failures ++ fs) ∧
      Likeness.same.Sessions (s.perform t).session (s'.perform t').session := by
  refine ⟨fun x y => Double.same_iff_bits,fun s s' t t' hs ht => ?_⟩
  · obtain ⟨hr,ho,hw⟩ := hs.perform ht
    refine ⟨?_,ho,⟨t.failures s,?_,?_⟩,hw⟩
    · generalize (s.perform t).reply = p at hr ⊢
      generalize (s'.perform t').reply = q at hr ⊢
      cases hr with
      | ok hv => exact .ok hv
      | error hx => exact .error (Likeness.keepsTokens_same.refusals_eq hx)
    · rw [failures_perform]
      cases ht <;> rfl
    · rw [failures_perform,Likeness.keepsTokens_same.failures_eq (hs.failures ht)]
      cases ht <;> rfl

/-- Two patterns of no number at all, with other payloads and signs, one bound and one in the
program, are compared and negated, until the program fails. -/
theorem perform_of_same_nan :
    let a : Value := .number ⟨0x7ff8000000000001⟩
    let b : Value := .number ⟨0xfff0000000000002⟩
    let x : Token := ⟨.identifier,"x",1,none⟩
    let eq : Token := ⟨.equalEqual,"==",1,none⟩
    let minus : Token := ⟨.minus,"-",2,none⟩
    let bound (v : Value) : Session := { start 0 none with world := World.fresh.define x v }
    let t (v : Value) : Step := .interpret
      [.print (.binary (.name x) eq (.unary minus (.literal v none))) none,
        .expression (.binary (.literal v none) minus (.literal .nil none))]
    Likeness.same.Sessions (bound a) (bound b) ∧ Likeness.same.Steps (t a) (t b) ∧
      ((bound a).perform (t a)).answer.output = ((bound b).perform (t b)).answer.output ∧
      ∃ fs, ((bound a).perform (t a)).session.journal.failures = fs ∧
        ((bound b).perform (t b)).session.journal.failures = fs := by
  intro a b x eq minus bound t
  have hv : a.same b = true := (perform_of_same.1 _ _).mpr (.inr ⟨rfl,rfl⟩)
  have hs : Likeness.same.Sessions (bound a) (bound b) :=
    ⟨⟨(Likeness.forests_same _).define rfl hv _,rfl⟩,rfl,rfl⟩
  have ht : Likeness.same.Steps (t a) (t b) :=
    .interpret (.cons (.print (.binary (.name rfl) rfl (.unary rfl (.literal hv _ _))) _ _)
      (.cons (.expression (.binary (.literal hv _ _) rfl (.literal rfl _ _))) .nil))
  obtain ⟨-,ho,hf,-⟩ := perform_of_same.2 (bound a) (bound b) (t a) (t b) hs ht
  exact ⟨hs,ht,ho,hf⟩

end Session
end ScriptEval
