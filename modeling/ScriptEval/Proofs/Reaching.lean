import ScriptEval.Proofs.Outcome

/-! Where a run halts. A run comes to the parts of a program one after the other; it does not come to
the branches that are not taken nor to what stands behind a part that halted. It halts exactly when
it comes to a part that halts of itself, after the operands of that part have got their values. -/
namespace ScriptEval

theorem Evaluation.outcome_andThen_eq_ok {r : Evaluation} {next : Value → Forest → Evaluation}
    {v : Value} : (r.andThen next).outcome = .ok v ↔
      ∃ a, r.outcome = .ok a ∧ (next a r.forest).outcome = .ok v := by
  obtain ⟨_ | a,F⟩ := r <;> simp

theorem Evaluation.outcome_andThen_eq_error {r : Evaluation} {next : Value → Forest → Evaluation}
    {x : Halt} : (r.andThen next).outcome = .error x ↔
      r.outcome = .error x ∨ ∃ v, r.outcome = .ok v ∧ (next v r.forest).outcome = .error x := by
  obtain ⟨_ | v,F⟩ := r <;> simp

theorem Run.outcome_andThen_eq_error {r : Run} {next : World → Run} {x : Halt} :
    (r.andThen next).outcome = .error x ↔
      r.outcome = .error x ∨ r.outcome = .ok () ∧ (next r.world).outcome = .error x := by
  cases h : r.outcome with
  | ok _ => simp [andThen_of_ok h]
  | error y => simp [andThen_of_error h,h]

theorem Run.outcome_evaluating_eq_error {e : Expr} {w : World} {next : Value → World → Run}
    {x : Halt} : (evaluating e w next).outcome = .error x ↔
      (e.eval w.current w.forest).outcome = .error x ∨
      ∃ v, (e.eval w.current w.forest).outcome = .ok v ∧
        (next v ⟨(e.eval w.current w.forest).forest,w.current⟩).outcome = .error x := by
  cases h : (e.eval w.current w.forest).outcome with
  | ok v => simp [evaluating_of_ok h]
  | error y => simp [evaluating_of_error h]

namespace Expr

/-- Evaluating an expression in a forest comes to evaluating another one in another forest. -/
inductive Reaches (here : ScopeId) : Expr → Forest → Expr → Forest → Prop
  | refl (e : Expr) (F : Forest) : Reaches here e F e F
  | grouping {e u : Expr} {F G : Forest} (h : Reaches here e F u G) :
      Reaches here (grouping e) F u G
  | unary {op : Token} {r u : Expr} {F G : Forest} (h : Reaches here r F u G) :
      Reaches here (unary op r) F u G
  | left {op : Token} {l r u : Expr} {F G : Forest} (h : Reaches here l F u G) :
      Reaches here (binary l op r) F u G
  | right {op : Token} {l r u : Expr} {F G : Forest} {a : Value}
      (hl : (l.eval here F).outcome = .ok a) (h : Reaches here r (l.eval here F).forest u G) :
      Reaches here (binary l op r) F u G
  | assign {t : Token} {e u : Expr} {F G : Forest} (h : Reaches here e F u G) :
      Reaches here (assign t e) F u G

/-- The expression halts of itself: its operands have values, but it comes to none with them. -/
def Halts (here : ScopeId) (F : Forest) (x : Halt) : Expr → Prop
  | unary op r => ∃ v, (r.eval here F).outcome = .ok v ∧ op.unary v = .error x
  | binary l op r => ∃ a b, (l.eval here F).outcome = .ok a ∧
      (r.eval here (l.eval here F).forest).outcome = .ok b ∧ op.binary a b = .error x
  | name t => (readName here t F).outcome = .error x
  | assign t e => ∃ v, (e.eval here F).outcome = .ok v ∧
      (writeName here t v (e.eval here F).forest).outcome = .error x
  | hole h => x = .hole h
  | literal _ _ | grouping _ => False

variable {here : ScopeId} {e u : Expr} {F G : Forest} {x : Halt}

theorem Halts.outcome (h : e.Halts here F x) : (e.eval here F).outcome = .error x := by
  cases e with
  | unary op r =>
    obtain ⟨v,hv,hx⟩ := h
    exact Evaluation.outcome_andThen_eq_error.mpr (.inr ⟨v,hv,hx⟩)
  | binary l op r =>
    obtain ⟨a,b,ha,hb,hx⟩ := h
    refine Evaluation.outcome_andThen_eq_error.mpr (.inr ⟨a,ha,?_⟩)
    exact Evaluation.outcome_andThen_eq_error.mpr (.inr ⟨b,hb,hx⟩)
  | name t => exact h
  | assign t e =>
    obtain ⟨v,hv,hx⟩ := h
    exact Evaluation.outcome_andThen_eq_error.mpr (.inr ⟨v,hv,hx⟩)
  | hole o => exact congrArg Except.error (Eq.symm h)
  | literal v t => exact h.elim
  | grouping e => exact h.elim

theorem Reaches.outcome (h : e.Reaches here F u G) (hu : (u.eval here G).outcome = .error x) :
    (e.eval here F).outcome = .error x := by
  induction h with
  | refl e F => exact hu
  | grouping _ ih => exact ih hu
  | unary _ ih => exact Evaluation.outcome_andThen_eq_error.mpr (.inl (ih hu))
  | left _ ih => exact Evaluation.outcome_andThen_eq_error.mpr (.inl (ih hu))
  | right hl _ ih =>
    refine Evaluation.outcome_andThen_eq_error.mpr (.inr ⟨_,hl,?_⟩)
    exact Evaluation.outcome_andThen_eq_error.mpr (.inl (ih hu))
  | assign _ ih => exact Evaluation.outcome_andThen_eq_error.mpr (.inl (ih hu))

theorem exists_reaches (h : (e.eval here F).outcome = .error x) :
    ∃ u G, e.Reaches here F u G ∧ u.Halts here G x := by
  induction e generalizing F with
  | literal v t => cases h
  | grouping e ih =>
    obtain ⟨u,G,hr,hu⟩ := ih h
    exact ⟨u,G,.grouping hr,hu⟩
  | unary op r ih =>
    rcases Evaluation.outcome_andThen_eq_error.mp h with h | ⟨v,hv,hx⟩
    · obtain ⟨u,G,hr,hu⟩ := ih h
      exact ⟨u,G,.unary hr,hu⟩
    · exact ⟨_,F,.refl _ F,v,hv,hx⟩
  | binary l op r ihl ihr =>
    rcases Evaluation.outcome_andThen_eq_error.mp h with h | ⟨a,ha,h⟩
    · obtain ⟨u,G,hr,hu⟩ := ihl h
      exact ⟨u,G,.left hr,hu⟩
    · rcases Evaluation.outcome_andThen_eq_error.mp h with h | ⟨b,hb,hx⟩
      · obtain ⟨u,G,hr,hu⟩ := ihr h
        exact ⟨u,G,.right ha hr,hu⟩
      · exact ⟨_,F,.refl _ F,a,b,ha,hb,hx⟩
  | name t => exact ⟨_,F,.refl _ F,h⟩
  | assign t e ih =>
    rcases Evaluation.outcome_andThen_eq_error.mp h with h | ⟨v,hv,hx⟩
    · obtain ⟨u,G,hr,hu⟩ := ih h
      exact ⟨u,G,.assign hr,hu⟩
    · exact ⟨_,F,.refl _ F,v,hv,hx⟩
  | hole o => exact ⟨_,F,.refl _ F,(Except.error.inj h).symm⟩

/-- An expression halts exactly when it comes to a part that halts of itself. -/
theorem outcome_eq_error_iff : (e.eval here F).outcome = .error x ↔
    ∃ u G, e.Reaches here F u G ∧ u.Halts here G x :=
  ⟨exists_reaches,fun ⟨_,_,hr,hu⟩ => hr.outcome hu.outcome⟩

end Expr

namespace Stmt

mutual

inductive Reaches : Stmt → World → Stmt → World → Prop
  | refl (t : Stmt) (w : World) : Reaches t w t w
  | block {body : List Stmt} {brace : Option Token} {u : Stmt} {w w' : World}
      (h : ReachesIn body ⟨w.forest.grow w.current,w.forest.size⟩ u w') :
      Reaches (block body brace) w u w'
  | ifThen {c : Expr} {y u : Stmt} {w w' : World} {v : Value}
      (hc : (c.eval w.current w.forest).outcome = .ok v) (hv : v.truthy = true)
      (h : Reaches y ⟨(c.eval w.current w.forest).forest,w.current⟩ u w') :
      Reaches (ifThen c y) w u w'
  | ifElse {c : Expr} {y n u : Stmt} {w w' : World} {v : Value}
      (hc : (c.eval w.current w.forest).outcome = .ok v)
      (h : Reaches (if v.truthy then y else n) ⟨(c.eval w.current w.forest).forest,w.current⟩ u w') :
      Reaches (ifElse c y n) w u w'

inductive ReachesIn : List Stmt → World → Stmt → World → Prop
  | head {t u : Stmt} {ts : List Stmt} {w w' : World} (h : Reaches t w u w') :
      ReachesIn (t :: ts) w u w'
  | tail {t u : Stmt} {ts : List Stmt} {w w' : World} (ht : (t.run w).outcome = .ok ())
      (h : ReachesIn ts (t.run w).world u w') : ReachesIn (t :: ts) w u w'

end

/-- The expression that the statement evaluates before all else, if there is one. -/
def operand? : Stmt → Option Expr
  | expression e | print e _ | var _ (some e) | ifThen e _ | ifElse e _ _ => some e
  | var _ none | block _ _ | hole _ => none

/-- The statement halts of itself: it is an open place, or the expression that it evaluates halts. -/
def Halts (w : World) (x : Halt) (t : Stmt) : Prop :=
  (∃ h, t = hole h ∧ x = .hole h) ∨
    ∃ e, t.operand? = some e ∧ (e.eval w.current w.forest).outcome = .error x

variable {x : Halt}

theorem Halts.outcome {t : Stmt} {w : World} (h : t.Halts w x) : (t.run w).outcome = .error x := by
  rcases h with ⟨o,rfl,rfl⟩ | ⟨e,he,hx⟩
  · rfl
  · have hr : ∀ next, (Run.evaluating e w next).outcome = .error x := fun next =>
      Run.outcome_evaluating_eq_error.mpr (.inl hx)
    cases t with
    | expression e' => cases he; exact hr _
    | print e' k => cases he; exact hr _
    | var n i =>
      cases i with
      | none => cases he
      | some e' => cases he; exact hr _
    | ifThen c y => cases he; exact hr _
    | ifElse c y n => cases he; exact hr _
    | block body b => cases he
    | hole o => cases he

mutual

theorem Reaches.outcome : ∀ {t u : Stmt} {w w' : World}, t.Reaches w u w' →
    (u.run w').outcome = .error x → (t.run w).outcome = .error x
  | _, _, _, _, .refl _ _, hu => hu
  | _, _, _, _, .block h, hu => by
    rw [run]
    exact h.outcome hu
  | _, _, _, _, .ifThen hc hv h, hu => by
    rw [run]
    refine Run.outcome_evaluating_eq_error.mpr (.inr ⟨_,hc,?_⟩)
    rw [if_pos hv]
    exact h.outcome hu
  | _, _, _, _, .ifElse (v := v) hc h, hu => by
    rw [run]
    refine Run.outcome_evaluating_eq_error.mpr (.inr ⟨_,hc,?_⟩)
    have h := h.outcome hu
    split
    · rwa [if_pos ‹_›] at h
    · rwa [if_neg ‹_›] at h

theorem ReachesIn.outcome : ∀ {ts : List Stmt} {u : Stmt} {w w' : World}, ReachesIn ts w u w' →
    (u.run w').outcome = .error x → (runAll ts w).outcome = .error x
  | _, _, _, _, .head h, hu => by
    rw [runAll]
    exact Run.outcome_andThen_eq_error.mpr (.inl (h.outcome hu))
  | _, _, _, _, .tail ht h, hu => by
    rw [runAll]
    exact Run.outcome_andThen_eq_error.mpr (.inr ⟨ht,h.outcome hu⟩)

end

theorem halts_of_evaluating {t : Stmt} {e : Expr} {w : World} {next : Value → World → Run}
    (ht : t.operand? = some e) (hn : ∀ v w', (next v w').outcome = .ok ())
    (h : (Run.evaluating e w next).outcome = .error x) : t.Halts w x := by
  rcases Run.outcome_evaluating_eq_error.mp h with h | ⟨v,_,h⟩
  · exact .inr ⟨e,ht,h⟩
  · rw [hn] at h
    cases h

mutual

theorem exists_reaches : ∀ (t : Stmt) {w : World}, (t.run w).outcome = .error x →
    ∃ u w', t.Reaches w u w' ∧ u.Halts w' x
  | expression e, w, h => by
    rw [run] at h
    exact ⟨_,w,.refl _ w,halts_of_evaluating rfl (fun _ _ => rfl) h⟩
  | print e _, w, h => by
    rw [run] at h
    exact ⟨_,w,.refl _ w,halts_of_evaluating rfl (fun _ _ => rfl) h⟩
  | var t none, w, h => by
    rw [run] at h
    cases h
  | var t (some e), w, h => by
    rw [run] at h
    exact ⟨_,w,.refl _ w,halts_of_evaluating rfl (fun _ _ => rfl) h⟩
  | block body _, w, h => by
    rw [run] at h
    obtain ⟨u,w',hr,hu⟩ := exists_reachesIn body h
    exact ⟨u,w',.block hr,hu⟩
  | ifThen c y, w, h => by
    rw [run] at h
    rcases Run.outcome_evaluating_eq_error.mp h with h | ⟨v,hc,h⟩
    · exact ⟨_,w,.refl _ w,.inr ⟨c,rfl,h⟩⟩
    · split at h
      · obtain ⟨u,w',hr,hu⟩ := exists_reaches y h
        exact ⟨u,w',.ifThen hc ‹_› hr,hu⟩
      · cases h
  | ifElse c y n, w, h => by
    rw [run] at h
    rcases Run.outcome_evaluating_eq_error.mp h with h | ⟨v,hc,h⟩
    · exact ⟨_,w,.refl _ w,.inr ⟨c,rfl,h⟩⟩
    · split at h
      · obtain ⟨u,w',hr,hu⟩ := exists_reaches y h
        exact ⟨u,w',.ifElse hc (by rwa [if_pos ‹_›]),hu⟩
      · obtain ⟨u,w',hr,hu⟩ := exists_reaches n h
        exact ⟨u,w',.ifElse hc (by rwa [if_neg ‹_›]),hu⟩
  | hole o, w, h => by
    rw [run] at h
    exact ⟨_,w,.refl _ w,.inl ⟨o,rfl,(Except.error.inj h).symm⟩⟩

theorem exists_reachesIn : ∀ (ts : List Stmt) {w : World}, (runAll ts w).outcome = .error x →
    ∃ u w', ReachesIn ts w u w' ∧ u.Halts w' x
  | [], w, h => by
    rw [runAll] at h
    cases h
  | t :: ts, w, h => by
    rw [runAll] at h
    rcases Run.outcome_andThen_eq_error.mp h with h | ⟨ht,h⟩
    · obtain ⟨u,w',hr,hu⟩ := exists_reaches t h
      exact ⟨u,w',.head hr,hu⟩
    · obtain ⟨u,w',hr,hu⟩ := exists_reachesIn ts h
      exact ⟨u,w',.tail ht hr,hu⟩

end

/-- A run halts exactly when it comes to a statement that halts of itself. -/
theorem outcome_run_eq_error_iff {t : Stmt} {w : World} : (t.run w).outcome = .error x ↔
    ∃ u w', t.Reaches w u w' ∧ u.Halts w' x :=
  ⟨exists_reaches t,fun ⟨_,_,hr,hu⟩ => hr.outcome hu.outcome⟩

theorem outcome_runAll_eq_error_iff {ts : List Stmt} {w : World} :
    (runAll ts w).outcome = .error x ↔ ∃ u w', ReachesIn ts w u w' ∧ u.Halts w' x :=
  ⟨exists_reachesIn ts,fun ⟨_,_,hr,hu⟩ => hr.outcome hu.outcome⟩

end Stmt
end ScriptEval
