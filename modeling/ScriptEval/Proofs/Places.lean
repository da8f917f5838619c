import ScriptEval.Proofs.Causes

/-! Where a run fails. A way leads into a program, by the number of the part to go on with at each
node, and a run that fails comes by one way to the expression whose own token is to blame. -/
namespace ScriptEval

namespace Expr

inductive ReachesBy (here : ScopeId) : List Nat → Expr → Forest → Expr → Forest → Prop
  | refl (e : Expr) (F : Forest) : ReachesBy here [] e F e F
  | grouping {p : List Nat} {e u : Expr} {F G : Forest} (h : ReachesBy here p e F u G) :
      ReachesBy here (0 :: p) (grouping e) F u G
  | unary {p : List Nat} {op : Token} {r u : Expr} {F G : Forest} (h : ReachesBy here p r F u G) :
      ReachesBy here (0 :: p) (unary op r) F u G
  | left {p : List Nat} {op : Token} {l r u : Expr} {F G : Forest} (h : ReachesBy here p l F u G) :
      ReachesBy here (0 :: p) (binary l op r) F u G
  | right {p : List Nat} {op : Token} {l r u : Expr} {F G : Forest} {a : Value}
      (hl : (l.eval here F).outcome = .ok a) (h : ReachesBy here p r (l.eval here F).forest u G) :
      ReachesBy here (1 :: p) (binary l op r) F u G
  | assign {p : List Nat} {t : Token} {e u : Expr} {F G : Forest} (h : ReachesBy here p e F u G) :
      ReachesBy here (0 :: p) (assign t e) F u G

def FailsAt (here : ScopeId) (e : Expr) (F : Forest) (p : List Nat) (u : Expr) (f : Failure) : Prop :=
  ∃ G, e.ReachesBy here p F u G ∧ u.Halts here G (.failed f)

variable {here : ScopeId} {e u : Expr} {F G : Forest} {p : List Nat} {f : Failure}

theorem ReachesBy.reaches (h : e.ReachesBy here p F u G) : e.Reaches here F u G := by
  induction h with
  | refl e F => exact .refl e F
  | grouping _ ih => exact .grouping ih
  | unary _ ih => exact .unary ih
  | left _ ih => exact .left ih
  | right hl _ ih => exact .right hl ih
  | assign _ ih => exact .assign ih

theorem Reaches.exists_way (h : e.Reaches here F u G) : ∃ p, e.ReachesBy here p F u G := by
  induction h with
  | refl e F => exact ⟨_,.refl e F⟩
  | grouping _ ih => exact ih.elim fun _ h => ⟨_,.grouping h⟩
  | unary _ ih => exact ih.elim fun _ h => ⟨_,.unary h⟩
  | left _ ih => exact ih.elim fun _ h => ⟨_,.left h⟩
  | right hl _ ih => exact ih.elim fun _ h => ⟨_,.right hl h⟩
  | assign _ ih => exact ih.elim fun _ h => ⟨_,.assign h⟩

theorem FailsAt.outcome (h : e.FailsAt here F p u f) : (e.eval here F).outcome = .error (.failed f) :=
  h.elim fun _ ⟨hr,hu⟩ => hr.reaches.outcome hu.outcome

theorem exists_failsAt (h : (e.eval here F).outcome = .error (.failed f)) :
    ∃ p u, e.FailsAt here F p u f := by
  obtain ⟨u,G,hr,hu⟩ := exists_reaches h
  obtain ⟨p,hp⟩ := hr.exists_way
  exact ⟨p,u,G,hp,hu⟩

theorem Halts.head (h : u.Halts here G (.failed f)) : u.tree.head = .ok (some f.token) := by
  cases u with
  | unary op r =>
    obtain ⟨v,_,hx⟩ := h
    rcases Token.unary_eq_error_iff.mp hx with ⟨_,d,_,_,hd⟩ | ⟨_,hk⟩
    · rw [Halt.failed.inj hd]
      rfl
    · cases hk
  | binary l op r =>
    obtain ⟨a,b,_,_,hx⟩ := h
    rcases Token.binary_eq_error_iff.mp hx with ⟨_,d,_,_,hd⟩ | ⟨_,hk⟩
    · rw [Halt.failed.inj hd]
      rfl
    · cases hk
  | name t =>
    obtain ⟨_,hf⟩ := outcome_readName_eq_error_iff.mp h
    rw [Halt.failed.inj hf]
    rfl
  | assign t e =>
    obtain ⟨v,_,hx⟩ := h
    obtain ⟨_,hf⟩ := outcome_writeName_eq_error_iff.mp hx
    rw [Halt.failed.inj hf]
    rfl
  | hole o => cases h
  | literal v t => exact h.elim
  | grouping e => exact h.elim

theorem FailsAt.head (h : e.FailsAt here F p u f) : u.tree.head = .ok (some f.token) :=
  h.elim fun _ ⟨_,hu⟩ => hu.head

end Expr

namespace Stmt

mutual

/-- Running a statement comes by the way to running another one. The condition of a branch has the
number of its first part. -/
inductive ReachesBy : List Nat → Stmt → World → Stmt → World → Prop
  | refl (t : Stmt) (w : World) : ReachesBy [] t w t w
  | block {p : List Nat} {body : List Stmt} {brace : Option Token} {u : Stmt} {w w' : World}
      (h : ReachesInBy p body ⟨w.forest.grow w.current,w.forest.size⟩ u w') :
      ReachesBy p (block body brace) w u w'
  | ifThen {p : List Nat} {c : Expr} {y u : Stmt} {w w' : World} {v : Value}
      (hc : (c.eval w.current w.forest).outcome = .ok v) (hv : v.truthy = true)
      (h : ReachesBy p y ⟨(c.eval w.current w.forest).forest,w.current⟩ u w') :
      ReachesBy (1 :: p) (ifThen c y) w u w'
  | ifElse {p : List Nat} {c : Expr} {y n u : Stmt} {w w' : World} {v : Value}
      (hc : (c.eval w.current w.forest).outcome = .ok v)
      (h : ReachesBy p (if v.truthy then y else n)
        ⟨(c.eval w.current w.forest).forest,w.current⟩ u w') :
      ReachesBy ((if v.truthy then 1 else 2) :: p) (ifElse c y n) w u w'

inductive ReachesInBy : List Nat → List Stmt → World → Stmt → World → Prop
  | head {p : List Nat} {t u : Stmt} {ts : List Stmt} {w w' : World} (h : ReachesBy p t w u w') :
      ReachesInBy (0 :: p) (t :: ts) w u w'
  | tail {k : Nat} {p : List Nat} {t u : Stmt} {ts : List Stmt} {w w' : World}
      (ht : (t.run w).outcome = .ok ()) (h : ReachesInBy (k :: p) ts (t.run w).world u w') :
      ReachesInBy ((k + 1) :: p) (t :: ts) w u w'

end

def FailsAt (ts : List Stmt) (w : World) (p : List Nat) (u : Expr) (f : Failure) : Prop :=
  ∃ q r t w' e, p = q ++ 0 :: r ∧ ReachesInBy q ts w t w' ∧ t.operand? = some e ∧
    e.FailsAt w'.current w'.forest r u f

mutual

theorem ReachesBy.reaches : ∀ {p : List Nat} {t u : Stmt} {w w' : World},
    ReachesBy p t w u w' → t.Reaches w u w'
  | _, _, _, _, _, .refl t w => .refl t w
  | _, _, _, _, _, .block h => .block h.reachesIn
  | _, _, _, _, _, .ifThen hc hv h => .ifThen hc hv h.reaches
  | _, _, _, _, _, .ifElse hc h => .ifElse hc h.reaches

theorem ReachesInBy.reachesIn : ∀ {p : List Nat} {ts : List Stmt} {u : Stmt} {w w' : World},
    ReachesInBy p ts w u w' → ReachesIn ts w u w'
  | _, _, _, _, _, .head h => .head h.reaches
  | _, _, _, _, _, .tail ht h => .tail ht h.reachesIn

end

mutual

theorem Reaches.exists_way : ∀ {t u : Stmt} {w w' : World}, t.Reaches w u w' →
    ∃ p, ReachesBy p t w u w'
  | _, _, _, _, .refl t w => ⟨_,.refl t w⟩
  | _, _, _, _, .block h => h.exists_way.elim fun _ ⟨_,h⟩ => ⟨_,.block h⟩
  | _, _, _, _, .ifThen hc hv h => h.exists_way.elim fun _ h => ⟨_,.ifThen hc hv h⟩
  | _, _, _, _, .ifElse hc h => h.exists_way.elim fun _ h => ⟨_,.ifElse hc h⟩

theorem ReachesIn.exists_way : ∀ {ts : List Stmt} {u : Stmt} {w w' : World}, ReachesIn ts w u w' →
    ∃ k p, ReachesInBy (k :: p) ts w u w'
  | _, _, _, _, .head h => h.exists_way.elim fun _ h => ⟨_,_,.head h⟩
  | _, _, _, _, .tail ht h => h.exists_way.elim fun _ ⟨_,h⟩ => ⟨_,_,.tail ht h⟩

end

variable {ts : List Stmt} {w : World} {p : List Nat} {u : Expr} {f : Failure}

theorem FailsAt.outcome (h : FailsAt ts w p u f) : (runAll ts w).outcome = .error (.failed f) := by
  obtain ⟨q,r,t,w',e,_,hr,he,hu⟩ := h
  exact hr.reachesIn.outcome (Halts.outcome (.inr ⟨e,he,hu.outcome⟩))

theorem FailsAt.head (h : FailsAt ts w p u f) : u.tree.head = .ok (some f.token) := by
  obtain ⟨_,_,_,_,_,_,_,_,hu⟩ := h
  exact hu.head

theorem exists_failsAt (h : (runAll ts w).outcome = .error (.failed f)) : ∃ p u, FailsAt ts w p u f := by
  obtain ⟨t,w',hr,⟨o,_,hx⟩ | ⟨e,he,hx⟩⟩ := exists_reachesIn ts h
  · cases hx
  · obtain ⟨k,q,hq⟩ := hr.exists_way
    obtain ⟨r,u,hu⟩ := Expr.exists_failsAt hx
    exact ⟨_,u,k :: q,r,t,w',e,rfl,hq,he,hu⟩

end Stmt
end ScriptEval
