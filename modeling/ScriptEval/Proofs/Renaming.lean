import ScriptEval.Proofs.LikePlaces
import ScriptEval.Proofs.LikeSteps
import ScriptEval.Proofs.Writing

/-! Names and places mean nothing by themselves. When names are exchanged by an injective map, and tokens
have other places in the source, a program does the same with the exchanged names, and where it fails
it fails for the same cause at the same place of the program. -/
namespace ScriptEval

namespace Likeness

variable {L : Likeness} {n : String}

theorem Exprs.label_of_assigned {e e' : Expr} (h : L.Exprs e e') (hn : n ∈ e'.assigned) :
    ∃ m, L.label m n := by
  induction h with
  | grouping _ ih | unary _ _ ih => exact ih hn
  | binary _ _ _ ihl ihr => exact (List.mem_append.mp hn).elim ihl ihr
  | assign ht _ ih =>
    rcases List.mem_cons.mp hn with rfl | hn
    · exact ⟨_,L.label_of_name ht⟩
    · exact ih hn
  | literal | name | hole => cases hn

mutual

theorem Stmts.label_of_written : ∀ {t t' : Stmt}, L.Stmts t t' → n ∈ t'.written → ∃ m, L.label m n
  | _, _, .expression h, hn | _, _, .print h _ _, hn => h.label_of_assigned hn
  | _, _, .var ht, hn => ⟨_,List.mem_singleton.mp hn ▸ L.label_of_name ht⟩
  | _, _, .varTo ht h, hn => by
    rcases List.mem_cons.mp hn with rfl | hn
    · exact ⟨_,L.label_of_name ht⟩
    · exact h.label_of_assigned hn
  | _, _, .block h _ _, hn => h.label_of_writtenAll hn
  | _, _, .ifThen hc hy, hn =>
    (List.mem_append.mp hn).elim hc.label_of_assigned hy.label_of_written
  | _, _, .ifElse hc hy ho, hn => by
    rcases List.mem_append.mp hn with hn | hn
    · exact hc.label_of_assigned hn
    · exact (List.mem_append.mp hn).elim hy.label_of_written ho.label_of_written
  | _, _, .hole _, hn => by cases hn

theorem StmtLists.label_of_writtenAll : ∀ {ts ts' : List Stmt}, L.StmtLists ts ts' →
    n ∈ Stmt.writtenAll ts' → ∃ m, L.label m n
  | _, _, .nil, hn => by cases hn
  | _, _, .cons h hs, hn =>
    (List.mem_append.mp hn).elim h.label_of_written hs.label_of_writtenAll

end

/-- Names stand for what the map makes of them, operators for those of their kind, and values for
themselves. Apart from the kinds of operators, nothing is said of kinds and places of tokens. -/
def renamed (g : String → String) (hg : Function.Injective g) : Likeness where
  operator s t := s.kind = t.kind
  name s t := t.lexeme = g s.lexeme
  label m n := n = g m
  value := Eq
  kind_eq h := h
  label_of_name h := h
  label_unique h h' := by rw [h,h',hg.eq_iff]
  nil := rfl
  truthy_eq h := by rw [h]
  display_eq h := by rw [h]
  unary f a b h := by
    subst h
    exact Outcomes.refl _
  binary f a b c d h h' := by
    subst h h'
    exact Outcomes.refl _

end Likeness

/-- The same scopes around each other, where the bindings of `G` are those of `F` under the names that
the map gives them. -/
structure Forest.Renamed (g : String → String) (F G : Forest) : Prop where
  size_eq : F.size = G.size
  outer_eq (i : ScopeId) : F.outer i = G.outer i
  getElem?_eq_some_iff (i : ScopeId) (n : String) (v : Value) :
    (G.bindings i)[n]? = some v ↔ ∃ m, g m = n ∧ (F.bindings i)[m]? = some v

inductive Failure.Renamed (g : String → String) : Failure → Failure → Prop
  | operands (s t : Token) (m : String) : Failure.Renamed g (.operands s m) (.operands t m)
  | undefined {s t : Token} (h : t.lexeme = g s.lexeme) :
      Failure.Renamed g (.undefined s) (.undefined t)

namespace Forest

variable {g : String → String} {F G H : Forest}

theorem Renamed.forests (h : F.Renamed g G) (hg : Function.Injective g) :
    (Likeness.renamed g hg).Forests F G where
  size_eq := h.size_eq
  outer_eq := h.outer_eq
  bindings i m n hn := by
    obtain rfl : n = g m := hn
    have hb : (G.bindings i)[g m]? = (F.bindings i)[m]? := by
      apply Option.ext
      intro v
      rw [h.getElem?_eq_some_iff]
      exact ⟨fun ⟨m',hm,hv⟩ => hg hm ▸ hv,fun hv => ⟨m,rfl,hv⟩⟩
    rw [hb]
    cases (F.bindings i)[m]? with
    | none => exact .none
    | some v => exact .some rfl

/-- Scopes that are alike up to the names are exchanged ones if they bind no other names. -/
theorem renamed_of_forests {hg : Function.Injective g} (h : (Likeness.renamed g hg).Forests F G)
    (hn : ∀ i n, (∀ m, g m ≠ n) → (G.bindings i)[n]? = none) : F.Renamed g G where
  size_eq := h.size_eq
  outer_eq := h.outer_eq
  getElem?_eq_some_iff i n v := by
    have hb : ∀ m, (F.bindings i)[m]? = (G.bindings i)[g m]? := by
      intro m
      have hr := h.bindings i (m := m) (n := g m) rfl
      generalize (F.bindings i)[m]? = p at hr ⊢
      generalize (G.bindings i)[g m]? = q at hr ⊢
      cases hr with
      | none => rfl
      | some hv => rw [hv]
    constructor
    · intro hv
      by_cases hm : ∃ m, g m = n
      · obtain ⟨m,rfl⟩ := hm
        exact ⟨m,rfl,(hb m).trans hv⟩
      · rw [hn i n fun m h => hm ⟨m,h⟩] at hv
        cases hv
    · rintro ⟨m,rfl,hv⟩
      exact (hb m).symm.trans hv

theorem Renamed.getElem?_eq_none (h : F.Renamed g G) (i : ScopeId) {n : String}
    (hn : ∀ m, g m ≠ n) : (G.bindings i)[n]? = none := by
  apply Option.eq_none_iff_forall_ne_some.mpr
  intro v hv
  obtain ⟨m,hm,_⟩ := (h.getElem?_eq_some_iff i n v).mp hv
  exact hn m hm

end Forest

/-- Two runs halt for one cause, and if they fail, they fail at the same place, where each of them blames
the token that stands there. What is said of the places is what the runs fail at. -/
inductive Halt.Renamed (g : String → String) (At At' : List Nat → Expr → Failure → Prop) :
    Halt → Halt → Prop
  | failed {f f' : Failure} {p : List Nat} {u u' : Expr} (h : f.Renamed g f') (hu : At p u f)
      (hu' : At' p u' f') (head : u.tree.head = .ok (some f.token))
      (head' : u'.tree.head = .ok (some f'.token)) : Halt.Renamed g At At' (.failed f) (.failed f')
  | unsupported (k : Token.Kind) : Halt.Renamed g At At' (.unsupported k) (.unsupported k)
  | hole (h : Hole) : Halt.Renamed g At At' (.hole h) (.hole h)

variable {g : String → String} {hg : Function.Injective g}

theorem Likeness.failure_renamed {f f' : Failure}
    (h : (Likeness.renamed g hg).Halts (.failed f) (.failed f')) : f.Renamed g f' := by
  cases h with
  | operands _ m => exact .operands _ _ m
  | undefined ht => exact .undefined ht

def Failure.exchange (g : String → String) : Failure → Failure
  | .undefined t => .undefined { t with lexeme := g t.lexeme }
  | f => f

theorem Failure.Renamed.message_eq {f f' : Failure} (h : f.Renamed g f') :
    f'.message = (f.exchange g).message := by
  cases h with
  | operands s t m => rfl
  | undefined ht => exact congrArg (fun n => "Undefined variable '" ++ n ++ "'.") ht

theorem Outcomes.renamed {α : Type} {At At' : List Nat → Expr → Failure → Prop}
    {o o' : Except Halt α} (h : Outcomes (Likeness.renamed g hg).Halts Eq o o')
    (hAt : ∀ f, o = .error (.failed f) → ∃ p u u' f', At p u f ∧ At' p u' f' ∧
      u.tree.head = .ok (some f.token) ∧ u'.tree.head = .ok (some f'.token))
    (hAt' : ∀ p u f, At' p u f → o' = .error (.failed f)) :
    Outcomes (Halt.Renamed g At At') Eq o o' := by
  cases h with
  | ok h => exact .ok h
  | @error x y hx =>
    cases x with
    | unsupported k =>
      cases hx
      exact .error (.unsupported k)
    | hole o =>
      cases hx
      exact .error (.hole o)
    | failed f =>
      obtain ⟨p,u,u',f',hu,hu',hd,hd'⟩ := hAt f rfl
      obtain rfl : y = .failed f' := Except.error.inj (hAt' p u' f' hu')
      exact .error (.failed (Likeness.failure_renamed hx) hu hu' hd hd')

namespace Likeness

theorem Exprs.renamed_eval {e e' : Expr} {F G : Forest} (he : (renamed g hg).Exprs e e')
    (hF : F.Renamed g G) (i : ScopeId) :
    Outcomes (Halt.Renamed g (e.FailsAt i F) (e'.FailsAt i G)) Eq
        (e.eval i F).outcome (e'.eval i G).outcome ∧
      (e.eval i F).forest.Renamed g (e'.eval i G).forest := by
  obtain ⟨ho,hG⟩ := he.eval (hF.forests hg) i
  refine ⟨ho.renamed (fun f hf => ?_) fun p u f hu => hu.outcome,?_⟩
  · obtain ⟨p,u,hu⟩ := Expr.exists_failsAt hf
    obtain ⟨u',f',hu',_⟩ := he.failsAt (hF.forests hg) hu
    exact ⟨p,u,u',f',hu,hu',hu.head,hu'.head⟩
  · refine Forest.renamed_of_forests hG fun j n hn => ?_
    have hk : n ∉ e'.assigned := fun h => (he.label_of_assigned h).elim fun m hm => hn m hm.symm
    exact (Expr.keeps_eval i hk G j).trans (hF.getElem?_eq_none j hn)

theorem StmtLists.renamed_runAll {ts ts' : List Stmt} {w w' : World}
    (ht : (renamed g hg).StmtLists ts ts') (hF : w.forest.Renamed g w'.forest)
    (hc : w.current = w'.current) :
    let r := Stmt.runAll ts w
    let r' := Stmt.runAll ts' w'
    Outcomes (Halt.Renamed g (Stmt.FailsAt ts w) (Stmt.FailsAt ts' w')) Eq r.outcome r'.outcome ∧
      r.notices.filterMap Notice.line? = r'.notices.filterMap Notice.line? ∧
      r.world.forest.Renamed g r'.world.forest ∧ r.world.current = r'.world.current := by
  have hw : (renamed g hg).Worlds w w' := ⟨hF.forests hg,hc⟩
  obtain ⟨ho,⟨hG,hc'⟩,hl⟩ := ht.runAll hw
  refine ⟨ho.renamed (fun f hf => ?_) fun p u f hu => hu.outcome,hl,?_,hc'⟩
  · obtain ⟨p,u,hu⟩ := Stmt.exists_failsAt hf
    obtain ⟨u',f',hu',_⟩ := ht.failsAt hw hu
    exact ⟨p,u,u',f',hu,hu',hu.head,hu'.head⟩
  · refine Forest.renamed_of_forests hG fun j n hn => ?_
    have hk : n ∉ Stmt.writtenAll ts' :=
      fun h => (ht.label_of_writtenAll h).elim fun m hm => hn m hm.symm
    exact (Stmt.keeps_runAll hk w' j).trans (hF.getElem?_eq_none j hn)

end Likeness

/-- Programs and expressions that are alike up to an injective map on names, and up to all of a token
but the kind of an operator, end alike in scopes that are exchanged by the map: with the same value,
or for the same cause at the same place with the token there to blame, after the same lines, and in
scopes that are exchanged again. So do steps of sessions that run them. Only the message about an
undefined name tells the other name. -/
theorem runs_renamed (hg : Function.Injective g) :
    (∀ (e e' : Expr) (i : ScopeId) (F G : Forest), (Likeness.renamed g hg).Exprs e e' →
      F.Renamed g G →
      Outcomes (Halt.Renamed g (e.FailsAt i F) (e'.FailsAt i G)) Eq
        (e.eval i F).outcome (e'.eval i G).outcome ∧
      (e.eval i F).forest.Renamed g (e'.eval i G).forest) ∧
    (∀ (ts ts' : List Stmt) (w w' : World), (Likeness.renamed g hg).StmtLists ts ts' →
      w.forest.Renamed g w'.forest → w.current = w'.current →
      let r := Stmt.runAll ts w
      let r' := Stmt.runAll ts' w'
      Outcomes (Halt.Renamed g (Stmt.FailsAt ts w) (Stmt.FailsAt ts' w')) Eq r.outcome r'.outcome ∧
      r.notices.filterMap Notice.line? = r'.notices.filterMap Notice.line? ∧
      r.world.forest.Renamed g r'.world.forest ∧ r.world.current = r'.world.current) ∧
    (∀ (s s' : Session) (t t' : Step), (Likeness.renamed g hg).Sessions s s' →
      (Likeness.renamed g hg).Steps t t' →
      (Likeness.renamed g hg).Effects (s.perform t) (s'.perform t')) ∧
    ∀ f f' : Failure, f.Renamed g f' → f'.message = (f.exchange g).message := by
  refine ⟨fun e e' i F G he hF => he.renamed_eval hF i,
    fun ts ts' w w' ht hF hc => ht.renamed_runAll hF hc,?_,?_⟩
  · intro s s' t t' hs ht
    exact hs.perform ht
  · intro f f' h
    exact h.message_eq

theorem runs_renamed_block :
    let g (n : String) : String := "a" ++ n
    let name (n : String) (k : Int) : Token := ⟨.identifier,n,k,none⟩
    let one : Expr := .literal (.bool true) none
    let program (h : String → String) (k : Int) : List Stmt :=
      [.var (name (h "x") k) (some one),
        .block [.var (name (h "y") k) none,
          .expression (.assign (name (h "x") k) (.name (name (h "y") k))),
          .print (.name (name (h "z") k)) none] none]
    let r := Stmt.runAll (program id 1) World.fresh
    let r' := Stmt.runAll (program g 2) World.fresh
    Function.Injective g ∧ World.fresh.forest.Renamed g World.fresh.forest ∧
      r.outcome = .error (.failed (.undefined (name "z" 1))) ∧
      r'.outcome = .error (.failed (.undefined (name "az" 2))) ∧
      r.world.forest.Renamed g r'.world.forest := by
  intro g name one program r r'
  have hg : Function.Injective g := fun a b h => by simpa [g] using h
  have hb (i : ScopeId) : World.fresh.forest.bindings i = ∅ := by
    rw [World.fresh,Forest.bindings_grow,Forest.bindings_of_size_le (Nat.zero_le i)]
  have hF : World.fresh.forest.Renamed g World.fresh.forest :=
    ⟨rfl,fun _ => rfl,fun i n v => by simp [hb]⟩
  have ht : (Likeness.renamed g hg).StmtLists (program id 1) (program g 2) :=
    .cons (.varTo rfl (.literal rfl _ _)) (.cons (.block (.cons (.var rfl)
      (.cons (.expression (.assign rfl (.name rfl))) (.cons (.print (.name rfl) _ _) .nil))) _ _) .nil)
  obtain ⟨_,_,hr,_⟩ := (runs_renamed hg).2.1 _ _ World.fresh World.fresh ht hF rfl
  exact ⟨hg,hF,by decide +kernel,by decide +kernel,hr⟩

end ScriptEval
