import ScriptEval.Proofs.Likeness
import ScriptEval.Proofs.Places

/-! Alike programs run in step. Where one of them comes to a part, the other comes by the same way to the
part that stands for it, and where one fails the other fails too. -/
namespace ScriptEval
namespace Likeness

variable {L : Likeness} {here : ScopeId} {e e' u u' : Expr} {F F' G G' : Forest} {p : List Nat}

theorem Exprs.halts (h : L.Exprs u u') (hG : L.Forests G G') {x : Halt} (hu : u.Halts here G x) :
    ∃ y, u'.Halts here G' y ∧ L.Halts x y := by
  cases h with
  | unary ho hr =>
    obtain ⟨v,hv,hx⟩ := hu
    obtain ⟨v',hv',hvv⟩ := (hr.eval hG here).outcome.of_ok hv
    obtain ⟨y,hy,hxy⟩ := (outcomes_unary ho hvv).of_error hx
    exact ⟨y,⟨v',hv',hy⟩,hxy⟩
  | binary hl ho hr =>
    obtain ⟨a,b,ha,hb,hx⟩ := hu
    obtain ⟨hol,hGl⟩ := hl.eval hG here
    obtain ⟨a',ha',haa⟩ := hol.of_ok ha
    obtain ⟨b',hb',hbb⟩ := (hr.eval hGl here).outcome.of_ok hb
    obtain ⟨y,hy,hxy⟩ := (outcomes_binary ho haa hbb).of_error hx
    exact ⟨y,⟨a',b',ha',hb',hy⟩,hxy⟩
  | name hn => exact (evaluations_readName hn hG here).outcome.of_error hu
  | assign hn h =>
    obtain ⟨v,hv,hx⟩ := hu
    obtain ⟨ho,hH⟩ := h.eval hG here
    obtain ⟨v',hv',hvv⟩ := ho.of_ok hv
    obtain ⟨y,hy,hxy⟩ := (evaluations_writeName hn hvv hH here).outcome.of_error hx
    exact ⟨y,⟨v',hv',hy⟩,hxy⟩
  | hole o =>
    obtain rfl : x = .hole o := hu
    exact ⟨_,rfl,.hole o⟩
  | literal _ _ _ => exact hu.elim
  | grouping _ => exact hu.elim

theorem Exprs.reachesBy (h : e.ReachesBy here p F u G) (he : L.Exprs e e') (hF : L.Forests F F') :
    ∃ u' G', e'.ReachesBy here p F' u' G' ∧ L.Exprs u u' ∧ L.Forests G G' := by
  induction h generalizing e' F' with
  | refl e F => exact ⟨e',F',.refl e' F',he,hF⟩
  | grouping _ ih =>
    cases he with
    | grouping he =>
      obtain ⟨u',G',hr,hu⟩ := ih he hF
      exact ⟨u',G',.grouping hr,hu⟩
  | unary _ ih =>
    cases he with
    | unary _ he =>
      obtain ⟨u',G',hr,hu⟩ := ih he hF
      exact ⟨u',G',.unary hr,hu⟩
  | left _ ih =>
    cases he with
    | binary hl _ _ =>
      obtain ⟨u',G',hr,hu⟩ := ih hl hF
      exact ⟨u',G',.left hr,hu⟩
  | right ha _ ih =>
    cases he with
    | binary hl _ hr =>
      obtain ⟨ho,hFl⟩ := hl.eval hF here
      obtain ⟨_,ha',_⟩ := ho.of_ok ha
      obtain ⟨u',G',hr,hu⟩ := ih hr hFl
      exact ⟨u',G',.right ha' hr,hu⟩
  | assign _ ih =>
    cases he with
    | assign _ he =>
      obtain ⟨u',G',hr,hu⟩ := ih he hF
      exact ⟨u',G',.assign hr,hu⟩

theorem Exprs.failsAt (he : L.Exprs e e') (hF : L.Forests F F') {f : Failure}
    (h : e.FailsAt here F p u f) :
    ∃ u' f', e'.FailsAt here F' p u' f' ∧ L.Halts (.failed f) (.failed f') := by
  obtain ⟨G,hr,hu⟩ := h
  obtain ⟨u',G',hr',huu,hG⟩ := he.reachesBy hr hF
  obtain ⟨y,hy,hxy⟩ := huu.halts hG hu
  obtain ⟨f',rfl⟩ : ∃ f', y = .failed f' := by
    cases hxy with
    | operands _ _ | undefined _ => exact ⟨_,rfl⟩
  exact ⟨u',f',⟨G',hr',hy⟩,hxy⟩

theorem Stmts.operand {t t' : Stmt} (h : L.Stmts t t') (he : t.operand? = some e) :
    ∃ e', t'.operand? = some e' ∧ L.Exprs e e' := by
  cases h with
  | expression h | print h _ _ | varTo _ h | ifThen h _ | ifElse h _ _ =>
    obtain rfl := Option.some.inj he
    exact ⟨_,rfl,h⟩
  | var _ | block _ _ _ | hole _ => cases he

theorem Stmts.ite {y y' n n' : Stmt} (hy : L.Stmts y y') (hn : L.Stmts n n') (b : Bool) :
    L.Stmts (if b then y else n) (if b then y' else n') := by
  cases b with
  | true => exact hy
  | false => exact hn

namespace Worlds

variable {w w' : World}

theorem eval (hw : L.Worlds w w') (he : L.Exprs e e') :
    L.Evaluations (e.eval w.current w.forest) (e'.eval w'.current w'.forest) :=
  hw.current_eq ▸ he.eval hw.forest w.current

theorem evaluated (hw : L.Worlds w w') (he : L.Exprs e e') :
    L.Worlds ⟨(e.eval w.current w.forest).forest,w.current⟩
      ⟨(e'.eval w'.current w'.forest).forest,w'.current⟩ :=
  ⟨(hw.eval he).forest,hw.current_eq⟩

theorem grow (hw : L.Worlds w w') : L.Worlds ⟨w.forest.grow w.current,w.forest.size⟩
    ⟨w'.forest.grow w'.current,w'.forest.size⟩ :=
  ⟨hw.current_eq ▸ hw.forest.grow w.current,hw.forest.size_eq⟩

end Worlds

mutual

theorem Stmts.reachesBy : ∀ {p : List Nat} {t u t' : Stmt} {w v w' : World},
    t.ReachesBy p w u v → L.Stmts t t' → L.Worlds w w' →
      ∃ u' v', t'.ReachesBy p w' u' v' ∧ L.Stmts u u' ∧ L.Worlds v v'
  | _, _, _, t', _, _, w', .refl _ _, ht, hw => ⟨t',w',.refl t' w',ht,hw⟩
  | _, _, _, _, _, _, _, .block h, .block hb _ _, hw => by
    obtain ⟨u',v',hr,hu⟩ := StmtLists.reachesInBy h hb hw.grow
    exact ⟨u',v',.block hr,hu⟩
  | _, _, _, _, _, _, _, .ifThen hc hv h, .ifThen hcc hy, hw => by
    obtain ⟨a,ha,hva⟩ := (hw.eval hcc).outcome.of_ok hc
    obtain ⟨u',v',hr,hu⟩ := Stmts.reachesBy h hy (hw.evaluated hcc)
    exact ⟨u',v',.ifThen ha (L.truthy_eq hva ▸ hv) hr,hu⟩
  | _, _, _, _, _, _, _, .ifElse (v := v) hc h, .ifElse hcc hy hn, hw => by
    obtain ⟨a,ha,hva⟩ := (hw.eval hcc).outcome.of_ok hc
    obtain ⟨u',v',hr,hu⟩ := Stmts.reachesBy h (hy.ite hn v.truthy) (hw.evaluated hcc)
    rw [L.truthy_eq hva] at hr ⊢
    exact ⟨u',v',.ifElse ha hr,hu⟩

theorem StmtLists.reachesInBy : ∀ {p : List Nat} {ts ts' : List Stmt} {u : Stmt} {w v w' : World},
    Stmt.ReachesInBy p ts w u v → L.StmtLists ts ts' → L.Worlds w w' →
      ∃ u' v', Stmt.ReachesInBy p ts' w' u' v' ∧ L.Stmts u u' ∧ L.Worlds v v'
  | _, _, _, _, _, _, _, .head h, .cons ht _, hw => by
    obtain ⟨u',v',hr,hu⟩ := Stmts.reachesBy h ht hw
    exact ⟨u',v',.head hr,hu⟩
  | _, _, _, _, _, _, _, .tail hk h, .cons ht hts, hw => by
    obtain ⟨ho,hv,_⟩ := ht.run hw
    obtain ⟨_,hk',_⟩ := ho.of_ok hk
    obtain ⟨u',v',hr,hu⟩ := StmtLists.reachesInBy h hts hv
    exact ⟨u',v',.tail hk' hr,hu⟩

end

/-- Where a program fails, programs that are alike fail at the same place. -/
theorem StmtLists.failsAt {ts ts' : List Stmt} {w w' : World} (ht : L.StmtLists ts ts')
    (hw : L.Worlds w w') {f : Failure} (h : Stmt.FailsAt ts w p u f) :
    ∃ u' f', Stmt.FailsAt ts' w' p u' f' ∧ L.Halts (.failed f) (.failed f') := by
  obtain ⟨q,r,t,v,e,hp,hr,he,hu⟩ := h
  obtain ⟨t',v',hr',htt,hv⟩ := ht.reachesInBy hr hw
  obtain ⟨e',he',hee⟩ := htt.operand he
  obtain ⟨u',f',hu',hff⟩ := hee.failsAt hv.forest hu
  rw [hv.current_eq] at hu'
  exact ⟨u',f',⟨q,r,t',v',e',hp,hr',he',hu'⟩,hff⟩

end Likeness
end ScriptEval
