import ScriptEval.Proofs.LikeSteps
import ScriptEval.Proofs.Writing

/-! The names that programs mention. Nothing else that is bound matters to a program, and nothing else that
is bound is touched by it. -/
namespace ScriptEval

def Expr.mentioned : Expr → List String
  | literal _ _ | hole _ => []
  | name t => [t.lexeme]
  | grouping e | unary _ e => e.mentioned
  | binary l _ r => l.mentioned ++ r.mentioned
  | assign t e => t.lexeme :: e.mentioned

namespace Stmt

mutual

def mentioned : Stmt → List String
  | expression e | print e _ => e.mentioned
  | var t none => [t.lexeme]
  | var t (some e) => t.lexeme :: e.mentioned
  | block body _ => mentionedAll body
  | ifThen c y => c.mentioned ++ y.mentioned
  | ifElse c y n => c.mentioned ++ (y.mentioned ++ n.mentioned)
  | hole _ => []

def mentionedAll : List Stmt → List String
  | [] => []
  | t :: ts => t.mentioned ++ mentionedAll ts

end
end Stmt

theorem append_subset_append {as bs as' bs' : List String} (ha : as ⊆ as') (hb : bs ⊆ bs') :
    as ++ bs ⊆ as' ++ bs' :=
  List.append_subset.mpr
    ⟨List.subset_append_of_subset_left bs' ha,List.subset_append_of_subset_right as' hb⟩

theorem Expr.assigned_subset_mentioned (e : Expr) : e.assigned ⊆ e.mentioned := by
  induction e with
  | literal v t | name t | hole h => exact List.nil_subset _
  | grouping e ih | unary op e ih => exact ih
  | binary l op r ihl ihr => exact append_subset_append ihl ihr
  | assign t e ih => exact List.cons_subset_cons _ ih

namespace Stmt

mutual

theorem written_subset_mentioned : ∀ t : Stmt, t.written ⊆ t.mentioned
  | expression e | print e _ => e.assigned_subset_mentioned
  | var _ none => List.Subset.refl _
  | var _ (some e) => List.cons_subset_cons _ e.assigned_subset_mentioned
  | block body _ => writtenAll_subset_mentionedAll body
  | ifThen c y => append_subset_append c.assigned_subset_mentioned (written_subset_mentioned y)
  | ifElse c y n => append_subset_append c.assigned_subset_mentioned
      (append_subset_append (written_subset_mentioned y) (written_subset_mentioned n))
  | hole _ => List.nil_subset _

theorem writtenAll_subset_mentionedAll : ∀ ts : List Stmt, writtenAll ts ⊆ mentionedAll ts
  | [] => List.nil_subset _
  | t :: ts =>
    append_subset_append (written_subset_mentioned t) (writtenAll_subset_mentionedAll ts)

end
end Stmt

namespace Likeness

/-- Everything stands for itself, but no other names than the given ones stand for anything. -/
def within (ns : List String) : Likeness where
  operator := Eq
  name s t := s = t ∧ t.lexeme ∈ ns
  label m n := m = n ∧ n ∈ ns
  value a b := a = b
  kind_eq h := congrArg Token.kind h
  label_of_name h := ⟨congrArg Token.lexeme h.1,h.2⟩
  label_unique h h' := by rw [h.1,h'.1]
  nil := rfl
  truthy_eq h := congrArg Value.truthy h
  display_eq h := congrArg Value.display h
  unary f a b h := by
    subst h
    exact Outcomes.refl _
  binary f a b c d h h' := by
    subst h h'
    exact Outcomes.refl _

variable {ns : List String} {F G : Forest}

theorem keepsTokens_within (ns : List String) : (within ns).KeepsTokens := ⟨id,And.left⟩

theorem outcomes_within {o o' : Except Halt Unit} (h : Outcomes (within ns).Halts Eq o o') :
    o = o' := by
  cases h with
  | ok h => rfl
  | error hx => rw [(keepsTokens_within ns).halts_eq hx]

theorem replies_within {p p' : Except Refusal Reply}
    (h : Outcomes (within ns).Refusals (within ns).Replies p p') : p = p' := by
  cases h with
  | error hx => rw [(keepsTokens_within ns).refusals_eq hx]
  | ok h =>
    cases h with
    | nothing => rfl
    | flag b => rfl
    | value hv => exact congrArg (fun v => Except.ok (Reply.value v)) hv

theorem exprs_within {e : Expr} (h : e.mentioned ⊆ ns) : (within ns).Exprs e e := by
  induction e with
  | literal v t => exact .literal rfl t t
  | grouping e ih => exact .grouping (ih h)
  | unary op r ih => exact .unary rfl (ih h)
  | binary l op r ihl ihr =>
    obtain ⟨hl,hr⟩ := List.append_subset.mp h
    exact .binary (ihl hl) rfl (ihr hr)
  | name t => exact .name ⟨rfl,h List.mem_cons_self⟩
  | assign t e ih =>
    obtain ⟨ht,he⟩ := List.cons_subset.mp h
    exact .assign ⟨rfl,ht⟩ (ih he)
  | hole o => exact .hole o

mutual

theorem stmts_within : ∀ {t : Stmt}, t.mentioned ⊆ ns → (within ns).Stmts t t
  | .expression _, h => .expression (exprs_within h)
  | .print _ k, h => .print (exprs_within h) k k
  | .var _ none, h => .var ⟨rfl,h List.mem_cons_self⟩
  | .var _ (some _), h =>
    have ⟨ht,he⟩ := List.cons_subset.mp h
    .varTo ⟨rfl,ht⟩ (exprs_within he)
  | .block _ b, h => .block (stmtLists_within h) b b
  | .ifThen _ _, h =>
    have ⟨hc,hy⟩ := List.append_subset.mp h
    .ifThen (exprs_within hc) (stmts_within hy)
  | .ifElse _ _ _, h =>
    have ⟨hc,hb⟩ := List.append_subset.mp h
    have ⟨hy,hn⟩ := List.append_subset.mp hb
    .ifElse (exprs_within hc) (stmts_within hy) (stmts_within hn)
  | .hole o, _ => .hole o

/-- A program is like itself as far as the names go that it mentions. -/
theorem stmtLists_within : ∀ {ts : List Stmt}, Stmt.mentionedAll ts ⊆ ns → (within ns).StmtLists ts ts
  | [], _ => .nil
  | _ :: _, h =>
    have ⟨ht,hts⟩ := List.append_subset.mp h
    .cons (stmts_within ht) (stmtLists_within hts)

end
end Likeness

/-- The same scopes around each other, which agree on each of the names: whether it is bound, and to
what. -/
structure Forest.AgreesOn (ns : List String) (F G : Forest) : Prop where
  size_eq : F.size = G.size
  outer_eq (i : ScopeId) : F.outer i = G.outer i
  getElem?_eq (i : ScopeId) {n : String} (h : n ∈ ns) : (F.bindings i)[n]? = (G.bindings i)[n]?

theorem Forest.agreesOn_iff {ns : List String} {F G : Forest} :
    F.AgreesOn ns G ↔ (Likeness.within ns).Forests F G := by
  constructor
  · refine fun h => ⟨h.size_eq,h.outer_eq,fun i m n hl => ?_⟩
    obtain ⟨rfl,hm⟩ := hl
    rw [h.getElem?_eq i hm]
    cases (G.bindings i)[m]? with
    | none => exact .none
    | some v => exact .some rfl
  · refine fun h => ⟨h.size_eq,h.outer_eq,fun i n hn => ?_⟩
    have hb := h.bindings i (m := n) ⟨rfl,hn⟩
    generalize (F.bindings i)[n]? = p at hb ⊢
    generalize (G.bindings i)[n]? = q at hb ⊢
    cases hb with
    | none => rfl
    | some hv => exact congrArg some hv

namespace Stmt

/-- Where the scopes agree on the names that a program mentions, it ends alike, prints the same lines, and
leaves scopes that agree again. In every scope the other names are bound as before, however it ends. The same
is so for the steps of sessions that run it. -/
theorem runAll_of_agreesOn (ts : List Stmt) :
    (∀ (F G : Forest) (i : ScopeId), F.AgreesOn (mentionedAll ts) G →
      let r := runAll ts ⟨F,i⟩
      let q := runAll ts ⟨G,i⟩
      r.outcome = q.outcome ∧
      r.notices.filterMap Notice.line? = q.notices.filterMap Notice.line? ∧
      r.world.forest.AgreesOn (mentionedAll ts) q.world.forest ∧
      r.world.current = q.world.current) ∧
    (∀ (w : World) (n : String), n ∉ mentionedAll ts → ∀ i,
      ((runAll ts w).world.forest.bindings i)[n]? = (w.forest.bindings i)[n]?) ∧
    ∀ (s s' : Session) (t : Step), s.world.forest.AgreesOn (mentionedAll ts) s'.world.forest →
      s.world.current = s'.world.current → s.globals = s'.globals → s.scopes = s'.scopes →
      (t = .interpret ts ∨ ∃ a, t = .executeIn a ts) →
      (s.perform t).reply = (s'.perform t).reply ∧
      (s.perform t).answer.output = (s'.perform t).answer.output ∧
      (s.perform t).session.world.forest.AgreesOn (mentionedAll ts)
        (s'.perform t).session.world.forest := by
  have hts := Likeness.stmtLists_within (List.Subset.refl (mentionedAll ts))
  refine ⟨fun F G i h => ?_,fun w n hn => ?_,fun s s' t h hc hg hm ht => ?_⟩
  · have hw : (Likeness.within (mentionedAll ts)).Worlds ⟨F,i⟩ ⟨G,i⟩ := ⟨Forest.agreesOn_iff.mp h,rfl⟩
    obtain ⟨ho,⟨hF,hc⟩,hl⟩ := hts.runAll hw
    exact ⟨Likeness.outcomes_within ho,hl,Forest.agreesOn_iff.mpr hF,hc⟩
  · exact keeps_runAll (fun h => hn (writtenAll_subset_mentionedAll ts h)) w
  · have hs : (Likeness.within (mentionedAll ts)).Sessions s s' :=
      ⟨⟨Forest.agreesOn_iff.mp h,hc⟩,hg,hm⟩
    have hst : (Likeness.within (mentionedAll ts)).Steps t t := by
      rcases ht with rfl | ⟨a,rfl⟩
      · exact .interpret hts
      · exact .executeIn a hts
    obtain ⟨hr,ho,hw⟩ := hs.perform hst
    exact ⟨Likeness.replies_within hr,ho,Forest.agreesOn_iff.mpr hw.world.forest⟩

theorem runAll_of_agreesOn_block :
    let name (n : String) : Token := ⟨.identifier,n,1,none⟩
    let ts : List Stmt := [.block [.var (name "y") (some (.literal (.bool true) none)),
      .print (.assign (name "x") (.name (name "y"))) none,.expression (.name (name "u"))] none]
    let G := (World.fresh.define (name "x") .nil).forest
    let F := G.define 0 "z" (.text "a")
    let r := runAll ts ⟨F,0⟩
    F.AgreesOn (mentionedAll ts) G ∧ "z" ∉ mentionedAll ts ∧
      (runAll ts ⟨G,0⟩).outcome = .error (.failed (.undefined (name "u"))) ∧
      r.outcome = .error (.failed (.undefined (name "u"))) ∧
      (r.world.forest.bindings 0)[("z" : String)]? = some (.text "a") := by
  intro name ts G F r
  have hn : ∀ n ∈ mentionedAll ts, "z" ≠ n := by decide
  have hz : "z" ∉ mentionedAll ts := fun h => hn "z" h rfl
  have hF : F.AgreesOn (mentionedAll ts) G := by
    refine ⟨Forest.size_define G 0 "z" _,fun i => Forest.outer_define G 0 i "z" _,fun i n h => ?_⟩
    rw [Forest.getElem?_bindings_define,if_neg fun hc => hn n h hc.2.2]
  have hG : (runAll ts ⟨G,0⟩).outcome = .error (.failed (.undefined (name "u"))) := by decide +kernel
  obtain ⟨hr,hk,_⟩ := runAll_of_agreesOn ts
  refine ⟨hF,hz,hG,(hr F G 0 hF).1.trans hG,(hk ⟨F,0⟩ "z" hz 0).trans ?_⟩
  decide +kernel

end Stmt
end ScriptEval
