import ScriptEval.Proofs.Mentioning
import ScriptEval.Proofs.Shadowing

/-! What the names of an expression are resolved to, which can be told before it is evaluated, and with it
whether it can have a value and which of its names get new ones. -/
namespace ScriptEval

namespace Expr

variable {i : ScopeId} {e u : Expr} {F G : Forest} {t : Token} {n : String} {v : Value}

theorem Reaches.mentioned_subset (h : e.Reaches i F u G) : u.mentioned ⊆ e.mentioned := by
  induction h with
  | refl e F => exact List.Subset.refl _
  | grouping _ ih | unary _ ih => exact ih
  | left _ ih => exact List.subset_append_of_subset_left _ ih
  | right _ _ ih => exact List.subset_append_of_subset_right _ ih
  | assign _ ih => exact List.subset_cons_of_subset _ ih

theorem resolve?_of_undefined (h : (e.eval i F).outcome = .error (.failed (.undefined t))) :
    t.lexeme ∈ e.mentioned ∧ F.resolve? i t.lexeme = none := by
  obtain ⟨u,G,hr,hu⟩ := exists_reaches h
  obtain ⟨hut,hG⟩ := halts_undefined_iff.mp hu
  rw [hr.overwrites.resolve?_eq] at hG
  refine ⟨hr.mentioned_subset ?_,hG⟩
  rcases hut with rfl | ⟨e',v,rfl,_⟩
  · exact List.mem_singleton_self _
  · exact List.mem_cons_self

/-- Where there is a value, evaluation came to all names, and each was resolved from the start. -/
theorem resolve?_of_ok (h : (e.eval i F).outcome = .ok v) (hn : n ∈ e.mentioned) :
    F.resolve? i n ≠ none := by
  induction e generalizing F v with
  | literal u t => cases hn
  | hole o => cases hn
  | grouping e ih => exact ih h hn
  | unary op r ih =>
    obtain ⟨a,ha,_⟩ := Evaluation.outcome_andThen_eq_ok.mp h
    exact ih ha hn
  | binary l op r ihl ihr =>
    obtain ⟨a,ha,h⟩ := Evaluation.outcome_andThen_eq_ok.mp h
    obtain ⟨b,hb,_⟩ := Evaluation.outcome_andThen_eq_ok.mp h
    rcases List.mem_append.mp hn with hn | hn
    · exact ihl ha hn
    · have hr := ihr hb hn
      rwa [(l.overwrites_eval i F).resolve?_eq] at hr
  | name t =>
    obtain rfl := List.mem_singleton.mp hn
    intro hr
    have hx : ((name t).eval i F).outcome = .error (.failed (.undefined t)) :=
      (halts_undefined_iff.mpr ⟨.inl rfl,hr⟩).outcome
    rw [hx] at h
    cases h
  | assign t e ih =>
    obtain ⟨a,ha,_⟩ := Evaluation.outcome_andThen_eq_ok.mp h
    rcases List.mem_cons.mp hn with rfl | hn
    · intro hr
      have hx : ((assign t e).eval i F).outcome = .error (.failed (.undefined t)) :=
        (halts_undefined_iff.mpr ⟨.inr ⟨e,a,rfl,ha⟩,hr⟩).outcome
      rw [hx] at h
      cases h
    · exact ih ha hn

/-- However an expression ends, the scopes lie where they lay and bind the names that they bound. Other values
have only names that it assigns, each in the nearest scope that bound the name from the start. It fails for
no undefined name if all its names are bound on the way out, and has no value if one is not. In a session it
makes nothing known and leaves the journal as it is. -/
theorem eval_only_overwrites (e : Expr) (i : ScopeId) (F : Forest) :
    let r := e.eval i F
    (r.forest.size = F.size ∧ ∀ j, r.forest.enclosing? j = F.enclosing? j) ∧
    (∀ j n, n ∈ r.forest.bindings j ↔ n ∈ F.bindings j) ∧
    (∀ j n, (r.forest.bindings j)[n]? ≠ (F.bindings j)[n]? →
      n ∈ e.assigned ∧ F.resolve? i n = some j ∧ (F.Arises → F.Nearest n j i)) ∧
    ((∀ n ∈ e.mentioned, ∃ j ∈ F.path i, n ∈ F.bindings j) →
      ∀ t, r.outcome ≠ .error (.failed (.undefined t))) ∧
    ((∃ n ∈ e.mentioned, ∀ j ∈ F.path i, n ∉ F.bindings j) → ∀ v, r.outcome ≠ .ok v) ∧
    ∀ s : Session, s.world = ⟨F,i⟩ →
      let p := s.perform (.evaluate e)
      p.session = s.setForest r.forest ∧ p.session.journal = s.journal ∧
        p.answer.output = "" ∧ p.answer.chatter = "" := by
  intro r
  have ho : F.Overwrites i r.forest := e.overwrites_eval i F
  refine ⟨⟨ho.size_eq,fun j => ?_⟩,ho.mem_iff,fun j n hn => ?_,fun hm t ht => ?_,?_,fun s hs => ?_⟩
  · rw [Forest.enclosing?,ho.outer_eq j,Forest.enclosing?]
  · have hj : F.resolve? i n = some j := by
      by_contra hj
      exact hn (ho.kept j n hj)
    have ha : n ∈ e.assigned := by
      by_contra ha
      exact hn (e.keeps_eval i ha F j)
    exact ⟨ha,hj,fun hF => hF.chained.resolve?_eq_some_iff.mp hj⟩
  · obtain ⟨hmt,hr⟩ := resolve?_of_undefined ht
    obtain ⟨j,hj,hb⟩ := hm t.lexeme hmt
    exact Forest.resolve?_eq_none_iff.mp hr j hj hb
  · rintro ⟨n,hn,hb⟩ v hv
    exact resolve?_of_ok hv hn (Forest.resolve?_eq_none_iff.mpr hb)
  · obtain ⟨j,w,g,m⟩ := s
    subst hs
    exact ⟨rfl,rfl,rfl,rfl⟩

theorem eval_only_overwrites_outer :
    let name (n : String) : Token := ⟨.identifier,n,1,none⟩
    let plus : Token := ⟨.plus,"+",1,none⟩
    let s := (Session.start 0 none).after [.define "globals" "x" .nil,.newScope "a" (some "globals"),
      .define "a" "y" .nil]
    let F := s.world.forest
    let e (n : String) : Expr :=
      .binary (.assign (name "x") (.literal (.bool true) none)) plus (.name (name n))
    F.Arises ∧ ((e "y").eval 1 F).outcome = .error (.ofDemand plus .numbersOrTexts) ∧
      (∀ t, ((e "y").eval 1 F).outcome ≠ .error (.failed (.undefined t))) ∧
      (((e "y").eval 1 F).forest.bindings 0)[("x" : String)]? = some (.bool true) ∧
      F.Nearest "x" 0 1 ∧ ∀ v, ((e "z").eval 1 F).outcome ≠ .ok v := by
  intro name plus s F e
  have hs : s.Reachable := (Session.Reachable.start 0 none).after _
  have hF : F.Arises := .between hs
  have hx : "x" ∈ F.bindings 0 := by decide +kernel
  have hy : "y" ∈ F.bindings 1 := by decide +kernel
  have hb : ∀ n ∈ (e "y").mentioned, ∃ j ∈ F.path 1, n ∈ F.bindings j := by
    intro n hn
    rcases List.mem_cons.mp hn with rfl | hn
    · exact ⟨0,by decide +kernel,hx⟩
    · obtain rfl := List.mem_singleton.mp hn
      exact ⟨1,by decide +kernel,hy⟩
  have hz : ∃ n ∈ (e "z").mentioned, ∀ j ∈ F.path 1, n ∉ F.bindings j :=
    ⟨"z",.tail _ (.head _),by decide +kernel⟩
  have hv : (((e "y").eval 1 F).forest.bindings 0)[("x" : String)]? = some (.bool true) := by
    decide +kernel
  have hne : (((e "y").eval 1 F).forest.bindings 0)[("x" : String)]? ≠ (F.bindings 0)[("x" : String)]? := by
    decide +kernel
  obtain ⟨_,_,hc,hu,_,_⟩ := eval_only_overwrites (e "y") 1 F
  obtain ⟨_,_,_,_,ho,_⟩ := eval_only_overwrites (e "z") 1 F
  exact ⟨hF,by decide +kernel,hu hb,hv,(hc 0 "x" hne).2.2 hF,ho hz⟩

end Expr
end ScriptEval
