import Mathlib.Data.Set.Insert
import ScriptEval.Proofs.Declaring
import ScriptEval.Proofs.Overwriting

/-! Well-scoped programs. Whether each name is declared before it is used can be told from the program,
given the names that are visible where it starts, and a program of which this is true comes to no
undefined name. -/
namespace ScriptEval

namespace Forest

def Sees (F : Forest) (i : ScopeId) (S : Set String) : Prop :=
  ∀ n ∈ S, ∃ j ∈ F.path i, n ∈ F.bindings j

variable {F G : Forest} {i : ScopeId} {S : Set String} {n : String}

theorem lt_size_of_mem_bindings (h : n ∈ F.bindings i) : i < F.size := by
  apply Nat.lt_of_not_le
  intro hi
  rw [bindings_of_size_le hi] at h
  exact Std.ExtTreeMap.not_mem_empty h

/-- Names that are visible stay so, since the way out stays and no name disappears. -/
theorem Sees.follows (h : F.Sees i S) (hi : i < F.size) {ns : List String} (hf : F.Follows i G)
    (hd : F.Declares i ns G) : G.Sees i S := by
  intro n hn
  obtain ⟨j,hj,hb⟩ := h n hn
  exact ⟨j,(hf.path_eq hi).symm ▸ hj,hd.kept j (lt_size_of_mem_bindings hb) n hb⟩

theorem Sees.define (h : F.Sees i S) (hi : i < F.size) (n : String) (v : Value) :
    (F.define i n v).Sees i (insert n S) := by
  intro m hm
  rw [path_define]
  rcases Set.mem_insert_iff.mp hm with rfl | hm
  · exact ⟨i,mem_path_self F i,(mem_bindings_define F i i m m v).mpr (.inl ⟨hi,rfl,rfl⟩)⟩
  · obtain ⟨j,hj,hb⟩ := h m hm
    exact ⟨j,hj,(mem_bindings_define F i j n m v).mpr (.inr hb)⟩

theorem Sees.grow (h : F.Sees i S) : (F.grow (some i)).Sees F.size S := by
  intro n hn
  obtain ⟨j,hj,hb⟩ := h n hn
  rw [path,outer_grow_size]
  exact ⟨j,List.mem_cons_of_mem _ hj,by rwa [bindings_grow]⟩

theorem Sees.resolve?_ne_none (h : F.Sees i S) (hn : n ∈ S) : F.resolve? i n ≠ none := by
  obtain ⟨j,hj,hb⟩ := h n hn
  intro hr
  exact resolve?_eq_none_iff.mp hr j hj hb

end Forest

namespace Expr

def WellScoped (S : Set String) : Expr → Prop
  | literal _ _ | hole _ => True
  | grouping e | unary _ e => e.WellScoped S
  | binary l _ r => l.WellScoped S ∧ r.WellScoped S
  | name t => t.lexeme ∈ S
  | assign t e => t.lexeme ∈ S ∧ e.WellScoped S

variable {here : ScopeId} {e u : Expr} {F G : Forest} {S : Set String}

theorem sees_eval (e : Expr) (hi : here < F.size) (hS : F.Sees here S) :
    (e.eval here F).forest.Sees here S :=
  hS.follows hi (e.follows_eval hi) (e.declares_eval here F)

theorem Reaches.wellScoped (h : e.Reaches here F u G) (hi : here < F.size) (he : e.WellScoped S)
    (hS : F.Sees here S) : u.WellScoped S ∧ here < G.size ∧ G.Sees here S := by
  induction h with
  | refl e F => exact ⟨he,hi,hS⟩
  | grouping _ ih | unary _ ih => exact ih hi he hS
  | left _ ih => exact ih hi he.1 hS
  | @right op l r u F G a hl _ ih =>
    have hs : here < (l.eval here F).forest.size :=
      Nat.lt_of_lt_of_le hi (l.declares_eval here F).size_le
    exact ih hs he.2 (l.sees_eval hi hS)
  | assign _ ih => exact ih hi he.2 hS

theorem outcome_ne_undefined (hi : here < F.size) (he : e.WellScoped S) (hS : F.Sees here S)
    (t : Token) : (e.eval here F).outcome ≠ .error (.failed (.undefined t)) := by
  intro h
  obtain ⟨u,G,hr,hu⟩ := exists_reaches h
  obtain ⟨hus,_,hSG⟩ := hr.wellScoped hi he hS
  obtain ⟨hut,hG⟩ := halts_undefined_iff.mp hu
  have ht : t.lexeme ∈ S := by
    rcases hut with rfl | ⟨e',v,rfl,_⟩
    · exact hus
    · exact hus.1
  exact hSG.resolve?_ne_none ht hG

end Expr

namespace Stmt

def visibleAfter (S : Set String) : Stmt → Set String
  | var t _ => insert t.lexeme S
  | _ => S

mutual

/-- All names are visible where they are used. A declaration is not visible in its own initial value,
what a block declares is visible to the end of the block, and what a branch declares is not counted
on. -/
def WellScoped (S : Set String) : Stmt → Prop
  | expression e | print e _ | var _ (some e) => e.WellScoped S
  | var _ none | hole _ => True
  | block body _ => AllWellScoped S body
  | ifThen c y => c.WellScoped S ∧ y.WellScoped S
  | ifElse c y n => c.WellScoped S ∧ y.WellScoped S ∧ n.WellScoped S

def AllWellScoped (S : Set String) : List Stmt → Prop
  | [] => True
  | t :: ts => t.WellScoped S ∧ AllWellScoped (t.visibleAfter S) ts

end

variable {S : Set String} {t u : Stmt} {ts : List Stmt} {w w' : World}

theorem sees_run (t : Stmt) (hw : w.Inside) (hS : w.forest.Sees w.current S) :
    (t.run w).world.forest.Sees w.current S :=
  hS.follows hw (t.follows_run hw) (t.declares_run w)

/-- Behind a statement that completed, the name that it declared is visible too. -/
theorem sees_visibleAfter (hw : w.Inside) (hS : w.forest.Sees w.current S)
    (ht : (t.run w).outcome = .ok ()) :
    (t.run w).world.forest.Sees w.current (t.visibleAfter S) := by
  cases t with
  | var n i =>
    cases i with
    | none =>
      rw [run]
      exact hS.define hw n.lexeme .nil
    | some e =>
      rw [run] at ht ⊢
      cases he : (e.eval w.current w.forest).outcome with
      | error x =>
        rw [Run.evaluating_of_error he] at ht
        cases ht
      | ok v =>
        rw [Run.evaluating_of_ok he]
        have hs := (World.Follows.eval e hw).inside hw
        exact (e.sees_eval hw hS).define hs n.lexeme v
  | _ => exact sees_run _ hw hS

theorem WellScoped.operand {e : Expr} (ht : t.WellScoped S) (he : t.operand? = some e) :
    e.WellScoped S := by
  cases t with
  | expression e' | print e' _ =>
    obtain rfl := Option.some.inj he
    rwa [WellScoped] at ht
  | var n i =>
    cases i with
    | none => cases he
    | some e' =>
      obtain rfl := Option.some.inj he
      rwa [WellScoped] at ht
  | ifThen c y | ifElse c y n =>
    obtain rfl := Option.some.inj he
    rw [WellScoped] at ht
    exact ht.1
  | block body b | hole o => cases he

theorem sees_condition (c : Expr) (hw : w.Inside) (hS : w.forest.Sees w.current S) :
    World.Inside ⟨(c.eval w.current w.forest).forest,w.current⟩ ∧
      (c.eval w.current w.forest).forest.Sees w.current S :=
  ⟨(World.Follows.eval c hw).inside hw,c.sees_eval hw hS⟩

mutual

/-- Whatever a well-scoped statement comes to is well-scoped, for the names visible where it is run. -/
theorem Reaches.wellScoped : ∀ {t u : Stmt} {w w' : World}, t.Reaches w u w' → ∀ {S : Set String},
    w.Inside → t.WellScoped S → w.forest.Sees w.current S →
      ∃ S' : Set String, u.WellScoped S' ∧ w'.Inside ∧ w'.forest.Sees w'.current S'
  | _, _, _, _, .refl _ _, S, hw, ht, hS => ⟨S,ht,hw,hS⟩
  | _, _, _, _, .block h, S, _, ht, hS => by
    rw [WellScoped] at ht
    exact h.wellScoped (by simp [World.Inside]) ht hS.grow
  | _, _, _, _, .ifThen (c := c) _ _ h, S, hw, ht, hS => by
    rw [WellScoped] at ht
    obtain ⟨hw,hS⟩ := sees_condition c hw hS
    exact h.wellScoped hw ht.2 hS
  | _, _, _, _, .ifElse (c := c) (y := y) (n := n) (v := v) _ h, S, hw, ht, hS => by
    rw [WellScoped] at ht
    obtain ⟨hw,hS⟩ := sees_condition c hw hS
    have hb : (if v.truthy then y else n).WellScoped S := by
      split
      · exact ht.2.1
      · exact ht.2.2
    exact h.wellScoped hw hb hS

theorem ReachesIn.wellScoped : ∀ {ts : List Stmt} {u : Stmt} {w w' : World}, ReachesIn ts w u w' →
    ∀ {S : Set String}, w.Inside → AllWellScoped S ts → w.forest.Sees w.current S →
      ∃ S' : Set String, u.WellScoped S' ∧ w'.Inside ∧ w'.forest.Sees w'.current S'
  | _, _, _, _, .head h, S, hw, ht, hS => by
    rw [AllWellScoped] at ht
    exact h.wellScoped hw ht.1 hS
  | _, _, w, _, .tail (t := t) hk h, S, hw, ht, hS => by
    rw [AllWellScoped] at ht
    have hv := sees_visibleAfter hw hS hk
    rw [← current_run t w] at hv
    exact h.wellScoped ((Run.compositional_follows.run t w hw).inside hw) ht.2 hv

end

/-- A well-scoped program comes to no undefined name, whatever else it halts for. -/
theorem outcome_runAll_ne_undefined (hw : w.current < w.forest.size)
    (hS : ∀ n ∈ S, ∃ i ∈ w.forest.path w.current, n ∈ w.forest.bindings i)
    (ht : AllWellScoped S ts) (n : Token) :
    (runAll ts w).outcome ≠ .error (.failed (.undefined n)) := by
  intro h
  obtain ⟨u,w',hr,hu⟩ := exists_reachesIn ts h
  obtain ⟨S',hus,hw',hS'⟩ := hr.wellScoped hw ht hS
  rcases hu with ⟨o,_,hx⟩ | ⟨e,he,hx⟩
  · cases hx
  · exact Expr.outcome_ne_undefined hw' (hus.operand he) hS' n hx

theorem outcome_runAll_ne_undefined_block :
    let name (n : String) : Token := ⟨.identifier,n,1,none⟩
    let minus : Token := ⟨.minus,"-",1,none⟩
    let S : Set String := {"x"}
    let w : World := World.fresh.define (name "x") .nil
    let ts : List Stmt :=
      [.var (name "y") (some (.name (name "x"))),
        .block [.var (name "x") (some (.name (name "y"))),
          .ifThen (.assign (name "y") (.name (name "x"))) (.var (name "z") none),
          .expression (.unary minus (.name (name "x")))] none]
    w.current < w.forest.size ∧ (∀ n ∈ S, ∃ i ∈ w.forest.path w.current, n ∈ w.forest.bindings i) ∧
      AllWellScoped S ts ∧ (runAll ts w).outcome = .error (.ofDemand minus .number) ∧
      ∀ n, (runAll ts w).outcome ≠ .error (.failed (.undefined n)) := by
  intro name minus S w ts
  have hw : w.current < w.forest.size := Nat.zero_lt_one
  have hS : ∀ n ∈ S, ∃ i ∈ w.forest.path w.current, n ∈ w.forest.bindings i := by
    rintro n rfl
    exact ⟨w.current,Forest.mem_path_self _ _,by decide +kernel⟩
  have ht : AllWellScoped S ts := by
    simp [ts,S,name,AllWellScoped,WellScoped,Expr.WellScoped,visibleAfter]
  exact ⟨hw,hS,ht,by decide +kernel,outcome_runAll_ne_undefined hw hS ht⟩

end Stmt
end ScriptEval
