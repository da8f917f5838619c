import ScriptEval.Proofs.Extending
import ScriptEval.Proofs.Reaching

/-! The forests of a session at all its moments: between two steps, and while a step runs a program, before
and after each statement and each expression that the run comes to. Each of them extends the forest that
the step began with, and is extended by the one that it ends with. -/
namespace ScriptEval

open Forest

theorem World.inside_grow (w : World) : World.Inside ⟨w.forest.grow w.current,w.forest.size⟩ := by
  simp [World.Inside]

theorem World.Inside.extends_grow {w : World} (hw : w.Inside) :
    w.forest.Extends (w.forest.grow w.current) :=
  .of_grow w.forest fun _ hi => Option.some.inj hi ▸ hw

namespace Evaluation

theorem forest_andThen_of_ok {r : Evaluation} {next : Value → Forest → Evaluation} {v : Value}
    (h : r.outcome = .ok v) : (r.andThen next).forest = (next v r.forest).forest := by
  obtain ⟨_,F⟩ := r
  subst h
  rfl

theorem extends_andThen {r : Evaluation} {next : Value → Forest → Evaluation}
    (h : ∀ v, r.forest.Extends (next v r.forest).forest) :
    r.forest.Extends (r.andThen next).forest := by
  obtain ⟨_ | v,F⟩ := r
  · exact .refl F
  · exact h v

end Evaluation

theorem Run.extends_evaluating {e : Expr} {w : World} {next : Value → World → Run} (hw : w.Inside)
    (h : ∀ v (w' : World), w'.Inside → w'.forest.Extends (next v w').world.forest) :
    (e.eval w.current w.forest).forest.Extends (evaluating e w next).world.forest := by
  cases ho : (e.eval w.current w.forest).outcome with
  | ok v =>
    rw [evaluating_of_ok ho]
    exact h v _ ((World.Follows.eval e hw).inside hw)
  | error x =>
    rw [evaluating_of_error ho]
    exact .refl _

namespace Expr

open Evaluation

/-- The forest is there when evaluating the expression comes to some part of it, or has just
evaluated that part. -/
inductive Passes (here : ScopeId) (e : Expr) (F : Forest) : Forest → Prop
  | before {u : Expr} {G : Forest} (h : e.Reaches here F u G) : Passes here e F G
  | after {u : Expr} {G : Forest} (h : e.Reaches here F u G) : Passes here e F (u.eval here G).forest

variable {here : ScopeId} {e u : Expr} {F G : Forest}

/-- The part that evaluating comes to is evaluated between the beginning and the end of the whole. -/
theorem Reaches.extends (h : e.Reaches here F u G) (hi : here < F.size) :
    here < G.size ∧ F.Extends G ∧ (u.eval here G).forest.Extends (e.eval here F).forest := by
  induction h with
  | refl e F => exact ⟨hi,.refl F,.refl _⟩
  | grouping _ ih => exact ih hi
  | unary _ ih =>
    obtain ⟨hG,hb,ha⟩ := ih hi
    exact ⟨hG,hb,ha.trans (extends_andThen fun _ => .refl _)⟩
  | @left op l r u F G _ ih =>
    obtain ⟨hG,hb,ha⟩ := ih hi
    have hl : here < (l.eval here F).forest.size := Nat.lt_of_lt_of_le hi (l.extends_eval hi).size_le
    refine ⟨hG,hb,ha.trans (extends_andThen fun a => ?_)⟩
    exact (r.extends_eval hl).trans (extends_andThen fun _ => .refl _)
  | @right op l r u F G a hl _ ih =>
    have he := l.extends_eval hi
    obtain ⟨hG,hb,ha⟩ := ih (Nat.lt_of_lt_of_le hi he.size_le)
    refine ⟨hG,he.trans hb,ha.trans ?_⟩
    rw [eval,forest_andThen_of_ok hl]
    exact extends_andThen fun _ => .refl _
  | assign _ ih =>
    obtain ⟨hG,hb,ha⟩ := ih hi
    exact ⟨hG,hb,ha.trans (extends_andThen fun v => extends_writeName here _ v _)⟩

theorem Passes.extends (h : e.Passes here F G) (hi : here < F.size) :
    F.Extends G ∧ G.Extends (e.eval here F).forest := by
  cases h with
  | @before u _ h =>
    obtain ⟨hG,hb,ha⟩ := h.extends hi
    exact ⟨hb,(u.extends_eval hG).trans ha⟩
  | @after u _ h =>
    obtain ⟨hG,hb,ha⟩ := h.extends hi
    exact ⟨hb.trans (u.extends_eval hG),ha⟩

end Expr

namespace Stmt

/-- The forest is there when running the statements comes to one of them or to one within them, while the
expression of that one is evaluated, when its block is entered, or when it has just been run. -/
inductive Passes (ts : List Stmt) (w : World) : Forest → Prop
  | before {t : Stmt} {w' : World} (h : ReachesIn ts w t w') : Passes ts w w'.forest
  | operand {t : Stmt} {w' : World} {e : Expr} {F : Forest} (h : ReachesIn ts w t w')
      (ht : t.operand? = some e) (he : e.Passes w'.current w'.forest F) : Passes ts w F
  | entered {body : List Stmt} {brace : Option Token} {w' : World}
      (h : ReachesIn ts w (block body brace) w') : Passes ts w (w'.forest.grow w'.current)
  | after {t : Stmt} {w' : World} (h : ReachesIn ts w t w') : Passes ts w (t.run w').world.forest

variable {ts : List Stmt} {w : World}

theorem extends_runAll_cons (t : Stmt) (ts : List Stmt) (hw : w.Inside) :
    (t.run w).world.forest.Extends (runAll (t :: ts) w).world.forest := by
  rw [runAll]
  cases h : (t.run w).outcome with
  | ok _ =>
    rw [Run.andThen_of_ok h]
    exact extends_runAll ts ((Run.compositional_follows.run t w hw).inside hw)
  | error x =>
    rw [Run.andThen_of_error h]
    exact .refl _

mutual

/-- The statement that running comes to is run between the beginning and the end of the whole. -/
theorem Reaches.extends : ∀ {t u : Stmt} {w w' : World}, t.Reaches w u w' → w.Inside →
    w'.Inside ∧ w.forest.Extends w'.forest ∧
      (u.run w').world.forest.Extends (t.run w).world.forest
  | _, _, _, _, .refl _ w, hw => ⟨hw,.refl w.forest,.refl _⟩
  | _, _, w, _, .block h, hw => by
    obtain ⟨hw',hb,ha⟩ := h.extends w.inside_grow
    refine ⟨hw',hw.extends_grow.trans hb,?_⟩
    rw [run]
    exact ha
  | _, _, _, _, .ifThen (c := c) hc hv h, hw => by
    have he := World.Follows.eval c hw
    obtain ⟨hw',hb,ha⟩ := h.extends (he.inside hw)
    refine ⟨hw',(c.extends_eval hw).trans hb,?_⟩
    rw [run,Run.evaluating_of_ok hc,if_pos hv]
    exact ha
  | _, _, _, _, .ifElse (c := c) (y := y) (n := n) (v := v) hc h, hw => by
    have he := World.Follows.eval c hw
    obtain ⟨hw',hb,ha⟩ := h.extends (he.inside hw)
    refine ⟨hw',(c.extends_eval hw).trans hb,?_⟩
    rw [run,Run.evaluating_of_ok hc]
    split
    · rwa [if_pos ‹_›] at ha
    · rwa [if_neg ‹_›] at ha

theorem ReachesIn.extends : ∀ {ts : List Stmt} {u : Stmt} {w w' : World}, ReachesIn ts w u w' →
    w.Inside → w'.Inside ∧ w.forest.Extends w'.forest ∧
      (u.run w').world.forest.Extends (runAll ts w).world.forest
  | _, _, _, _, .head h, hw => by
    obtain ⟨hw',hb,ha⟩ := h.extends hw
    exact ⟨hw',hb,ha.trans (extends_runAll_cons _ _ hw)⟩
  | _, _, w, _, .tail (t := t) ht h, hw => by
    obtain ⟨hw',hb,ha⟩ := h.extends ((Run.compositional_follows.run t w hw).inside hw)
    refine ⟨hw',(t.extends_run hw).trans hb,?_⟩
    rw [runAll,Run.andThen_of_ok ht]
    exact ha

end

theorem extends_operand {t : Stmt} {e : Expr} (ht : t.operand? = some e) (hw : w.Inside) :
    (e.eval w.current w.forest).forest.Extends (t.run w).world.forest := by
  cases t with
  | expression e' | print e' _ =>
    obtain rfl := Option.some.inj ht
    rw [run]
    exact Run.extends_evaluating hw fun _ _ _ => .refl _
  | var n i =>
    cases i with
    | none => cases ht
    | some e' =>
      obtain rfl := Option.some.inj ht
      rw [run]
      exact Run.extends_evaluating hw fun v w' _ => .of_define w'.forest w'.current n.lexeme v
  | ifThen c y =>
    obtain rfl := Option.some.inj ht
    rw [run]
    refine Run.extends_evaluating hw fun v w' hw' => ?_
    split
    · exact y.extends_run hw'
    · exact .refl _
  | ifElse c y n =>
    obtain rfl := Option.some.inj ht
    rw [run]
    refine Run.extends_evaluating hw fun v w' hw' => ?_
    split
    · exact y.extends_run hw'
    · exact n.extends_run hw'
  | block body b | hole o => cases ht

theorem Passes.extends {F : Forest} (h : Passes ts w F) (hw : w.Inside) :
    w.forest.Extends F ∧ F.Extends (runAll ts w).world.forest := by
  cases h with
  | @before t _ h =>
    obtain ⟨hw',hb,ha⟩ := h.extends hw
    exact ⟨hb,(t.extends_run hw').trans ha⟩
  | operand h ht he =>
    obtain ⟨hw',hb,ha⟩ := h.extends hw
    obtain ⟨hF,hF'⟩ := he.extends hw'
    exact ⟨hb.trans hF,(hF'.trans (extends_operand ht hw')).trans ha⟩
  | @entered body _ w' h =>
    obtain ⟨hw',hb,ha⟩ := h.extends hw
    rw [run] at ha
    exact ⟨hb.trans hw'.extends_grow,(extends_runAll body w'.inside_grow).trans ha⟩
  | @after t _ h =>
    obtain ⟨hw',hb,ha⟩ := h.extends hw
    exact ⟨hb.trans (t.extends_run hw'),ha⟩

end Stmt

namespace Session

inductive Passes (s : Session) : Step → Forest → Prop
  | interpret {ts : List Stmt} {F : Forest} (h : Stmt.Passes ts s.world F) : Passes s (.interpret ts) F
  | evaluate {e : Expr} {F : Forest} (h : e.Passes s.world.current s.world.forest F) :
      Passes s (.evaluate e) F
  | execute {t : Stmt} {F : Forest} (h : Stmt.Passes [t] s.world F) : Passes s (.execute t) F
  | executeIn {a : String} {i : ScopeId} {ts : List Stmt} {F : Forest} (ha : s.scopes[a]? = some i)
      (h : Stmt.Passes ts ⟨s.world.forest,i⟩ F) : Passes s (.executeIn a ts) F

variable {s : Session} {t : Step} {F : Forest}

theorem Sound.extends_passes (hs : s.Sound) (h : s.Passes t F) :
    s.world.forest.Extends F ∧ F.Extends (s.perform t).session.world.forest := by
  have hc : s.world.Inside := hs.known_lt _ (.inl rfl)
  cases h with
  | interpret h =>
    rw [perform,forest_interpret]
    exact h.extends hc
  | evaluate h => exact h.extends hc
  | @execute t F h =>
    obtain ⟨hb,ha⟩ := h.extends hc
    rw [Stmt.runAll_singleton] at ha
    exact ⟨hb,ha⟩
  | @executeIn a i ts F ha h =>
    have hi : i < s.world.forest.size := hs.known_lt i (.inr ⟨a,ha⟩)
    rw [perform,withScope,ha]
    exact h.extends hi

end Session

/-- The forest is there at some moment of some session. -/
inductive Forest.Arises : Forest → Prop
  | between {s : Session} (h : s.Reachable) : Forest.Arises s.world.forest
  | within {s : Session} {t : Step} {F : Forest} (h : s.Reachable) (hF : s.Passes t F) :
      Forest.Arises F

theorem Forest.Arises.chained {F : Forest} (h : F.Arises) : F.Chained := by
  cases h with
  | between h => exact h.sound.chained
  | within h hF => exact (h.sound.extends_passes hF).1.chained h.sound.chained

end ScriptEval
