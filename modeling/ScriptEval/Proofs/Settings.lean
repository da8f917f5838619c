import ScriptEval.Proofs.Outcome
import ScriptEval.Proofs.Recording

/-! What the settings of the journal are for. They decide what is shown of what the steps make known,
and in which source failures are explained; nothing that runs looks at them. -/
namespace ScriptEval

def Effect.prints (e : Effect) : List String := e.session.journal.shown e.notices

theorem Effect.chatter_eq (e : Effect) : e.answer.chatter = asLines e.prints := rfl

namespace Journal

/-- A higher verbosity shows more of the same notices, and what both show is in the same order. -/
theorem shown_sublist {j j' : Journal} (hs : j.source = j'.source) (hd : j.sketcher = j'.sketcher)
    (hv : j.verbosity ≤ j'.verbosity) (ns : List Notice) : (j.shown ns).Sublist (j'.shown ns) := by
  have he : j.explain = j'.explain := by
    funext f
    rw [explain,explain,hs,hd]
  have hp : ∀ n : Notice, (n.line?.isNone && n.shownAt j.verbosity) = true →
      (n.line?.isNone && n.shownAt j'.verbosity) = true := by
    intro n hn
    rw [Bool.and_eq_true] at hn ⊢
    refine ⟨hn.1,?_⟩
    unfold Notice.shownAt at hn ⊢
    cases hl : n.level? with
    | none => rfl
    | some l =>
      have h : l ≤ j.verbosity := by simpa [hl] using hn.2
      simpa using Int.le_trans h hv
  rw [shown,shown,he]
  exact (List.monotone_filter_right ns hp).map _

end Journal

namespace Session

def tuned (s : Session) (verbosity : Int) (source : Option String) : Session :=
  { s with journal := { s.journal with verbosity, source } }

variable {s : Session} {v : Int} {src : Option String}

@[simp] theorem world_tuned (s : Session) : (s.tuned v src).world = s.world := rfl

@[simp] theorem globals_tuned (s : Session) : (s.tuned v src).globals = s.globals := rfl

@[simp] theorem scopes_tuned (s : Session) : (s.tuned v src).scopes = s.scopes := rfl

@[simp] theorem failures_tuned (s : Session) :
    (s.tuned v src).journal.failures = s.journal.failures := rfl

theorem withScope_tuned (a : String) {next next' : ScopeId → Effect}
    (h : ∀ i, next' i = { next i with session := (next i).session.tuned v src }) :
    (s.tuned v src).withScope a next' =
      { s.withScope a next with session := (s.withScope a next).session.tuned v src } := by
  unfold withScope
  rw [scopes_tuned]
  cases s.scopes[a]? with
  | none => rfl
  | some i => exact h i

theorem interpret_tuned (s : Session) (program : List Stmt) : (s.tuned v src).interpret program =
    { s.interpret program with session := (s.interpret program).session.tuned v src } := by
  rcases (Stmt.runAll program s.world).outcome_cases with h | ⟨f,h⟩ | ⟨x,hx,h⟩
  · rw [interpret_of_ok h,interpret_of_ok (s.world_tuned ▸ h)]
    rfl
  · rw [interpret_of_failed h,interpret_of_failed (s.world_tuned ▸ h)]
    rfl
  · rw [interpret_of_escaped h hx,interpret_of_escaped (s.world_tuned ▸ h) hx]
    rfl

/-- A step does the same under other settings, unless it asks for an explanation. -/
theorem perform_tuned (s : Session) {t : Step} (ht : ∀ f, t ≠ .explain f) :
    (s.tuned v src).perform t =
      { s.perform t with session := (s.perform t).session.tuned v src } := by
  cases t with
  | interpret p => exact s.interpret_tuned p
  | explain f => exact absurd rfl (ht f)
  | executeIn a _ | define a _ _ | get a _ | contains a _ | enclosing a | describe a =>
    exact withScope_tuned a fun _ => rfl
  | assign a t v =>
    refine withScope_tuned a fun i => ?_
    rw [world_tuned]
    cases s.world.forest.write i t v <;> rfl
  | restart a =>
    cases a with
    | none => rfl
    | some a => exact withScope_tuned a fun _ => rfl
  | newScope a around =>
    cases around with
    | none => rfl
    | some b => exact withScope_tuned b fun _ => rfl
  | assertOk m =>
    simp only [perform,failures_tuned]
    cases s.journal.failures <;> rfl
  | evaluate _ | execute _ | report _ | remark _ _ | complain | reset | status => rfl

theorem tuned_perform (s : Session) (t : Step) :
    ((s.tuned v src).perform t).notices = (s.perform t).notices ∧
      ((s.tuned v src).perform t).session = (s.perform t).session.tuned v src := by
  by_cases ht : ∃ f, t = .explain f
  · obtain ⟨f,rfl⟩ := ht
    exact ⟨rfl,rfl⟩
  · rw [s.perform_tuned fun f hf => ht ⟨f,hf⟩]
    exact ⟨rfl,rfl⟩

theorem verbosity_perform (s : Session) (t : Step) :
    (s.perform t).session.journal.verbosity = s.journal.verbosity := by
  have h := (@tuned_perform s.journal.verbosity s.journal.source s t).2
  exact congrArg (fun u => u.journal.verbosity) h

theorem reply_tuned (s : Session) {t : Step}
    (h : (∀ f, t ≠ .explain f) ∨ s.journal.source = src) :
    ((s.tuned v src).perform t).reply = (s.perform t).reply := by
  by_cases ht : ∃ f, t = .explain f
  · obtain ⟨f,rfl⟩ := ht
    rcases h with h | rfl
    · exact absurd rfl (h f)
    · rfl
  · rw [s.perform_tuned fun f hf => ht ⟨f,hf⟩]

theorem history_tuned (s : Session) (ts : List Step) : (s.tuned v src).history ts =
    (s.history ts).map fun p => (p.1.tuned v src,p.2) := by
  induction ts generalizing s with
  | nil => rfl
  | cons t ts ih => rw [history,history,List.map_cons,(s.tuned_perform t).2,ih]

theorem play_eq_map_history (s : Session) (ts : List Step) :
    s.play ts = (s.history ts).map fun p => p.1.perform p.2 := by
  induction ts generalizing s with
  | nil => rfl
  | cons t ts ih => rw [play,history,List.map_cons,ih]

theorem map_snd_history (s : Session) (ts : List Step) : (s.history ts).map Prod.snd = ts := by
  induction ts generalizing s with
  | nil => rfl
  | cons t ts ih => rw [history,List.map_cons,ih]

theorem exists_of_getElem?_play {ts : List Step} {k : Nat} {t : Step} {e : Effect}
    (ht : ts[k]? = some t) (he : (s.play ts)[k]? = some e) :
    ∃ u, (s.history ts)[k]? = some (u,t) ∧ e = u.perform t := by
  rw [play_eq_map_history,List.getElem?_map] at he
  rw [← s.map_snd_history ts,List.getElem?_map] at ht
  cases h : (s.history ts)[k]? with
  | none => simp [h] at he
  | some p =>
    obtain rfl : p.2 = t := by simpa [h] using ht
    obtain rfl : p.1.perform p.2 = e := by simpa [h] using he
    exact ⟨p.1,rfl,rfl⟩

theorem tuned_of_history {ts : List Step} {k : Nat} {u : Session} {t : Step}
    (hu : (s.history ts)[k]? = some (u,t)) :
    u.tuned s.journal.verbosity s.journal.source = u := by
  have hs : s.tuned s.journal.verbosity s.journal.source = s := rfl
  have h := hu
  rw [← hs,history_tuned,List.getElem?_map,hu] at h
  exact congrArg Prod.fst (Option.some.inj h)

theorem length_play (s : Session) (ts : List Step) : (s.play ts).length = ts.length := by
  rw [play_eq_map_history,List.length_map,← List.length_map Prod.snd,map_snd_history]

/-- Two sessions of the same steps that were set up differently run alike: step by step they write
the same, record as much, end in the same scope and bind the same, and all answers are the same but
for explanations, which are given in the source. With the same source a higher verbosity only adds
whole texts to what is shown. -/
theorem settings_unseen (p q : Option Settings) (d : Sketcher) (steps : List Step) :
    let s := ofSettings p d
    let s' := ofSettings q d
    (s.play steps).length = steps.length ∧ (s'.play steps).length = steps.length ∧
    ∀ (k : Nat) (t : Step) (e e' : Effect), steps[k]? = some t →
      (s.play steps)[k]? = some e → (s'.play steps)[k]? = some e' →
      e.answer.output = e'.answer.output ∧
      e.answer.failures = e'.answer.failures ∧
      e.answer.atHome = e'.answer.atHome ∧
      e.answer.scopes = e'.answer.scopes ∧
      ((∀ f, t ≠ .explain f) ∨ s.journal.source = s'.journal.source →
        e.answer.reply = e'.answer.reply) ∧
      e.answer.chatter = asLines e.prints ∧ e'.answer.chatter = asLines e'.prints ∧
      (s.journal.source = s'.journal.source → s.journal.verbosity ≤ s'.journal.verbosity →
        e.prints.Sublist e'.prints) := by
  intro s s'
  have hs : s' = s.tuned s'.journal.verbosity s'.journal.source := rfl
  refine ⟨s.length_play steps,s'.length_play steps,fun k t e e' ht he he' => ?_⟩
  obtain ⟨u,hu,rfl⟩ := exists_of_getElem?_play ht he
  obtain ⟨u',hu',rfl⟩ := exists_of_getElem?_play ht he'
  -- The step is performed in sessions that differ in the settings only.
  obtain rfl : u.tuned s'.journal.verbosity s'.journal.source = u' := by
    rw [hs,history_tuned,List.getElem?_map,hu] at hu'
    exact congrArg Prod.fst (Option.some.inj hu')
  have hu := tuned_of_history hu
  obtain ⟨hn,hw⟩ := @tuned_perform s'.journal.verbosity s'.journal.source u t
  refine ⟨?_,?_,?_,?_,fun h => ?_,Effect.chatter_eq _,Effect.chatter_eq _,fun hsrc hv => ?_⟩
  · simp only [Effect.answer,hn]
  · simp only [Effect.answer,hw,failures_tuned]
  · simp only [Effect.answer,hw,atHome,world_tuned,globals_tuned]
  · simp only [Effect.answer,hw,view,world_tuned,scopes_tuned]
  · have hsrc : u.journal.source = s.journal.source := by rw [← hu]; rfl
    simp only [Effect.answer,u.reply_tuned (h.imp_right hsrc.trans)]
  · have hp := (@tuned_perform s.journal.verbosity s.journal.source u t).2
    rw [hu] at hp
    simp only [Effect.prints,hn,hw]
    refine Journal.shown_sublist ?_ ?_ ?_ _
    · exact (congrArg (fun u => u.journal.source) hp).trans hsrc
    · rfl
    · exact (congrArg (fun u => u.journal.verbosity) hp).trans_le hv

theorem settings_unseen_block :
    let x : Token := ⟨.identifier,"x",1,none⟩
    let body : List Stmt := [.print (.literal .nil none) none,.expression (.name x)]
    let p : Option Settings := some { source := some "x", path := some "a" }
    let q : Option Settings := some { source := some "x", verbosity := some 2 }
    let t : Step := .interpret [.block body none]
    let e := (ofSettings p).perform t
    let e' := (ofSettings q).perform t
    ((ofSettings p).play [t])[0]? = some e ∧ ((ofSettings q).play [t])[0]? = some e' ∧
      e.answer.reply = .ok (.flag false) ∧ e.answer.reply = e'.answer.reply ∧
      e.prints.length = 0 ∧ e'.prints.length = 4 ∧ e.prints.Sublist e'.prints := by
  intro x body p q t e e'
  obtain ⟨_,_,h⟩ := settings_unseen p q .plain [t]
  obtain ⟨_,_,_,_,hr,_,_,hp⟩ := h 0 t e e' rfl rfl rfl
  exact ⟨rfl,rfl,rfl,hr (.inr rfl),rfl,rfl,hp rfl (by decide)⟩

end Session
end ScriptEval
