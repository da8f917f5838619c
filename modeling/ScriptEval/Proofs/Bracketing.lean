import ScriptEval.Proofs.Moments
import ScriptEval.Proofs.Settings
import ScriptEval.Proofs.Transparency

/-! The trace of the scopes that a run enters and leaves. Entries and exits are well bracketed, however the
run ends, and the depth that they show is that of the scopes: a block lies one deeper than what it is run in.
A block is entered when its scope binds nothing, and left with the names that its scope binds then. -/
namespace ScriptEval

namespace Notice

def rise : Notice → Int
  | entering .. => 1
  | leaving .. => -1
  | _ => 0

/-- Entries and exits of blocks in matching pairs. The outermost pairs show a depth of one more than `d`, and
every other pair shows one more than the pair that it lies in. -/
inductive Balanced : Nat → List Notice → Prop
  | nil (d : Nat) : Balanced d []
  | other {d : Nat} {n : Notice} {ns : List Notice} (hn : n.rise = 0) (h : Balanced d ns) :
      Balanced d (n :: ns)
  | block {d : Nat} {inner ns : List Notice} (names : List String) (hi : Balanced (d + 1) inner)
      (h : Balanced d ns) :
      Balanced d (.entering (d + 1) [] :: (inner ++ .leaving (d + 1) names :: ns))

def height : List Notice → Int
  | [] => 0
  | n :: ns => n.rise + height ns

@[simp] theorem height_nil : height [] = 0 := rfl

@[simp] theorem height_cons (n : Notice) (ns : List Notice) :
    height (n :: ns) = n.rise + height ns := rfl

@[simp] theorem height_append (ns ms : List Notice) : height (ns ++ ms) = height ns + height ms := by
  induction ns with
  | nil => simp
  | cons n ns ih => simp [ih,Int.add_assoc]

namespace Balanced

variable {d : Nat} {ns ms : List Notice}

theorem append (h : Balanced d ns) (h' : Balanced d ms) : Balanced d (ns ++ ms) := by
  induction h with
  | nil d => exact h'
  | other hn _ ih => exact .other hn (ih h')
  | block names hi _ _ ih =>
    rw [List.cons_append,List.append_assoc,List.cons_append]
    exact .block names hi (ih h')

theorem of_rise (h : ∀ n ∈ ns, n.rise = 0) : Balanced d ns := by
  induction ns with
  | nil => exact .nil d
  | cons n ns ih =>
    obtain ⟨hn,hns⟩ := List.forall_mem_cons.mp h
    exact .other hn (ih hns)

theorem height_eq (h : Balanced d ns) : height ns = 0 := by
  induction h with
  | nil d => rfl
  | other hn _ ih => rw [height_cons,hn,ih]; rfl
  | block names _ _ ihi ih => simp [rise,ihi,ih]

theorem height_nonneg (h : Balanced d ns) {p q : List Notice} (hp : ns = p ++ q) : 0 ≤ height p := by
  induction h generalizing p q with
  | nil d => simp [(List.append_eq_nil_iff.mp hp.symm).1]
  | other hn _ ih =>
    rcases List.cons_eq_append_iff.mp hp with ⟨rfl,_⟩ | ⟨r,rfl,hr⟩
    · simp
    · simpa [hn] using ih hr
  | block names hi _ ihi ih =>
    rcases List.cons_eq_append_iff.mp hp with ⟨rfl,_⟩ | ⟨r,rfl,hr⟩
    · simp
    rcases List.append_eq_append_iff.mp hr with ⟨s,rfl,hs⟩ | ⟨s,rfl,_⟩
    · rcases List.cons_eq_append_iff.mp hs with ⟨rfl,_⟩ | ⟨t,rfl,ht⟩
      · simp [rise,hi.height_eq]
      · have ht := ih ht
        simp only [height_cons,height_append,rise,hi.height_eq]
        omega
    · have hr : 0 ≤ height r := ihi rfl
      simp only [height_cons,rise]
      omega

end Balanced

/-- What is made known in a scope, up to an exit that matches the entry of the scope: the notices begin with
balanced ones, and then the scope is left. -/
def ClosedBy (ns inner : List Notice) (d : Nat) (names : List String) : Prop :=
  (∃ b, Balanced b inner) ∧ ∃ rest, ns = inner ++ .leaving d names :: rest

/-- There is no more than one exit that matches an entry. -/
theorem ClosedBy.unique {ns inner inner' : List Notice} {d d' : Nat} {names names' : List String}
    (h : ClosedBy ns inner d names) (h' : ClosedBy ns inner' d' names') :
    inner' = inner ∧ d' = d ∧ names' = names := by
  obtain ⟨⟨b,hb⟩,rest,rfl⟩ := h
  obtain ⟨⟨b',hb'⟩,rest',h⟩ := h'
  -- A balanced part that went on behind a matching exit would close what it has not opened.
  rcases List.append_eq_append_iff.mp h with ⟨p,rfl,hp⟩ | ⟨p,rfl,hp⟩
  · rcases List.cons_eq_append_iff.mp hp with ⟨rfl,he⟩ | ⟨q,rfl,_⟩
    · obtain ⟨rfl,rfl⟩ := leaving.inj (List.cons.inj he).1
      exact ⟨List.append_nil _,rfl,rfl⟩
    · have hn := hb'.height_nonneg (p := inner ++ [.leaving d names]) (q := q) (by simp)
      simp [rise,hb.height_eq] at hn
  · rcases List.cons_eq_append_iff.mp hp with ⟨rfl,he⟩ | ⟨q,rfl,_⟩
    · obtain ⟨rfl,rfl⟩ := leaving.inj (List.cons.inj he).1
      exact ⟨(List.append_nil _).symm,rfl,rfl⟩
    · have hn := hb.height_nonneg (p := inner' ++ [.leaving d' names']) (q := q) (by simp)
      simp [rise,hb'.height_eq] at hn

end Notice

namespace Forest

@[simp] theorem depth_grow_size (F : Forest) (i : ScopeId) :
    (F.grow (some i)).depth F.size = F.depth i + 1 := by simp [depth,path]

@[simp] theorem names_grow_size (F : Forest) (a : Option ScopeId) : (F.grow a).names F.size = [] := by
  rw [names,bindings_grow_size]
  rfl

theorem Follows.depth_eq {F G : Forest} {i j : ScopeId} (h : F.Follows i G) (hj : j < F.size) :
    G.depth j = F.depth j := by rw [depth,h.outer_eq j hj,depth]

end Forest

namespace World.Follows

variable {w w' : World}

theorem depth_eq (h : w.Follows w') (hw : w.Inside) :
    w'.forest.depth w'.current = w.forest.depth w.current := by
  rw [h.current_eq,h.forest.depth_eq hw]

end World.Follows

namespace Run

open Notice

/-- The trace of a block: its scope lies one deeper, binds nothing at the entry, and is named at the exit
with what it binds then. -/
theorem notices_inBlock {w : World} {body : World → Run}
    (h : World.Follows ⟨w.forest.grow w.current,w.forest.size⟩
      (body ⟨w.forest.grow w.current,w.forest.size⟩).world) :
    let r := body ⟨w.forest.grow w.current,w.forest.size⟩
    (inBlock body w).notices = .entering (w.forest.depth w.current + 1) [] ::
      (r.notices ++ [.leaving (w.forest.depth w.current + 1) (r.world.forest.names w.forest.size)]) := by
  have hd := h.forest.depth_eq w.inside_grow
  rw [inBlock,within,entering,leaving,hd,Forest.depth_grow_size,Forest.names_grow_size,
    List.cons_append]

/-- What a run makes known is balanced at the depth of the scope that it runs in. -/
theorem compositional_balanced : Compositional fun w r =>
    w.Inside → w.Follows r.world ∧ Balanced (w.forest.depth w.current) r.notices where
  done w _ := ⟨.refl w,.nil _⟩
  line w s _ := ⟨.refl w,.other rfl (.nil _)⟩
  define w t v _ := ⟨.define w t v,.nil _⟩
  hole w h _ := ⟨.refl w,.nil _⟩
  evaluating e w next h hw := by
    refine ⟨follows_evaluating hw fun v w' hw' => (h v w' hw').1,?_⟩
    have he := World.Follows.eval e hw
    cases ho : (e.eval w.current w.forest).outcome with
    | ok v =>
      rw [evaluating_of_ok ho,← he.depth_eq hw]
      exact (h v _ (he.inside hw)).2
    | error x =>
      rw [evaluating_of_error ho]
      exact .nil _
  andThen {w r next} hr h hw := by
    obtain ⟨hf,hb⟩ := hr hw
    refine ⟨follows_andThen hw hf fun w' hw' => (h w' hw').1,?_⟩
    cases ho : r.outcome with
    | ok _ =>
      have hn := (h r.world (hf.inside hw)).2
      rw [hf.depth_eq hw] at hn
      rw [andThen_of_ok ho]
      exact hb.append hn
    | error x =>
      rw [andThen_of_error ho]
      exact hb
  inBlock w body h hw := by
    obtain ⟨hf,hb⟩ := h _ w.inside_grow
    refine ⟨follows_inBlock hw fun w' hw' => (h w' hw').1,?_⟩
    rw [notices_inBlock hf]
    rw [Forest.depth_grow_size] at hb
    exact .block _ hb (.nil _)

end Run

namespace Stmt

open Notice

theorem balanced_runAll (ts : List Stmt) {w : World} (hw : w.Inside) :
    Balanced (w.forest.depth w.current) (runAll ts w).notices :=
  (Run.compositional_balanced.runAll ts w hw).2

theorem notices_run_block (body : List Stmt) (brace : Option Token) (w : World) :
    let r := runAll body ⟨w.forest.grow w.current,w.forest.size⟩
    ((block body brace).run w).notices = .entering (w.forest.depth w.current + 1) [] ::
      (r.notices ++ [.leaving (w.forest.depth w.current + 1) (r.world.forest.names w.forest.size)]) := by
  rw [run]
  exact Run.notices_inBlock (Run.compositional_follows.runAll body _ w.inside_grow)

/-- Every entry is that of a block that is reached, and the whole trace of this block follows. -/
def Enters (reached : Stmt → World → Prop) (ns : List Notice) : Prop :=
  ∀ before d names after, ns = before ++ .entering d names :: after →
    ∃ body brace w rest, reached (block body brace) w ∧
      .entering d names :: after = ((block body brace).run w).notices ++ rest

namespace Enters

variable {R S : Stmt → World → Prop} {ns ms : List Notice}

theorem of_rise (h : ∀ n ∈ ns, n.rise ≤ 0) : Enters R ns := by
  rintro before d names after rfl
  exact absurd (h (.entering d names) (by simp)) (by simp [rise])

theorem mono (h : Enters R ns) (hs : ∀ t w, R t w → S t w) : Enters S ns := by
  intro before d names after hns
  obtain ⟨body,brace,w,rest,hr,he⟩ := h _ _ _ _ hns
  exact ⟨body,brace,w,rest,hs _ _ hr,he⟩

theorem append (h : Enters R ns) (h' : Enters R ms) : Enters R (ns ++ ms) := by
  intro before d names after hns
  rcases List.append_eq_append_iff.mp hns with ⟨p,rfl,hp⟩ | ⟨p,rfl,hp⟩
  · exact h' _ _ _ _ hp
  · rcases List.cons_eq_append_iff.mp hp with ⟨rfl,rfl⟩ | ⟨q,rfl,rfl⟩
    · exact h' [] _ _ _ rfl
    · obtain ⟨body,brace,w,rest,hr,he⟩ := h _ _ _ _ rfl
      exact ⟨body,brace,w,rest ++ ms,hr,by rw [← List.append_assoc,← he,List.cons_append]⟩

theorem evaluating {e : Expr} {w : World} {next : Value → World → Run}
    (h : ∀ v, (e.eval w.current w.forest).outcome = .ok v →
      Enters R (next v ⟨(e.eval w.current w.forest).forest,w.current⟩).notices) :
    Enters R (Run.evaluating e w next).notices := by
  cases ho : (e.eval w.current w.forest).outcome with
  | ok v =>
    rw [Run.evaluating_of_ok ho]
    exact h v ho
  | error x =>
    rw [Run.evaluating_of_error ho]
    exact of_rise (by simp)

end Enters

mutual

theorem enters_run : ∀ (t : Stmt) (w : World), Enters (t.Reaches w) (t.run w).notices
  | expression e, w => by
    rw [run]
    exact .evaluating fun _ _ => .of_rise (by simp [Run.done])
  | print e _, w => by
    rw [run]
    exact .evaluating fun _ _ => .of_rise (by simp [rise])
  | var t none, w => by
    rw [run]
    exact .of_rise (by simp [Run.done])
  | var t (some e), w => by
    rw [run]
    exact .evaluating fun _ _ => .of_rise (by simp [Run.done])
  | block body brace, w => by
    intro before d names after h
    rcases List.cons_eq_append_iff.mp h with ⟨rfl,_⟩ | ⟨p,rfl,hp⟩
    · exact ⟨body,brace,w,[],.refl _ w,by rw [List.append_nil,h,List.nil_append]⟩
    · have hb : Enters ((block body brace).Reaches w)
          (runAll body ⟨w.forest.grow w.current,w.forest.size⟩).notices :=
        (enters_runAll body _).mono fun _ _ h => .block h
      have he : ∀ n ∈ [Run.leaving ((block body brace).run w).world.forest w.forest.size],
          n.rise ≤ 0 := by simp [Run.leaving,rise]
      exact hb.append (.of_rise he) p d names after hp
  | ifThen c y, w => by
    rw [run]
    refine .evaluating fun v hv => ?_
    split
    · exact (enters_run y _).mono fun _ _ h => .ifThen hv ‹_› h
    · exact .of_rise (by simp [Run.done])
  | ifElse c y n, w => by
    rw [run]
    refine .evaluating fun v hv => ?_
    split
    · exact (enters_run y _).mono fun _ _ h => .ifElse hv (by rwa [if_pos ‹_›])
    · exact (enters_run n _).mono fun _ _ h => .ifElse hv (by rwa [if_neg ‹_›])
  | hole h, w => by
    rw [run]
    exact .of_rise (by simp)

theorem enters_runAll : ∀ (ts : List Stmt) (w : World), Enters (ReachesIn ts w) (runAll ts w).notices
  | [], w => by
    rw [runAll]
    exact .of_rise (by simp [Run.done])
  | t :: ts, w => by
    have ht : Enters (ReachesIn (t :: ts) w) (t.run w).notices :=
      (enters_run t w).mono fun _ _ h => .head h
    rw [runAll]
    cases ho : (t.run w).outcome with
    | ok _ =>
      rw [Run.andThen_of_ok ho]
      exact ht.append ((enters_runAll ts _).mono fun _ _ h => .tail ho h)
    | error x => rwa [Run.andThen_of_error ho]

end

/-- `ns` is what is made known when the statements `ts` are run in the world `w`: the scopes of blocks are
entered and left in pairs, at the depths where they lie. An entry is that of a block that the run comes to,
and shows no names. It is followed by what the statements of the block make known and then by its only matching
exit, which shows the depth again and the names that the scope binds when the block is left. -/
structure Bracketed (ts : List Stmt) (w : World) (ns : List Notice) : Prop where
  balanced : Balanced (w.forest.depth w.current) ns
  closed : ∀ before d names after, ns = before ++ .entering d names :: after →
    ∃ body brace w', ReachesIn ts w (block body brace) w' ∧
      d = w'.forest.depth w'.current + 1 ∧ names = [] ∧
      let r := runAll body ⟨w'.forest.grow w'.current,w'.forest.size⟩
      ∀ inner d' names', ClosedBy after inner d' names' ↔
        inner = r.notices ∧ d' = d ∧ names' = r.world.forest.names w'.forest.size

theorem bracketed_append (ts : List Stmt) {w : World} (hw : w.Inside) {ns : List Notice}
    (hn : ∀ n ∈ ns, n.rise = 0) : Bracketed ts w ((runAll ts w).notices ++ ns) where
  balanced := (balanced_runAll ts hw).append (.of_rise hn)
  closed before d names after h := by
    have he : Enters (ReachesIn ts w) ns := .of_rise fun n hm => Int.le_of_eq (hn n hm)
    obtain ⟨body,brace,w',rest,hr,ht⟩ := (enters_runAll ts w).append he before d names after h
    rw [notices_run_block,List.cons_append,List.append_assoc,List.singleton_append] at ht
    obtain ⟨h₁,h₂⟩ := List.cons.inj ht
    obtain ⟨rfl,rfl⟩ := entering.inj h₁
    refine ⟨body,brace,w',hr,rfl,rfl,fun inner d' names' => ⟨fun hc => ?_,?_⟩⟩
    · exact ClosedBy.unique ⟨⟨_,balanced_runAll body w'.inside_grow⟩,rest,h₂⟩ hc
    · rintro ⟨rfl,rfl,rfl⟩
      exact ⟨⟨_,balanced_runAll body w'.inside_grow⟩,rest,h₂⟩

theorem bracketed_runAll (ts : List Stmt) {w : World} (hw : w.Inside) :
    Bracketed ts w (runAll ts w).notices :=
  List.append_nil (runAll ts w).notices ▸ bracketed_append ts hw (by simp)

end Stmt

def Journal.told (j : Journal) (ns : List Notice) : List String :=
  (ns.filter fun n => n.line?.isNone).map (Notice.text j.explain)

theorem Journal.shown_eq_told {j : Journal} {ns : List Notice}
    (h : ∀ n ∈ ns, ∀ l ∈ n.level?, l ≤ j.verbosity) : j.shown ns = j.told ns := by
  unfold shown told
  congr 1
  refine List.filter_congr fun n hn => ?_
  have hs : n.shownAt j.verbosity = true := by
    unfold Notice.shownAt
    cases hl : n.level? with
    | none => rfl
    | some l => simpa using h n hn l hl
  rw [hs,Bool.and_true]

theorem Notice.OfRun.level_le {n : Notice} (h : n.OfRun) : ∀ l ∈ n.level?, l ≤ 2 := by
  rcases h with h | ⟨s,rfl⟩
  · simp [h]
  · simp [level?]

namespace Session

open Stmt (Bracketed)

variable {s : Session}

/-- At a verbosity of two a step holds back no notice that is shown at two. -/
theorem prints_eq_told {t : Step} (hv : 2 ≤ s.journal.verbosity)
    (h : ∀ n ∈ (s.perform t).notices, ∀ l ∈ n.level?, l ≤ 2) :
    (s.perform t).prints = (s.perform t).session.journal.told (s.perform t).notices := by
  refine Journal.shown_eq_told fun n hn l hl => ?_
  rw [verbosity_perform]
  exact Int.le_trans (h n hn l hl) hv

theorem exists_notices_interpret (s : Session) (ts : List Stmt) :
    ∃ ns, (s.interpret ts).notices = (Stmt.runAll ts s.world).notices ++ ns ∧
      (∀ n ∈ ns, n.rise = 0 ∧ n.level? = some 1) ∧
      ((s.interpret ts).reply = .ok (.flag false) → ∃ f k, ns = [.failure f,.stopped k]) := by
  rcases (Stmt.runAll ts s.world).outcome_cases with h | ⟨f,h⟩ | ⟨x,hx,h⟩
  · rw [interpret_of_ok h]
    exact ⟨_,rfl,by simp [Notice.rise,Notice.level?],by simp⟩
  · rw [interpret_of_failed h]
    exact ⟨_,rfl,by simp [Notice.rise,Notice.level?],fun _ => ⟨f,_,rfl⟩⟩
  · rw [interpret_of_escaped h hx]
    exact ⟨[],(List.append_nil _).symm,by simp,by simp⟩

theorem bracketed_execute (hv : 2 ≤ s.journal.verbosity) (hw : s.world.Inside) (t : Stmt) :
    let e := s.perform (.execute t)
    e.prints = e.session.journal.told e.notices ∧ Bracketed [t] s.world e.notices := by
  have hb := Stmt.bracketed_runAll [t] hw
  rw [Stmt.runAll_singleton] at hb
  exact ⟨prints_eq_told hv fun n hn => (Run.compositional_ofRun.run t s.world n hn).level_le,hb⟩

theorem bracketed_interpret (hv : 2 ≤ s.journal.verbosity) (hw : s.world.Inside) (ts : List Stmt) :
    let e := s.perform (.interpret ts)
    e.prints = e.session.journal.told e.notices ∧ Bracketed ts s.world e.notices ∧
      (e.reply = .ok (.flag false) → ∃ ns f k, e.notices = ns ++ [.failure f,.stopped k] ∧
        ∀ n ∈ ns, n.OfRun) := by
  intro e
  obtain ⟨ns,he,hn,hf⟩ := s.exists_notices_interpret ts
  have ho : ∀ n ∈ (Stmt.runAll ts s.world).notices, n.OfRun := Run.compositional_ofRun.runAll ts s.world
  have hl : ∀ n ∈ e.notices, ∀ l ∈ n.level?, l ≤ 2 := by
    intro n hm
    rcases List.mem_append.mp (he ▸ hm) with hm | hm
    · exact (ho n hm).level_le
    · simp [(hn n hm).2]
  refine ⟨prints_eq_told hv hl,he ▸ Stmt.bracketed_append ts hw fun n hm => (hn n hm).1,fun hr => ?_⟩
  obtain ⟨f,k,rfl⟩ := hf hr
  exact ⟨_,f,k,he,ho⟩

theorem bracketed_executeIn (hv : 2 ≤ s.journal.verbosity) {a : String} {i : ScopeId}
    (ha : s.scopes[a]? = some i) (hi : i < s.world.forest.size) (ts : List Stmt) :
    let e := s.perform (.executeIn a ts)
    let F := s.world.forest
    let G := e.session.world.forest
    e.prints = e.session.journal.told e.notices ∧
      ∃ ns, e.notices = .entering (F.depth i) (F.names i) :: (ns ++ [.leaving (F.depth i) (G.names i)]) ∧
        Bracketed ts ⟨F,i⟩ ns := by
  intro e F G
  have he : e = s.afterRun (Run.within i (Stmt.runAll ts) s.world) .nothing := by
    simp only [e,perform,withScope,ha]
  have hw : World.Inside ⟨F,i⟩ := hi
  have hd : G.depth i = F.depth i := by
    rw [show G = (Stmt.runAll ts ⟨F,i⟩).world.forest from congrArg (fun e => e.session.world.forest) he]
    exact (Stmt.follows_runAll ts hw).depth_eq hi
  have hn : e.notices = .entering (F.depth i) (F.names i) ::
      ((Stmt.runAll ts ⟨F,i⟩).notices ++ [.leaving (G.depth i) (G.names i)]) := by
    simp only [G,he]
    rfl
  rw [hd] at hn
  have ho : ∀ n ∈ e.notices, n.OfRun := by
    rw [hn]
    have hns := Run.compositional_ofRun.runAll ts ⟨F,i⟩
    refine List.forall_mem_cons.mpr ⟨.inl rfl,List.forall_mem_append.mpr ⟨hns,?_⟩⟩
    exact List.forall_mem_singleton.mpr (.inl rfl)
  exact ⟨prints_eq_told hv fun n hm => (ho n hm).level_le,_,hn,Stmt.bracketed_runAll ts hw⟩

end Session
end ScriptEval
