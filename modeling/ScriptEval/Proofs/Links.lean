import ScriptEval.Proofs.Moments

/-! The links from scope to scope. At every moment of a session they lead out of any scope in finitely
many steps, so that whatever goes out along them ends: looking a name up, assigning to it, and counting how
deep a scope lies. -/
namespace ScriptEval

namespace Forest

def climb (F : Forest) : Nat → ScopeId → Option ScopeId
  | 0, i => some i
  | k + 1, i => (F.enclosing? i).bind (F.climb k)

/-- Searching along the links, scope by scope outward, ends with `r`: with what is found in the first scope
that has something, or with nothing when there is no further scope. -/
inductive Searches {α : Type} (F : Forest) (found : ScopeId → Option α) :
    Option ScopeId → Option α → Prop
  | past : Searches F found none none
  | here {i : ScopeId} {a : α} (h : found i = some a) : Searches F found (some i) (some a)
  | onward {i : ScopeId} {r : Option α} (h : found i = none)
      (hr : Searches F found (F.enclosing? i) r) : Searches F found (some i) r

inductive Counts (F : Forest) : Nat → Option ScopeId → Nat → Prop
  | past (k : Nat) : Counts F k none k
  | onward {k d : Nat} {i : ScopeId} (h : Counts F (k + 1) (F.enclosing? i) d) :
      Counts F k (some i) d

theorem Searches.unique {α : Type} {F : Forest} {found : ScopeId → Option α} {o : Option ScopeId}
    {r r' : Option α} (h : F.Searches found o r) (h' : F.Searches found o r') : r = r' := by
  induction h with
  | past =>
    cases h'
    rfl
  | here ha =>
    cases h' with
    | here ha' => rw [← ha,ha']
    | onward hn _ => rw [hn] at ha; cases ha
  | onward hn _ ih =>
    cases h' with
    | here ha => rw [hn] at ha; cases ha
    | onward _ hr => exact ih hr

theorem Counts.unique {F : Forest} {k d d' : Nat} {o : Option ScopeId} (h : F.Counts k o d)
    (h' : F.Counts k o d') : d = d' := by
  induction h with
  | past k =>
    cases h'
    rfl
  | onward _ ih =>
    cases h' with
    | onward h' => exact ih h'

theorem assign?_eq_findSome? (F : Forest) (i : ScopeId) (n : String) (v : Value) : F.assign? i n v =
    (F.path i).findSome? fun j => if n ∈ F.bindings j then some (F.define j n v) else none := by
  rw [assign?,resolve?]
  induction F.path i with
  | nil => rfl
  | cons j js ih =>
    by_cases hn : n ∈ F.bindings j
    · simp [hn]
    · simpa [hn] using ih

namespace Chained

variable {F : Forest} {i j : ScopeId}

theorem lt_of_enclosing? (h : F.Chained) (hj : F.enclosing? i = some j) : j < i :=
  h.lt_of_mem_outer (List.mem_of_head? hj)

theorem outer_eq_elim (h : F.Chained) (i : ScopeId) : F.outer i = (F.enclosing? i).elim [] F.path := by
  rcases h i with ho | ⟨j,_,ho⟩
  · simp [enclosing?,ho]
  · simp [enclosing?,ho,path]

theorem climb_eq_getElem? (h : F.Chained) (k : Nat) (i : ScopeId) : F.climb k i = (F.path i)[k]? := by
  induction k generalizing i with
  | zero => rfl
  | succ k ih =>
    rw [climb,path,List.getElem?_cons_succ,h.outer_eq_elim i]
    cases F.enclosing? i with
    | none => rfl
    | some j => exact ih j

/-- Searching along the links ends with what is found on the way out. -/
theorem searches_iff {α : Type} (h : F.Chained) (found : ScopeId → Option α) (i : ScopeId)
    (r : Option α) : F.Searches found (some i) r ↔ r = (F.path i).findSome? found := by
  have hs : F.Searches found (some i) ((F.path i).findSome? found) := by
    induction i using Nat.strongRecOn with
    | ind i ih =>
      rw [path,List.findSome?_cons,h.outer_eq_elim i]
      cases hi : found i with
      | some a => exact .here hi
      | none =>
        refine .onward hi ?_
        cases hj : F.enclosing? i with
        | none => exact .past
        | some j => exact ih j (h.lt_of_enclosing? hj)
  constructor
  · intro hr
    exact hr.unique hs
  · rintro rfl
    exact hs

theorem depth_of_outermost (h : F.Chained) (hi : F.enclosing? i = none) : F.depth i = 0 := by
  rw [depth,h.outer_eq_elim i,hi]
  rfl

theorem depth_of_enclosing? (h : F.Chained) (hj : F.enclosing? i = some j) :
    F.depth i = F.depth j + 1 := by
  rw [depth,h.outer_eq_elim i,hj]
  rfl

theorem counts_depth (h : F.Chained) (k : Nat) (i : ScopeId) :
    F.Counts k (F.enclosing? i) (k + F.depth i) := by
  induction i using Nat.strongRecOn generalizing k with
  | ind i ih =>
    cases hj : F.enclosing? i with
    | none =>
      rw [h.depth_of_outermost hj]
      exact .past k
    | some j =>
      rw [h.depth_of_enclosing? hj,← Nat.add_assoc,Nat.add_right_comm]
      exact .onward (ih j (h.lt_of_enclosing? hj) (k + 1))

theorem counts_iff (h : F.Chained) (i : ScopeId) (d : Nat) :
    F.Counts 0 (F.enclosing? i) d ↔ d = F.depth i := by
  have hd : F.Counts 0 (F.enclosing? i) (F.depth i) := Nat.zero_add (F.depth i) ▸ h.counts_depth 0 i
  constructor
  · intro hc
    exact hc.unique hd
  · rintro rfl
    exact hd

theorem depth_le (h : F.Chained) (i : ScopeId) : F.depth i ≤ i := by
  induction i using Nat.strongRecOn with
  | ind i ih =>
    cases hj : F.enclosing? i with
    | none => exact (h.depth_of_outermost hj).trans_le (Nat.zero_le i)
    | some j =>
      have hlt := h.lt_of_enclosing? hj
      rw [h.depth_of_enclosing? hj]
      exact Nat.le_trans (Nat.succ_le_succ (ih j hlt)) hlt

end Chained

/-- Links lead to older scopes. So going out along them ends after as many steps as there are scopes at
most, and comes to no scope twice. Then looking a name up ends too, as do assigning it and counting the
depth, with what the forest says of them. -/
structure WellLinked (F : Forest) : Prop where
  older : ∀ i j, F.enclosing? i = some j → j < i
  ends : ∀ i < F.size, ∃ k ≤ F.size, F.climb k i = none
  once : ∀ (i j : ScopeId) (k l : Nat), F.climb k i = some j → F.climb l i = some j → k = l
  get? (i : ScopeId) (n : String) (r : Option Value) :
    F.Searches (fun j => (F.bindings j)[n]?) (some i) r ↔ r = F.get? i n
  assign? (i : ScopeId) (n : String) (v : Value) (r : Option Forest) :
    F.Searches (fun j => if n ∈ F.bindings j then some (F.define j n v) else none) (some i) r ↔
      r = F.assign? i n v
  depth (i : ScopeId) (d : Nat) : F.Counts 0 (F.enclosing? i) d ↔ d = F.depth i
  depth_outermost : ∀ i, F.enclosing? i = none → F.depth i = 0
  depth_inner : ∀ i j, F.enclosing? i = some j → F.depth i = F.depth j + 1

theorem Chained.wellLinked {F : Forest} (h : F.Chained) : F.WellLinked where
  older _ _ hj := h.lt_of_enclosing? hj
  ends i hi := by
    refine ⟨F.depth i + 1,Nat.le_trans (Nat.succ_le_succ (h.depth_le i)) hi,?_⟩
    rw [h.climb_eq_getElem?]
    exact List.getElem?_eq_none (Nat.le_refl _)
  once i j k l hk hl := by
    rw [h.climb_eq_getElem?] at hk hl
    obtain ⟨hlt,_⟩ := List.getElem?_eq_some_iff.mp hk
    exact (List.getElem?_inj hlt (h.path_nodup i)).mp (hk.trans hl.symm)
  get? i n r := h.searches_iff _ i r
  assign? i n v r := by rw [h.searches_iff,assign?_eq_findSome?]
  depth i d := h.counts_iff i d
  depth_outermost _ hi := h.depth_of_outermost hi
  depth_inner _ _ hj := h.depth_of_enclosing? hj

/-- All scopes of `F` are in `G`, with the same links and at the same depths, and bind there at least the
names that they bound. -/
structure Persists (F G : Forest) : Prop where
  size_le : F.size ≤ G.size
  enclosing?_eq : ∀ i < F.size, G.enclosing? i = F.enclosing? i
  depth_eq : ∀ i < F.size, G.depth i = F.depth i
  kept : ∀ i < F.size, ∀ n, n ∈ F.bindings i → n ∈ G.bindings i

theorem Extends.persists {F G : Forest} (h : F.Extends G) : F.Persists G where
  size_le := h.size_le
  enclosing?_eq i hi := by rw [enclosing?,h.outer_eq i hi,enclosing?]
  depth_eq i hi := by rw [depth,h.outer_eq i hi,depth]
  kept := h.kept

end Forest

namespace Session

/-- At every moment of every session the links lead out of each scope in finitely many steps, also
while a program runs and where it was broken off. From one moment to the next no scope is lost, no link
changes and no bound name disappears, and the depth that is told of a scope is the one that is counted. -/
theorem scopes_only_grow :
    (∀ F : Forest, F.Arises → F.WellLinked) ∧
    ∀ s : Session, s.Reachable →
      (∀ (t : Step) (F : Forest), s.Passes t F →
        s.world.forest.Persists F ∧ F.Persists (s.perform t).session.world.forest) ∧
      (∀ ts : List Step, s.world.forest.Persists (s.after ts).world.forest) ∧
      ∀ (a : String) (i : ScopeId), s.scopes[a]? = some i → ∃ d,
        s.world.forest.Counts 0 (s.world.forest.enclosing? i) d ∧
        (s.perform (.describe a)).reply = .ok (.text ("<Environment depth=" ++ toString d ++ " [" ++
          ", ".intercalate ((s.world.forest.names i).map quoted) ++ "]>")) := by
  refine ⟨fun F hF => hF.chained.wellLinked,fun s hs => ⟨fun t F hF => ?_,fun ts => ?_,fun a i ha => ?_⟩⟩
  · obtain ⟨hb,ha⟩ := hs.sound.extends_passes hF
    exact ⟨hb.persists,ha.persists⟩
  · exact (hs.extends_after ts).persists
  · refine ⟨_,(hs.sound.chained.wellLinked.depth i _).mpr rfl,?_⟩
    rw [perform,withScope,ha]
    rfl

/-- A program in a scope of another name comes to its inner block, where it is broken off. The scope of that
block lies two links deep, when the program comes to it and afterwards. A scope in the other one is told to lie
one link deep. -/
theorem scopes_only_grow_nested :
    let x : Token := ⟨.identifier,"x",1,none⟩
    let y : Token := ⟨.identifier,"y",2,none⟩
    let ts : List Stmt := [.block [.var x none,.block [.print (.name y) none] none] none]
    let t : Step := .executeIn "other" ts
    let s := ((start 0 none).perform (.newScope "other" none)).session
    let F := ((s.world.forest.grow (some 1)).define 2 "x" .nil).grow (some 2)
    let G := (s.perform t).session.world.forest
    let u := s.after [.newScope "inner" (some "other"),.define "inner" "x" .nil]
    s.Reachable ∧ s.Passes t F ∧
      (Stmt.runAll ts ⟨s.world.forest,1⟩).outcome = .error (.failed (.undefined y)) ∧
      F.WellLinked ∧ F.climb 2 3 = some 1 ∧ F.Counts 0 (F.enclosing? 3) 2 ∧
      F.Persists G ∧ G.depth 3 = 2 ∧
      (u.perform (.describe "inner")).reply = .ok (.text "<Environment depth=1 ['x']>") := by
  intro x y ts t s F G u
  have hs : s.Reachable := (Reachable.start 0 none).step _
  have hp : s.Passes t F :=
    .executeIn (i := 1) (by rfl) (.before (.head (.block (.tail rfl (.head (.block
      (.head (.refl _ _))))))))
  have hF : F.WellLinked := scopes_only_grow.1 F (.within hs hp)
  have hG : F.Persists G := ((scopes_only_grow.2 s hs).1 t F hp).2
  have hu : u.Reachable := hs.after _
  obtain ⟨d,hd,hr⟩ := (scopes_only_grow.2 u hu).2.2 "inner" 2 (by rfl)
  obtain rfl : d = 1 := (hu.sound.chained.wellLinked.depth 2 d).mp hd
  have htext : "<Environment depth=" ++ toString 1 ++ " [" ++
      ", ".intercalate ((u.world.forest.names 2).map quoted) ++ "]>" = "<Environment depth=1 ['x']>" := by
    decide +kernel
  rw [htext] at hr
  exact ⟨hs,hp,by decide +kernel,hF,by decide +kernel,(hF.depth 3 2).mpr rfl,hG,
    hG.depth_eq 3 (by decide),hr⟩

end Session
end ScriptEval
