import ScriptEval.Forest

/-! What is bound after a binding was made or a scope was added, and the way out of a scope. Every scope lies in
scopes that are older than itself, so the way out ends and meets no scope twice. What a program does in a scope
changes only the scopes on its way out, and adds others. -/
namespace ScriptEval.Forest

theorem outer_of_size_le {F : Forest} {i : ScopeId} (h : F.size ≤ i) : F.outer i = [] := by
  have h : F.scopes.size ≤ i := h
  simp [outer,scope,Array.getElem?_eq_none h]

theorem outer_grow_of_lt {F : Forest} {i : ScopeId} (h : i < F.size) (a : Option ScopeId) :
    (F.grow a).outer i = F.outer i := by
  rw [outer,scope_grow_of_lt h,outer]

theorem path_grow_of_lt {F : Forest} {i : ScopeId} (h : i < F.size) (a : Option ScopeId) :
    (F.grow a).path i = F.path i := by
  rw [path,outer_grow_of_lt h,path]

theorem bindings_grow_of_lt {F : Forest} {i : ScopeId} (h : i < F.size) (a : Option ScopeId) :
    (F.grow a).bindings i = F.bindings i := by
  rw [bindings,scope_grow_of_lt h,bindings]

@[simp] theorem outer_grow_size (F : Forest) (a : Option ScopeId) :
    (F.grow a).outer F.size = a.elim [] F.path := by simp [outer]

@[simp] theorem bindings_grow_size (F : Forest) (a : Option ScopeId) :
    (F.grow a).bindings F.size = ∅ := by simp [bindings]

theorem mem_path_self (F : Forest) (i : ScopeId) : i ∈ F.path i := List.mem_cons_self

section Bindings

variable {F : Forest} {i j : ScopeId}

theorem define_of_size_le (h : F.size ≤ i) (n : String) (v : Value) : F.define i n v = F := by
  have h : F.scopes.size ≤ i := h
  have hs : (F.define i n v).scopes = F.scopes := by
    apply Array.ext_getElem?
    intro k
    by_cases hk : i = k
    · subst k
      simp [define,Array.getElem?_modify,Array.getElem?_eq_none h]
    · simp [define,Array.getElem?_modify,hk]
  exact congrArg Forest.mk hs

theorem getElem?_bindings_define (F : Forest) (i j : ScopeId) (n m : String) (v : Value) :
    ((F.define i n v).bindings j)[m]? =
      if i < F.size ∧ i = j ∧ n = m then some v else (F.bindings j)[m]? := by
  by_cases hi : i < F.size
  · by_cases hj : i = j
    · subst j
      rw [bindings_define_self hi,Std.ExtTreeMap.getElem?_insert]
      simp [hi]
    · simp [bindings_define_of_ne F hj,hj]
  · rw [define_of_size_le (Nat.le_of_not_lt hi)]
    simp [hi]

theorem mem_bindings_define (F : Forest) (i j : ScopeId) (n m : String) (v : Value) :
    m ∈ (F.define i n v).bindings j ↔ (i < F.size ∧ i = j ∧ n = m) ∨ m ∈ F.bindings j := by
  rw [← Std.ExtTreeMap.isSome_getElem?_iff_mem,← Std.ExtTreeMap.isSome_getElem?_iff_mem,
    getElem?_bindings_define]
  by_cases h : i < F.size ∧ i = j ∧ n = m
  · rw [if_pos h]
    exact ⟨fun _ => .inl h,fun _ => rfl⟩
  · rw [if_neg h]
    simp only [h,false_or]

theorem bindings_of_size_le (h : F.size ≤ i) : F.bindings i = ∅ := by
  have h : F.scopes.size ≤ i := h
  simp [bindings,scope,Array.getElem?_eq_none h]

@[simp] theorem bindings_grow (F : Forest) (a : Option ScopeId) (i : ScopeId) :
    (F.grow a).bindings i = F.bindings i := by
  by_cases hi : i < F.size
  · exact bindings_grow_of_lt hi a
  · rw [bindings_of_size_le (Nat.le_of_not_lt hi)]
    by_cases hs : i = F.size
    · subst i
      simp
    · have hlt : F.size < i := Nat.lt_of_le_of_ne (Nat.le_of_not_lt hi) (Ne.symm hs)
      exact bindings_of_size_le (by rw [size_grow]; exact hlt)

end Bindings

/-- Every scope was made in no other, or in one that was made before it. -/
def Chained (F : Forest) : Prop := ∀ i, F.outer i = [] ∨ ∃ j < i, F.outer i = F.path j

namespace Chained

variable {F : Forest}

theorem empty : ({} : Forest).Chained := fun _ => .inl (outer_of_size_le (Nat.zero_le _))

theorem lt_of_mem_outer (h : F.Chained) {i j : ScopeId} (hj : j ∈ F.outer i) : j < i := by
  induction i using Nat.strongRecOn with
  | ind i ih =>
    rcases h i with ho | ⟨k,hk,ho⟩
    · simp [ho] at hj
    · rw [ho] at hj
      rcases List.mem_cons.mp hj with rfl | hj
      · exact hk
      · exact Nat.lt_trans (ih k hk hj) hk

theorem le_of_mem_path (h : F.Chained) {i j : ScopeId} (hj : j ∈ F.path i) : j ≤ i := by
  rcases List.mem_cons.mp hj with rfl | hj
  · exact Nat.le_refl _
  · exact Nat.le_of_lt (h.lt_of_mem_outer hj)

/-- From scope to scope the way out leads to ever older ones. -/
theorem path_pairwise (h : F.Chained) (i : ScopeId) : (F.path i).Pairwise (· > ·) := by
  induction i using Nat.strongRecOn with
  | ind i ih =>
    refine List.pairwise_cons.mpr ⟨fun j hj => h.lt_of_mem_outer hj,?_⟩
    rcases h i with ho | ⟨k,hk,ho⟩
    · simp [ho]
    · rw [ho]
      exact ih k hk

theorem path_nodup (h : F.Chained) (i : ScopeId) : (F.path i).Nodup :=
  (h.path_pairwise i).imp Nat.ne_of_gt

theorem define (h : F.Chained) (i : ScopeId) (n : String) (v : Value) : (F.define i n v).Chained := by
  intro j
  simpa using h j

theorem grow (h : F.Chained) {a : Option ScopeId} (ha : ∀ i ∈ a, i < F.size) :
    (F.grow a).Chained := by
  intro i
  rcases Nat.lt_trichotomy i F.size with hi | rfl | hi
  · rw [outer_grow_of_lt hi]
    rcases h i with ho | ⟨j,hj,ho⟩
    · exact .inl ho
    · exact .inr ⟨j,hj,by rw [ho,path_grow_of_lt (Nat.lt_trans hj hi)]⟩
  · cases a with
    | none => exact .inl (by simp)
    | some i => exact .inr ⟨i,ha i rfl,by simp [path_grow_of_lt (ha i rfl)]⟩
  · exact .inl (outer_of_size_le (by rw [size_grow]; exact hi))

end Chained

/-- `G` comes after `F` by what was done in the scope `i`: no scope is lost or moved, and of the
old ones only those on the way out of `i` have other bindings. -/
structure Follows (F : Forest) (i : ScopeId) (G : Forest) : Prop where
  size_le : F.size ≤ G.size
  outer_eq : ∀ j < F.size, G.outer j = F.outer j
  bindings_eq : ∀ j < F.size, j ∉ F.path i → G.bindings j = F.bindings j
  chained : F.Chained → G.Chained

namespace Follows

variable {F G H : Forest} {i j : ScopeId}

theorem refl (F : Forest) (i : ScopeId) : F.Follows i F :=
  ⟨Nat.le_refl _,fun _ _ => rfl,fun _ _ _ => rfl,id⟩

theorem path_eq (h : F.Follows i G) (hj : j < F.size) : G.path j = F.path j := by
  rw [path,h.outer_eq j hj,path]

theorem trans (hi : i < F.size) (h₁ : F.Follows i G) (h₂ : G.Follows i H) : F.Follows i H where
  size_le := Nat.le_trans h₁.size_le h₂.size_le
  outer_eq j hj := (h₂.outer_eq j (Nat.lt_of_lt_of_le hj h₁.size_le)).trans (h₁.outer_eq j hj)
  bindings_eq j hj hp :=
    (h₂.bindings_eq j (Nat.lt_of_lt_of_le hj h₁.size_le) (by rwa [h₁.path_eq hi])).trans
      (h₁.bindings_eq j hj hp)
  chained := h₂.chained ∘ h₁.chained

theorem of_define (hj : j ∈ F.path i) (n : String) (v : Value) : F.Follows i (F.define j n v) where
  size_le := Nat.le_of_eq (size_define F j n v).symm
  outer_eq k _ := outer_define F j k n v
  bindings_eq k _ hk := bindings_define_of_ne F (by rintro rfl; exact hk hj) n v
  chained h := h.define j n v

theorem of_grow (hi : i < F.size) (h : (F.grow (some i)).Follows F.size G) : F.Follows i G where
  size_le := Nat.le_trans (by rw [size_grow]; exact Nat.le_succ _) h.size_le
  outer_eq j hj := by
    rw [h.outer_eq j (by rw [size_grow]; exact Nat.lt_succ_of_lt hj),outer_grow_of_lt hj]
  bindings_eq j hj hp := by
    have hn : j ∉ (F.grow (some i)).path F.size := by
      simpa [path,Nat.ne_of_lt hj] using hp
    rw [h.bindings_eq j (by rw [size_grow]; exact Nat.lt_succ_of_lt hj) hn,bindings_grow_of_lt hj]
  chained hF := h.chained (hF.grow (by simpa using hi))

end Follows

end ScriptEval.Forest
