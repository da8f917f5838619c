import Mathlib.Algebra.Ring.Nat
import Mathlib.Data.List.Basic
import ScriptEval.Text.Quoted

/-! Quoted texts are read back. A character in quotes can be told from what follows it, whatever it is, and so
can the quote at the end. Therefore no two texts look alike in quotes, also in front of other text. -/
namespace ScriptEval

namespace Numeral

def digitValue (c : Char) : Nat := if c.isDigit then c.toNat - 48 else c.toNat - 87

def hexadecimal (cs : List Char) : Nat := cs.foldl (fun n c => 16 * n + digitValue c) 0

theorem digitValue_digitChar : ∀ d < 16, digitValue d.digitChar = d := by decide

theorem hexadecimal_concat (cs : List Char) (c : Char) :
    hexadecimal (cs ++ [c]) = 16 * hexadecimal cs + digitValue c := by simp [hexadecimal]

theorem hexadecimal_toDigits (n : Nat) : hexadecimal (Nat.toDigits 16 n) = n := by
  induction n using Nat.strongRecOn with
  | ind n ih =>
    by_cases hn : n < 16
    · simp [Nat.toDigits_of_lt_base hn,hexadecimal,digitValue_digitChar n hn]
    · have hd := digitValue_digitChar (n % 16) (Nat.mod_lt n (by decide))
      have hi := ih (n / 16) (by omega)
      rw [Nat.toDigits_of_base_le (by decide) (Nat.le_of_not_lt hn),hexadecimal_concat,hi,hd]
      exact Nat.div_add_mod n 16

theorem hexadecimal_padded (w n : Nat) : hexadecimal (padded 16 w n) = n := by
  have hz : ∀ k, (List.replicate k '0').foldl (fun n c => 16 * n + digitValue c) 0 = 0 := by
    intro k
    induction k with
    | zero => rfl
    | succ k ih => simpa [List.replicate_succ,digitValue] using ih
  rw [hexadecimal,padded,List.foldl_append,hz]
  exact hexadecimal_toDigits n

theorem exists_digitChar_of_mem_toDigits {b n : Nat} (hb : 1 < b) {c : Char}
    (h : c ∈ Nat.toDigits b n) : ∃ d < b, c = d.digitChar := by
  induction n using Nat.strongRecOn with
  | ind n ih =>
    rw [Nat.toDigits_eq_if hb] at h
    split at h
    · rename_i hn
      exact ⟨n,hn,List.mem_singleton.mp h⟩
    · rename_i hn
      rcases List.mem_append.mp h with h | h
      · exact ih (n / b) (Nat.div_lt_self (by omega) hb) h
      · exact ⟨n % b,Nat.mod_lt n (by omega),List.mem_singleton.mp h⟩

end Numeral

namespace Quoted

open Numeral

variable {q c : Char} {s t r r' : List Char}

theorem length_padded_of_lt {w n : Nat} (hw : 0 < w) (hn : n < 16 ^ w) :
    (padded 16 w n).length = w := by
  rw [length_padded,Nat.max_eq_left ((Nat.length_toDigits_le_iff (by decide) hw).mpr hn)]

/-- The character at the front of a text in quotes, and what follows it. -/
def unescape? : List Char → Option (Char × List Char)
  | '\\' :: 't' :: r => some ('\t',r)
  | '\\' :: 'n' :: r => some ('\n',r)
  | '\\' :: 'r' :: r => some ('\r',r)
  | '\\' :: 'x' :: r => some (.ofNat (hexadecimal (r.take 2)),r.drop 2)
  | '\\' :: 'u' :: r => some (.ofNat (hexadecimal (r.take 4)),r.drop 4)
  | '\\' :: 'U' :: r => some (.ofNat (hexadecimal (r.take 8)),r.drop 8)
  | '\\' :: c :: r => some (c,r)
  | c :: r => some (c,r)
  | [] => none

theorem ofNat_hexadecimal_take {w : Nat} (hw : 0 < w) (hc : c.toNat < 16 ^ w) (r : List Char) :
    Char.ofNat (hexadecimal ((padded 16 w c.toNat ++ r).take w)) = c ∧
      (padded 16 w c.toNat ++ r).drop w = r := by
  have hl := length_padded_of_lt hw hc
  rw [List.take_left' hl,List.drop_left' hl,hexadecimal_padded,Char.ofNat_toNat]
  exact ⟨rfl,rfl⟩

theorem unescape?_escape (hq : q = single ∨ q = double) (c : Char) (r : List Char) :
    unescape? (escape q c ++ r) = some (c,r) := by
  unfold escape
  split_ifs with h₁ h₂ h₃ h₄ h₅ h₆ h₇
  · have hc : c = single ∨ c = double ∨ c = '\\' := by grind
    rcases hc with rfl | rfl | rfl <;> rfl
  · rw [h₂]
    rfl
  · rw [h₃]
    rfl
  · rw [h₄]
    rfl
  · have hc : c ≠ '\\' := fun h => h₁ (.inr h)
    unfold unescape?
    split <;> simp_all
  · obtain ⟨hc,hr⟩ := ofNat_hexadecimal_take (w := 2) (by decide) h₆ r
    simp only [List.cons_append,unescape?,hc,hr]
  · obtain ⟨hc,hr⟩ := ofNat_hexadecimal_take (w := 4) (by decide) h₇ r
    simp only [List.cons_append,unescape?,hc,hr]
  · have hlt : c.toNat < 16 ^ 8 := Nat.lt_of_lt_of_le c.val.toNat_lt (by decide)
    obtain ⟨hc,hr⟩ := ofNat_hexadecimal_take (w := 8) (by decide) hlt r
    simp only [List.cons_append,unescape?,hc,hr]

theorem head?_escape_ne (hq : q = single ∨ q = double) (c : Char) (r : List Char) :
    (escape q c ++ r).head? ≠ some q := by
  have hb : '\\' ≠ q := by rcases hq with rfl | rfl <;> decide
  unfold escape
  split_ifs <;> simp_all

theorem flatMap_escape_append_inj (hq : q = single ∨ q = double)
    (h : s.flatMap (escape q) ++ q :: r = t.flatMap (escape q) ++ q :: r') : s = t ∧ r = r' := by
  induction s generalizing t with
  | nil =>
    cases t with
    | nil => simpa using h
    | cons d t =>
      simp only [List.flatMap_nil,List.nil_append,List.flatMap_cons,List.append_assoc] at h
      exact absurd (congrArg List.head? h.symm) (head?_escape_ne hq d _)
  | cons c s ih =>
    simp only [List.flatMap_cons,List.append_assoc] at h
    cases t with
    | nil => exact absurd (congrArg List.head? h) (head?_escape_ne hq c _)
    | cons d t =>
      simp only [List.flatMap_cons,List.append_assoc] at h
      -- Both sides begin with one character, and what follows it is the same too.
      have hc := unescape?_escape hq c (s.flatMap (escape q) ++ q :: r)
      rw [h,unescape?_escape hq d,Option.some.injEq,Prod.mk.injEq] at hc
      obtain ⟨rfl,hrest⟩ := hc
      obtain ⟨rfl,rfl⟩ := ih hrest.symm
      exact ⟨rfl,rfl⟩

/-- A quoted text at the front of another text shows where it ends and what was quoted. -/
theorem encode_append_inj (h : encode s ++ r = encode t ++ r') : s = t ∧ r = r' := by
  simp only [encode,List.cons_append,List.append_assoc,List.nil_append,List.cons.injEq] at h
  obtain ⟨hm,h⟩ := h
  rw [← hm] at h
  exact flatMap_escape_append_inj (mark_eq s) h

/-- Characters that break lines never stand between quotes as they are. -/
theorem not_mem_escape (q : Char) {b : Char} (hb : b = '\n' ∨ b = '\r') (hq : b ≠ q) (c : Char) :
    b ∉ escape q c := by
  have hd : ∀ w n, b ∉ padded 16 w n := by
    intro w n h
    rcases List.mem_append.mp h with h | h
    · have hz := List.eq_of_mem_replicate h
      rcases hb with rfl | rfl <;> simp at hz
    · obtain ⟨d,_,hd⟩ := exists_digitChar_of_mem_toDigits (by decide) h
      rcases hb with rfl | rfl <;> simp at hd
  have hbs : b ≠ '\\' ∧ b ≠ 't' ∧ b ≠ 'n' ∧ b ≠ 'r' ∧ b ≠ 'x' ∧ b ≠ 'u' ∧ b ≠ 'U' := by
    rcases hb with rfl | rfl <;> decide
  unfold escape
  split_ifs <;> grind

theorem not_mem_encode {b : Char} (hb : b = '\n' ∨ b = '\r') (s : List Char) : b ∉ encode s := by
  have hm : b ≠ mark s := by
    rcases mark_eq s with h | h <;> rcases hb with rfl | rfl <;> (rw [h]; decide)
  simp [encode,hm,not_mem_escape (mark s) hb hm]

end Quoted

@[simp] theorem toList_quoted (s : String) : (quoted s).toList = Quoted.encode s.toList := by
  simp [quoted]

end ScriptEval
