import ScriptEval.Syntax
import ScriptEval.Proofs.Layouts
import ScriptEval.Proofs.Unquoting

/-! Literals in listings. The first character of a listed value shows of which kind it is, and within a kind
the text is read back. So a listed literal tells its value, up to what counts as the same value. -/
namespace ScriptEval

namespace Numeral

theorem exists_head_of_read? {text : String} {x : Bool × Decimal} (h : read? text = some x) :
    ∃ c cs, text.toList = c :: cs ∧ (c = '-' ∨ c.isDigit) := by
  unfold read? at h
  split at h
  · rename_i cs hcs
    exact ⟨'-',cs,hcs,.inl rfl⟩
  · cases ht : text.toList with
    | nil => simp [ht,unsigned?,digits] at h
    | cons c cs =>
      refine ⟨c,cs,rfl,.inr ?_⟩
      by_contra hc
      simp [ht,unsigned?,digits,hc] at h

end Numeral

theorem quoted_injective {s t : String} (h : quoted s = quoted t) : s = t := by
  have h : Quoted.encode s.toList ++ [] = Quoted.encode t.toList ++ [] := by
    rw [← toList_quoted,h,toList_quoted]
  exact String.toList_injective (Quoted.encode_append_inj h).1

namespace Value

inductive Front
  | nothing | yes | no | number | text

def front : Value → Front
  | nil => .nothing
  | bool true => .yes
  | bool false => .no
  | number _ => .number
  | text _ => .text

/-- Numbers begin with many characters, the others with one or two. -/
def Front.ofChar (c : Char) : Front :=
  if c = 'N' then nothing
  else if c = 'T' then yes
  else if c = 'F' then no
  else if c = Quoted.single ∨ c = Quoted.double then text
  else number

theorem Front.ofChar_of_isDigit {c : Char} (h : c.isDigit = true) : ofChar c = number := by
  have hd : ∀ b : Char, b.isDigit = false → c ≠ b := fun b hb hc => by simp [← hc,h] at hb
  simp [ofChar,hd 'N' rfl,hd 'T' rfl,hd 'F' rfl,hd Quoted.single rfl,hd Quoted.double rfl]

theorem front_number (x : Double) :
    ∃ c cs, (listLayout.write x).toList = c :: cs ∧ Front.ofChar c = .number := by
  by_cases hx : x.isFinite = true
  · obtain ⟨d,hd,_⟩ := Double.exists_read?_write Layout.legible_listLayout hx
    obtain ⟨c,cs,hcs,hc⟩ := Numeral.exists_head_of_read? hd
    refine ⟨c,cs,hcs,?_⟩
    rcases hc with rfl | hc
    · rfl
    · exact Front.ofChar_of_isDigit hc
  · rcases Layout.write_cases_of_not_isFinite listLayout (by simpa using hx) with ⟨_,hw⟩ | ⟨_,hw⟩
    · exact ⟨'n',['a','n'],by rw [hw]; rfl,rfl⟩
    · rw [hw,Layout.signed,String.toList_ofList]
      cases x.isNegative with
      | false => exact ⟨'i',['n','f'],rfl,rfl⟩
      | true => exact ⟨'-',['i','n','f'],rfl,rfl⟩

theorem front_listing (v : Value) : ∃ c cs, v.listing.toList = c :: cs ∧ Front.ofChar c = v.front := by
  cases v with
  | nil => exact ⟨'N',['o','n','e'],rfl,rfl⟩
  | bool b =>
    cases b with
    | false => exact ⟨'F',['a','l','s','e'],rfl,rfl⟩
    | true => exact ⟨'T',['r','u','e'],rfl,rfl⟩
  | number x => exact front_number x
  | text s =>
    refine ⟨_,_,toList_quoted s,?_⟩
    rcases Quoted.mark_eq s.toList with h | h <;> (rw [h]; rfl)

theorem front_eq_of_listing_eq {a b : Value} (h : a.listing = b.listing) : a.front = b.front := by
  obtain ⟨c,cs,ha,hca⟩ := front_listing a
  obtain ⟨d,ds,hb,hdb⟩ := front_listing b
  rw [h,hb,List.cons.injEq] at ha
  rw [← hca,← hdb,ha.1]

/-- Values are listed alike exactly when they are the same. -/
theorem listing_eq_iff_same {a b : Value} : a.listing = b.listing ↔ a.same b = true := by
  have hnumber {x y : Double} : (number x).listing = (number y).listing ↔ x.same y = true :=
    Layout.write_eq_iff_same Layout.legible_listLayout Layout.apart_listLayout
  constructor
  · intro h
    exact match a, b, front_eq_of_listing_eq h with
    | nil, nil, _ => rfl
    | bool true, bool true, _ => rfl
    | bool false, bool false, _ => rfl
    | number _, number _, _ => hnumber.mp h
    | text _, text _, _ => beq_iff_eq.mpr (quoted_injective h)
  · intro h
    cases a <;> cases b <;> simp only [same,Bool.false_eq_true] at h
    · rfl
    · rw [beq_iff_eq.mp h]
    · exact hnumber.mpr h
    · rw [beq_iff_eq.mp h]

theorem same_equivalence : Equivalence fun a b : Value => a.same b = true := by
  simp only [← listing_eq_iff_same]
  exact ⟨fun _ => rfl,Eq.symm,Eq.trans⟩

end Value

namespace Tree

theorem listing_literal_eq_iff {a b : Value} {s t : Option Token} :
    (literal a s).listing = (literal b t).listing ↔ a.same b = true := by
  rw [← Value.listing_eq_iff_same]
  refine ⟨fun h => ?_,fun h => by rw [listing,listing,h]⟩
  simpa [listing,← String.toList_inj] using h

/-- Two literals are listed alike exactly when their values are the same, whatever tokens were kept with
them. To be the same is an equivalence of values. A text is listed like itself and like nothing else, and
two numbers are listed alike if they have the same bits or are both no numbers at all, whichever signs and
payloads these have. -/
theorem listing_literal_eq_iff_same :
    (∀ (a b : Value) (s t : Option Token),
      (literal a s).listing = (literal b t).listing ↔ a.same b = true) ∧
    (Equivalence fun a b : Value => a.same b = true) ∧
    (∀ (x : String) (a : Value) (s t : Option Token),
      (literal (.text x) s).listing = (literal a t).listing ↔ a = .text x) ∧
    ∀ (x y : Double) (s t : Option Token),
      (literal (.number x) s).listing = (literal (.number y) t).listing ↔
        x.bits = y.bits ∨ (x.magnitude = .nan ∧ y.magnitude = .nan) := by
  refine ⟨fun a b s t => listing_literal_eq_iff,Value.same_equivalence,fun x a s t => ?_,fun x y s t => ?_⟩
  · rw [listing_literal_eq_iff]
    cases a with
    | text y => exact beq_iff_eq.trans ⟨fun h => by rw [h],fun h => (Value.text.inj h).symm⟩
    | nil | bool | number => simp [Value.same]
  · exact listing_literal_eq_iff.trans Double.same_iff_bits

/-- A text that looks like an escape, and the character that the escape is for. -/
example : (literal (.text "\\n") none).listing = "<lit '\\\\n'>" ∧
    (literal (.text "\n") none).listing = "<lit '\\n'>" := by decide +kernel

end Tree
end ScriptEval
