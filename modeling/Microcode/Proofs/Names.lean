import Microcode.Bank
import Microcode.Code.Operator

/-!
Names of variables and functions.

A name is a word of letters, digits and underscores.  Most names are a short stem and a number, so
they are short if the number is.
-/

namespace Microcode

/-- What a name may begin with. -/
def isNameStart (c : Char) : Bool := c.isAlpha || c = '_'

/-- What a name may go on with. -/
def isNamePart (c : Char) : Bool := isNameStart c || c.isDigit

theorem isNameStart_iff {c : Char} : isNameStart c = true ↔
    65 ≤ c.toNat ∧ c.toNat ≤ 90 ∨ 97 ≤ c.toNat ∧ c.toNat ≤ 122 ∨ c = '_' := by
  show (decide ('A'.val ≤ c.val ∧ c.val ≤ 'Z'.val) || (decide ('a'.val ≤ c.val) &&
    decide (c.val ≤ 'z'.val)) || decide (c = '_')) = true ↔ _
  rw [Bool.or_eq_true, Bool.or_eq_true, Bool.and_eq_true, decide_eq_true_eq, decide_eq_true_eq,
    decide_eq_true_eq, decide_eq_true_eq, or_assoc]
  exact Iff.rfl

def isName (s : String) : Bool :=
  match s.toList with
  | [] => false
  | c :: rest => isNameStart c && rest.all isNamePart

theorem cons_of_isName {s : String} (h : isName s = true) :
    ∃ c cs, s.toList = c :: cs ∧ isNameStart c = true ∧ cs.all isNamePart = true := by
  unfold isName at h
  cases hchars : s.toList with
  | nil =>
    rw [hchars] at h
    cases h
  | cons c cs =>
    rw [hchars] at h
    exact ⟨c, cs, rfl, (Bool.and_eq_true _ _).mp h⟩

theorem all_isNamePart {s : String} (h : isName s = true) : s.toList.all isNamePart = true := by
  obtain ⟨c, cs, hchars, hstart, hparts⟩ := cons_of_isName h
  rw [hchars, List.all_cons, hparts, isNamePart, hstart]
  rfl

theorem isName_append {s t : String} (hs : isName s = true) (ht : t.toList.all isNamePart = true) :
    isName (s ++ t) = true := by
  unfold isName at hs ⊢
  rw [String.toList_append]
  cases h : s.toList with
  | nil =>
    rw [h] at hs
    cases hs
  | cons c rest =>
    rw [h] at hs
    simp only [Bool.and_eq_true] at hs
    simp only [List.cons_append, List.all_append, hs.1, hs.2, ht, Bool.and_self]

theorem isNamePart_digits (n : Nat) : (toString n).toList.all isNamePart = true := by
  rw [List.all_eq_true]
  intro c hc
  rw [Nat.toString_eq_repr, Nat.toList_repr] at hc
  rw [isNamePart, Nat.isDigit_of_mem_toDigits (by decide) (by decide) hc, Bool.or_true]

theorem isName_numbered {stem : String} (h : isName stem = true) (n : Nat) :
    isName (stem ++ toString n) = true := isName_append h (isNamePart_digits n)

theorem length_digits {n : Nat} (h : n < 0x100000000) : (toString n).length ≤ 10 := by
  rw [Nat.toString_eq_repr, Nat.length_repr_le_iff (by decide)]
  omega

theorem length_numbered {stem : String} {n : Nat} (hstem : stem.length ≤ 8) (h : n < 0x100000000) :
    (stem ++ toString n).length ≤ 18 := by
  have := length_digits h
  rw [String.length_append]
  omega

theorem Bank.isName_name {bank : Bank} (h : bank.isRegister = true) : isName bank.name = true := by
  cases bank with
  | temporary | primaryAttribute | output | secondaryAttribute | internal => rfl
  | _ => cases h

theorem Bank.isRegister_of_isShadowed {bank : Bank} (h : bank.isShadowed = true) :
    bank.isRegister = true := by
  cases bank with
  | primaryAttribute | secondaryAttribute => rfl
  | _ => cases h

theorem Bank.length_name (bank : Bank) : bank.name.length ≤ 8 := by
  cases bank <;> decide

/-- A name that nobody outside the shader sees, and that is short. -/
def Variable.isInner (v : Variable) : Bool := v.storage = .hidden && v.name.length ≤ 30

theorem Variable.isInner_hidden {name : String} {shape : Shape} (h : name.length ≤ 30) :
    (Variable.mk name shape .hidden).isInner = true := by
  simp [isInner, h]

end Microcode
