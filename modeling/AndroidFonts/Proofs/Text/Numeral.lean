/-
# `AndroidFonts.Proofs.Text.Numeral` — which texts denote a natural number

A number is written with digits, at least one, and may have a plus in front (`DecimalText`); zeros in
front count for nothing.  Reading accepts these texts and no others (`readNat?_eq_some_iff`), and gives
back the number that the digits were written for (`readNat?_toDigits`).
-/
import AndroidFonts.Text.Numeral
import Mathlib.Data.Nat.Digits.Defs

namespace AndroidFonts.Text

variable {s sign digits : List Char} {n : Nat}

/-- What a digit stands for. -/
def digitValue (c : Char) : Nat := c.toNat - '0'.toNat

/-- The texts for a number: digits to base ten, the last one for the ones, and an optional plus. -/
inductive DecimalText : List Char → Nat → Prop
  | mk {sign digits : List Char} : sign = [] ∨ sign = ['+'] → digits ≠ [] →
      (∀ c ∈ digits, c.isDigit = true) →
      DecimalText (sign ++ digits) (Nat.ofDigits 10 (digits.map digitValue).reverse)

theorem digitsValue_eq_ofDigits (digits : List Char) :
    digitsValue digits = Nat.ofDigits 10 (digits.map digitValue).reverse := by
  rw [Nat.ofDigits_eq_foldr, List.foldr_reverse, List.foldl_map, digitsValue]
  exact congrArg (List.foldl · 0 digits) (funext fun n => funext fun c => Nat.add_comm ..)

theorem dropPlus_append (hsign : sign = [] ∨ sign = ['+']) (hdigits : ∀ c ∈ digits, c.isDigit = true) :
    dropPlus (sign ++ digits) = digits := by
  rcases hsign with rfl | rfl
  · unfold dropPlus
    rw [List.nil_append]
    split
    · have := hdigits '+' List.mem_cons_self
      nomatch this
    · rfl
  · rfl

theorem exists_sign (s : List Char) : ∃ sign, (sign = [] ∨ sign = ['+']) ∧ s = sign ++ dropPlus s := by
  unfold dropPlus
  split
  · exact ⟨['+'], .inr rfl, rfl⟩
  · exact ⟨[], .inl rfl, rfl⟩

/-- Digits are read as their value, with a plus in front or without. -/
theorem readNat?_of_digits (hsign : sign = [] ∨ sign = ['+']) (hne : digits ≠ [])
    (hdigits : ∀ c ∈ digits, c.isDigit = true) :
    readNat? (sign ++ digits) = some (digitsValue digits) := by
  have hcond : (decide (digits ≠ []) && digits.all Char.isDigit) = true := by
    rw [List.all_eq_true.2 hdigits, decide_eq_true hne]
    rfl
  unfold readNat?
  simp only [dropPlus_append hsign hdigits, hcond, if_true]

/-- Reading accepts the texts for a number and no others. -/
theorem readNat?_eq_some_iff : readNat? s = some n ↔ DecimalText s n := by
  constructor
  · intro h
    obtain ⟨sign, hsign, hs⟩ := exists_sign s
    simp only [readNat?] at h
    split at h
    · rename_i hcond
      rw [Bool.and_eq_true, decide_eq_true_eq, List.all_eq_true] at hcond
      obtain rfl := Option.some.inj h
      have htext := DecimalText.mk hsign hcond.1 hcond.2
      rwa [← hs, ← digitsValue_eq_ofDigits] at htext
    · nomatch h
  · rintro ⟨hsign, hne, hdigits⟩
    rw [readNat?_of_digits hsign hne hdigits, digitsValue_eq_ofDigits]

theorem readNat16?_eq_some_iff : readNat16? s = some n ↔ readNat? s = some n ∧ n < shortLimit := by
  unfold readNat16?
  rw [Option.filter_eq_some_iff, decide_eq_true_eq]

/-! ## Numbers as they are written -/

theorem digitsValue_toDigits (n : Nat) : digitsValue (Nat.toDigits 10 n) = n := by
  have hvalue := @Nat.ofDigitChars_ten_toDigits n
  rwa [Nat.ofDigitChars_eq_foldl] at hvalue

/-- The digits of a number are read as the number. -/
theorem readNat?_toDigits (n : Nat) : readNat? (Nat.toDigits 10 n) = some n := by
  have hdigits : ∀ c ∈ Nat.toDigits 10 n, c.isDigit = true := fun c hc =>
    Nat.isDigit_of_mem_toDigits (by decide) (by decide) hc
  have hread : readNat? ([] ++ Nat.toDigits 10 n) = some (digitsValue (Nat.toDigits 10 n)) :=
    readNat?_of_digits (.inl rfl) Nat.toDigits_ne_nil hdigits
  rwa [List.nil_append, digitsValue_toDigits] at hread

end AndroidFonts.Text
