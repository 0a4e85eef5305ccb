import ProviderGraph.Settings.Basic

/-!
# Decimal digits

What a run of decimal digits denotes, as far as it fits 64 bits, the digits that a number is written
with, and the depths that settings can have.
-/

namespace ProviderGraph

open Settings (greatestDepth)

/-- The characters are decimal digits of a number that fits 64 bits. -/
structure Denotes (digits : List Char) (n : Nat) : Prop where
  nonempty : digits ≠ []
  decimal : ∀ c ∈ digits, c.isDigit = true
  value : Nat.ofDigitChars 10 digits 0 = n
  fits : n ≤ greatestDepth

theorem toNat_of_isDigit {c : Char} (h : c.isDigit = true) : 48 ≤ c.toNat ∧ c.toNat ≤ 57 := by
  simpa [Char.isDigit, UInt32.le_iff_toNat_le] using h

/-- Further digits never make a number smaller. -/
theorem le_ofDigitChars (n : Nat) (cs : List Char) : n ≤ Nat.ofDigitChars 10 cs n := by
  rw [Nat.ofDigitChars_eq_ofDigitChars_zero]
  have hpos : 0 < 10 ^ cs.length := Nat.pow_pos (by decide)
  calc n ≤ 10 ^ cs.length * n := Nat.le_mul_of_pos_left n hpos
    _ ≤ 10 ^ cs.length * n + Nat.ofDigitChars 10 cs 0 := Nat.le_add_right _ _

/-- A number that fits is denoted by the digits it is written with. -/
theorem denotes_toDigits {n : Nat} (hn : n ≤ greatestDepth) : Denotes (Nat.toDigits 10 n) n where
  nonempty := Nat.toDigits_ne_nil
  decimal _ := Nat.isDigit_of_mem_toDigits (by decide) (by decide)
  value := Nat.ofDigitChars_ten_toDigits
  fits := hn

/-- Only zero is written with a zero in front. -/
theorem head?_toDigits_ne_zero {n : Nat} (hn : n ≠ 0) : (Nat.toDigits 10 n).head? ≠ some '0' := by
  induction n using Nat.strongRecOn with
  | ind n ih =>
    by_cases hlt : n < 10
    · rw [Nat.toDigits_of_lt_base hlt]
      intro hzero
      have hdigit : n.digitChar = '0' := Option.some.inj hzero
      have hvalue := Nat.toNat_digitChar_sub_48_of_lt_ten hlt
      rw [hdigit] at hvalue
      exact hn hvalue.symm
    · have hge : 10 ≤ n := Nat.le_of_not_lt hlt
      obtain ⟨d, ds, hds⟩ :=
        List.exists_cons_of_ne_nil (Nat.toDigits_ne_nil (n := n / 10) (b := 10))
      have hhead := ih (n / 10) (by omega) (by omega)
      rw [Nat.toDigits_of_base_le (by decide) hge, hds]
      rwa [hds] at hhead

/-! ### Depths -/

namespace Settings

/-- A depth gives settings where it is positive. -/
theorem ofDepth_eq_ok_iff {n k : Nat} : ofDepth n = .ok ⟨k⟩ ↔ n = k ∧ 1 ≤ k := by
  cases n with
  | zero => simp; omega
  | succ n => simp; omega

/-- A depth that gives no settings is refused as such. -/
theorem ofDepth_cases (n : Nat) :
    (∃ s, ofDepth n = .ok s) ∨ ∃ reason, ofDepth n = .error (.invalidSettings reason) := by
  cases n with
  | zero => exact .inr ⟨_, ofDepth_zero⟩
  | succ n => exact .inl ⟨_, ofDepth_succ n⟩

end Settings

end ProviderGraph
