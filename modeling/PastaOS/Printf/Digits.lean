import PastaOS.Printf.Number

/-!
# The digits that `number` leaves in `tmp`

`do_div` divides a 64-bit number in two steps: the upper word, and then its remainder with the lower
word in one `divl`.  Since a remainder is below the divisor, the quotient fits (`doDiv_fits`) and
the division is right (`doDiv_spec`).  Each round of the digit loop takes a bit at least off the
number, so that 64 of the 66 cells are enough for every base.
-/

set_option autoImplicit false

namespace PastaOS

variable {b : ℕ} {base : Int}

/-- Cell `i` holds the digit that stands for `b ^ i`. -/
theorem digitChars_getElem? (hb : 2 ≤ b) (hb' : b ≤ 36) (large : Bool) (n : ℕ) {i : ℕ}
    (hi : i < (digitChars large b n).length) :
    (digitChars large b n)[i]? = (digitsOf large)[n / b ^ i % b]? := by
  have hlt : n / b ^ i % b < 36 := (Nat.mod_lt _ (by omega)).trans_le hb'
  rw [digitsOf_getElem? large hlt]
  by_cases hn : n = 0
  · subst hn
    rw [digitChars, if_pos rfl] at hi ⊢
    have hi0 : i = 0 := by simpa using hi
    rw [hi0, Nat.zero_div, Nat.zero_mod]
    cases large <;> rfl
  · rw [digitChars, if_neg hn] at hi ⊢
    rw [List.length_map] at hi
    rw [List.getElem?_map, ← Nat.getD_digits n i hb, List.getD_eq_getElem?_getD,
      List.getElem?_eq_getElem hi, Option.map_some, Option.getD_some]

/-- **The digit loop of `number`.**  `do_div` divides every 64-bit number by every base, and the
quotient of its `divl` fits in 32 bits.  So the loop ends with no more than 64 digits in `tmp`,
which are those of the number in the base, the least significant one first. -/
theorem number_digits (hb : 2 ≤ base) (hb' : base ≤ 36) (large : Bool) :
    (∀ n : BitVec 64,
      ((doDivUpper n (BitVec.ofInt 32 base)).toNat * 2 ^ 32 + (doDivLow n).toNat) / base.toNat
        < 2 ^ 32 ∧
      ∃ q r, doDiv n (BitVec.ofInt 32 base) = some (q, r) ∧ q.toNat = n.toNat / base.toNat ∧
        r.toNat = n.toNat % base.toNat) ∧
    ∀ num : BitVec 64, ∃ tmp,
      numberDigits (digitsOf large) (BitVec.ofInt 32 base) num = some tmp ∧
      (num ≠ 0 → digitLoop (digitsOf large) (BitVec.ofInt 32 base) 64 num = some tmp) ∧
      tmp.length ≤ 64 ∧
      tmp = digitChars large base.toNat num.toNat ∧
      ∀ i < tmp.length, tmp[i]? = (digitsOf large)[num.toNat / base.toNat ^ i % base.toNat]? := by
  have hword := ofInt_base hb hb'
  have hne : BitVec.ofInt 32 base ≠ 0 := by
    intro h
    rw [h] at hword
    simp at hword
    omega
  have h2 : 2 ≤ base.toNat := by omega
  have h36 : base.toNat ≤ 36 := by omega
  refine ⟨?_, ?_⟩
  · intro n
    rw [← hword]
    exact ⟨doDiv_fits n hne, doDiv_spec n hne⟩
  · intro num
    refine ⟨digitChars large base.toNat num.toNat, ?_, ?_, digitChars_length_le h2 large num,
      rfl, ?_⟩
    · rw [numberDigits_eq (by omega) (by omega), hword]
    · intro hnum
      have hzero : num.toNat ≠ 0 := fun h ↦ hnum (BitVec.eq_of_toNat_eq h)
      rw [digitLoop_eq (by omega) (by omega) num.isLt, digitChars, if_neg hzero, hword]
    · intro i hi
      exact digitChars_getElem? h2 h36 large _ hi

/-- The theorem for the largest number in the smallest base. -/
theorem number_digits_binary : ∃ tmp,
    numberDigits (digitsOf false) 2 (BitVec.allOnes 64) = some tmp ∧ tmp.length ≤ 64 := by
  obtain ⟨-, hdigits⟩ := number_digits (by decide : (2 : Int) ≤ 2) (by decide) false
  obtain ⟨tmp, htmp, -, hlength, -⟩ := hdigits (BitVec.allOnes 64)
  exact ⟨tmp, htmp, hlength⟩

end PastaOS
