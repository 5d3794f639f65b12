import PastaOS.Scanf.RoundTrip

/-!
# The alternate form

`number` gives the base of a number away by a prefix, and `simple_strtoull` with base 0 looks for
one.  They agree on `0` and `0x`.  But `number` takes the `x` from its table of digits, where
`%#llX` finds a large one, which `simple_strtoull` takes for the end of an octal zero:
`alternate_readsBack_iff`.
-/

set_option autoImplicit false

namespace PastaOS

/-! ## Detecting the base -/

theorem detectBase_octal {c : Byte} (hc : c ≠ chr 'x') (cp : List Byte) :
    detectBase 0 (chr '0' :: c :: cp) = some (8, c :: cp) := by
  simp [detectBase, hc]

theorem detectBase_hex {c : Byte} (hc : isxdigit c = true) (cp : List Byte) :
    detectBase 0 (chr '0' :: chr 'x' :: c :: cp) = some (16, c :: cp) := by
  simp [detectBase, hc]

section Detected

variable {w : ℕ} {value : Byte → BitVec w} {large : Bool}

/-- Once the base is known, the digits are read. -/
theorem strto_detected (hv : ReadsDigits value) {b : ℕ} (hb : 2 ≤ b) (hb' : b ≤ 16)
    (hw : b < 2 ^ w) (large : Bool) (n : ℕ) {cp : List Byte}
    (hdetect : detectBase 0 cp = some (BitVec.ofNat 32 b, (digitChars large b n).reverse ++ [0])) :
    strto value 0 cp = some (BitVec.ofNat w n, [0]) := by
  rw [strto, hdetect, Option.bind_eq_bind, Option.bind_some]
  simp only [(ofNat_base (w := w) hb hb').2]
  exact strtoLoop_digitChars hv hb hb' hw n (by decide) []

/-- `%#o` -/
theorem strto_octal (hv : ReadsDigits value) (hw : 8 < 2 ^ w) (n : ℕ) :
    strto value 0 (chr '0' :: ((digitChars large 8 n).reverse ++ [0]))
      = some (BitVec.ofNat w n, [0]) := by
  refine strto_detected (b := 8) hv (by decide) (by decide) hw large n ?_
  obtain ⟨c, cs, hcs, hx⟩ :=
    digitChars_reverse_cons hv (by decide : 2 ≤ 8) (by decide) large n
  have hc : c ≠ chr 'x' := by
    rintro rfl
    exact absurd hx (by decide)
  rw [hcs]
  exact detectBase_octal hc _

/-- `%#x` -/
theorem strto_hex (hv : ReadsDigits value) (hw : 16 < 2 ^ w) (n : ℕ) :
    strto value 0 (chr '0' :: chr 'x' :: ((digitChars large 16 n).reverse ++ [0]))
      = some (BitVec.ofNat w n, [0]) := by
  refine strto_detected (b := 16) hv (by decide) (by decide) hw large n ?_
  obtain ⟨c, cs, hcs, hx⟩ :=
    digitChars_reverse_cons hv (by decide : 2 ≤ 16) (by decide) large n
  rw [hcs]
  exact detectBase_hex hx _

/-- `%#X`: the prefix is an octal zero, and the `X` is not a digit. -/
theorem strto_large (cp : List Byte) :
    strto value 0 (chr '0' :: chr 'X' :: cp) = some (0, chr 'X' :: cp) := by
  have hstop : ¬ (isxdigit (chr 'X') = true ∧
      value (chr 'X') < (BitVec.ofNat 32 8).setWidth w) := fun h ↦ absurd h.1 (by decide)
  rw [strto, detectBase_octal (by decide), Option.bind_eq_bind, Option.bind_some]
  simp only [strtoLoop]
  exact if_neg hstop

end Detected

/-! ## The three conversions -/

/-- The text of a conversion with `#` and an unsigned argument. -/
theorem numberText_special {base : Int} (hb : 2 ≤ base) (large : Bool) (num : BitVec 64) :
    numberText num base (-1) (-1) { special := true, large := large }
      = prefixText { special := true, large := large } base
          ++ (digitChars large base.toNat num.toNat).reverse := by
  rw [numberText_narrow hb, signText, digitText, magnitude]
  simp

/-- `%#llX` is not read back. -/
theorem not_readsBack_large (v : BitVec 64) (rest : Args) :
    ¬ ReadsBack (chrs ['%', '#', 'l', 'l', 'X']) (words64 v ++ₛ rest) (simpleStrtoull 0) v := by
  have hparse : parse (cstr (chrs ['%', '#', 'l', 'l', 'X']))
      = [.directive ⟨{ special := true }, .absent, none, .L⟩ (chr 'X')] := by decide +kernel
  rintro ⟨text, args', htext, hscan, -⟩
  have hconv : integerConversion { special := true } (chr 'X')
      = some (16, { special := true, large := true }) := rfl
  have hprinted := untruncated_integer hparse hconv ⟨fun _ ↦ true, fun _ ↦ true⟩ (fun _ ↦ 0)
    (words64 v ++ₛ rest)
  have hsame := Option.some.inj ((htext _ _).symm.trans hprinted)
  simp only [Prod.mk.injEq, Paper.mk.injEq, and_true, true_and] at hsame
  obtain ⟨-, rfl⟩ := hsame
  rw [numberText_special (by decide), cstr, simpleStrtoull] at hscan
  have hlarge := hscan.symm.trans (strto_large _)
  simp at hlarge

/-- **The alternate form is self-describing** exactly if its prefix is not a large one. -/
theorem alternate_readsBack_iff (v : BitVec 64) (rest : Args) :
    ∀ c ∈ chrs ['o', 'x', 'X'],
      ReadsBack (chrs ['%', '#', 'l', 'l'] ++ [c]) (words64 v ++ₛ rest) (simpleStrtoull 0) v ↔
        c ≠ chr 'X' := by
  have hvalue : BitVec.ofNat 64 v.toNat = v := BitVec.ofNat_toNat 64 v ▸ BitVec.setWidth_eq v
  have ho : parse (cstr (chrs ['%', '#', 'l', 'l', 'o']))
      = [.directive ⟨{ special := true }, .absent, none, .L⟩ (chr 'o')] := by decide +kernel
  have hx : parse (cstr (chrs ['%', '#', 'l', 'l', 'x']))
      = [.directive ⟨{ special := true }, .absent, none, .L⟩ (chr 'x')] := by decide +kernel
  have hco : integerConversion { special := true } (chr 'o') = some (8, { special := true }) := rfl
  have hcx : integerConversion { special := true } (chr 'x') = some (16, { special := true }) := rfl
  intro c hc
  simp only [chrs, List.map_cons, List.map_nil, List.mem_cons, List.not_mem_nil, or_false] at hc
  rcases hc with rfl | rfl | rfl
  · refine iff_of_true (readsBack_conversion ho hco ?_) (by decide)
    rw [fetchNum_words64, numberText_special (by decide)]
    exact (strto_octal strtoullValue_digits (by decide) v.toNat).trans (by rw [hvalue])
  · refine iff_of_true (readsBack_conversion hx hcx ?_) (by decide)
    rw [fetchNum_words64, numberText_special (by decide)]
    exact (strto_hex strtoullValue_digits (by decide) v.toNat).trans (by rw [hvalue])
  · exact iff_of_false (not_readsBack_large v rest) (not_not.mpr rfl)

/-- The theorem for the text `"0xff"`. -/
theorem alternate_readsBack_ff : ReadsBack (chrs ['%', '#', 'l', 'l'] ++ [chr 'x'])
    (words64 255 ++ₛ Stream'.const 0) (simpleStrtoull 0) 255 :=
  (alternate_readsBack_iff 255 (Stream'.const 0) (chr 'x') (by decide)).mpr (by decide)

/-- **`%#llX` prints `0XFF`**, of which `simple_strtoull` reads the zero. -/
theorem alternate_large_stops :
    numberText 255 16 (-1) (-1) { special := true, large := true } = chrs ['0', 'X', 'F', 'F'] ∧
      simpleStrtoull 0 (cstr (chrs ['0', 'X', 'F', 'F'])) = some (0, cstr (chrs ['X', 'F', 'F'])) ∧
      ¬ ReadsBack (chrs ['%', '#', 'l', 'l', 'X']) (words64 255 ++ₛ Stream'.const 0)
        (simpleStrtoull 0) 255 :=
  ⟨by decide +kernel, by decide +kernel, not_readsBack_large 255 _⟩

end PastaOS
