import Mathlib.Data.Int.ModEq
import PastaOS.Lib.Positional
import PastaOS.Scanf.Strto

/-!
# The numbers that the parsers read

What `simple_strtoul` and its three relatives read off any string, in any base: `parsedValue` and
`parsedRest` say it in the terms of positional notation, and `strto_numeral` that all four do it.
The base comes first, and the prefix that gives it away, if it is not given; then the longest run of
digits below the base.  The widths of the results only come in at the end, when the value is cut
off.
-/

set_option autoImplicit false

namespace PastaOS

open Positional

/-! ## What is read -/

/-- The number a hexadecimal digit of either case stands for. -/
def hexValue (c : Byte) : Option ℕ :=
  if 48 ≤ c.toNat ∧ c.toNat ≤ 57 then some (c.toNat - 48)
  else if 65 ≤ c.toNat ∧ c.toNat ≤ 70 then some (c.toNat - 55)
  else if 97 ≤ c.toNat ∧ c.toNat ≤ 102 then some (c.toNat - 87)
  else none

/-- The base of the number that a string begins with, and the string behind the prefix that gives it
away. -/
def parsedBase (base : ℕ) (s : List Byte) : ℕ × List Byte :=
  if base ≠ 0 then (base, s)
  else if chrs ['0', 'x'] <+: s ∧ ((s.drop 2).head?.bind hexValue).isSome = true then (16, s.drop 2)
  else if chrs ['0'] <+: s then (8, s.drop 1)
  else (10, s)

/-- The value of the number that a string begins with. -/
def parsedValue (base : ℕ) (s : List Byte) : ℕ :=
  numeral hexValue (parsedBase base s).1 (numeralRun hexValue (parsedBase base s).1
    (parsedBase base s).2)

/-- What follows the number. -/
def parsedRest (base : ℕ) (s : List Byte) : List Byte :=
  numeralRest hexValue (parsedBase base s).1 (parsedBase base s).2

/-- The value of the number that a string begins with, possibly with a sign. -/
def signedValue (base : ℕ) (s : List Byte) : Int :=
  if chrs ['-'] <+: s then -parsedValue base (s.drop 1) else parsedValue base s

/-- What follows the signed number. -/
def signedRest (base : ℕ) (s : List Byte) : List Byte :=
  if chrs ['-'] <+: s then parsedRest base (s.drop 1) else parsedRest base s

/-! ## Digits -/

theorem isxdigit_iff (c : Byte) : isxdigit c = (hexValue c).isSome := by
  revert c
  decide +kernel

theorem hexValue_lt {c : Byte} {d : ℕ} : hexValue c = some d → d < 16 := by
  unfold hexValue
  split_ifs <;> simp <;> omega

/-- The parser takes every hexadecimal digit for the number it stands for. -/
def ReadsHex {w : ℕ} (value : Byte → BitVec w) : Prop :=
  ∀ c d, hexValue c = some d → value c = BitVec.ofNat w d

theorem strtoulValue_hex : ReadsHex strtoulValue := by
  have h : ∀ c, (hexValue c).all fun d ↦ decide (strtoulValue c = BitVec.ofNat 32 d) := by
    decide +kernel
  intro c d hd
  simpa [hd] using h c

theorem strtoullValue_hex : ReadsHex strtoullValue := by
  have h : ∀ c, (hexValue c).all fun d ↦ decide (strtoullValue c = BitVec.ofNat 64 d) := by
    decide +kernel
  intro c d hd
  simpa [hd] using h c

/-! ## The parsers -/

section Parsers

variable {w : ℕ} {value : Byte → BitVec w}

/-- The condition of the loop holds of the digits below the base. -/
theorem readsHex_iff (hv : ReadsHex value) (hw : 16 ≤ 2 ^ w) (base : BitVec w) (c : Byte) :
    (isxdigit c = true ∧ value c < base) ↔ isDigitBelow hexValue base.toNat c = true := by
  rw [isxdigit_iff, isDigitBelow_iff, Option.isSome_iff_exists]
  constructor
  · rintro ⟨⟨d, hd⟩, hlt⟩
    refine ⟨d, hd, ?_⟩
    rwa [hv c d hd, BitVec.lt_def, BitVec.toNat_ofNat,
      Nat.mod_eq_of_lt ((hexValue_lt hd).trans_le hw)] at hlt
  · rintro ⟨d, hd, hlt⟩
    refine ⟨⟨d, hd⟩, ?_⟩
    rwa [hv c d hd, BitVec.lt_def, BitVec.toNat_ofNat,
      Nat.mod_eq_of_lt ((hexValue_lt hd).trans_le hw)]

/-- **The loop reads a run of digits**, behind digits whose value is `n`. -/
theorem strtoLoop_numeral (hv : ReadsHex value) (hw : 16 ≤ 2 ^ w) (base : BitVec w) (n : ℕ)
    (t : List Byte) : strtoLoop value base (BitVec.ofNat w n) (cstr t)
      = some (BitVec.ofNat w (numeralFrom hexValue base.toNat n (numeralRun hexValue base.toNat t)),
          cstr (numeralRest hexValue base.toNat t)) := by
  induction t generalizing n with
  | nil => exact if_neg fun h ↦ absurd h.1 (by decide)
  | cons c t ih =>
    rw [cstr, List.cons_append, strtoLoop, numeralRun, numeralRest]
    by_cases hc : isDigitBelow hexValue base.toNat c = true
    · obtain ⟨d, hd, -⟩ := isDigitBelow_iff.mp hc
      have hstep : BitVec.ofNat w n * base + value c
          = BitVec.ofNat w (n * base.toNat + (hexValue c).getD 0) := by
        rw [hv c d hd, hd, Option.getD_some, BitVec.ofNat_add, BitVec.ofNat_mul, BitVec.ofNat_toNat,
          BitVec.setWidth_eq]
      rw [if_pos ((readsHex_iff hv hw base c).mpr hc), hstep, List.takeWhile_cons_of_pos hc,
        List.dropWhile_cons_of_pos hc, numeralFrom_cons]
      exact ih _
    · rw [if_neg (mt (readsHex_iff hv hw base c).mp hc), List.takeWhile_cons_of_neg hc,
        List.dropWhile_cons_of_neg hc]
      rfl

/-- **`if (!base)`** finds the base. -/
theorem detectBase_cstr (base : Word) (s : List Byte) : detectBase base (cstr s)
    = some (BitVec.ofNat 32 (parsedBase base.toNat s).1, cstr (parsedBase base.toNat s).2) := by
  by_cases hbase : base ≠ 0
  · have hnat : base.toNat ≠ 0 := fun h ↦ hbase (BitVec.eq_of_toNat_eq h)
    rw [parsedBase, if_pos hnat, BitVec.ofNat_toNat, BitVec.setWidth_eq]
    exact if_pos hbase
  obtain rfl : base = 0 := not_not.mp hbase
  have hprefix (c x : Byte) (t : List Byte) :
      chrs ['0', 'x'] <+: c :: x :: t ↔ c = chr '0' ∧ x = chr 'x' := by
    simp [chrs, List.cons_prefix_cons, eq_comm]
  have hzero (c : Byte) (t : List Byte) : chrs ['0'] <+: c :: t ↔ c = chr '0' := by
    simp [chrs, List.cons_prefix_cons, eq_comm]
  have hshort (c : Byte) : ¬ chrs ['0', 'x'] <+: [c] := fun h ↦ absurd h.length_le (by simp [chrs])
  rcases s with _ | ⟨c, t⟩
  · rfl
  by_cases hc : c = chr '0'
  swap
  · cases t <;> simp [detectBase, parsedBase, cstr, hc, hzero, hprefix, hshort]
  subst hc
  rcases t with _ | ⟨x, t⟩
  · rfl
  by_cases hx : x = chr 'x'
  · subst hx
    cases t with
    | nil => rfl
    | cons d t =>
      simp only [detectBase, parsedBase, cstr, List.cons_append, hprefix, hzero, isxdigit_iff]
      cases hd : hexValue d <;> simp [hd]
  · cases t <;> simp [detectBase, parsedBase, cstr, hx, hzero, hprefix]

theorem parsedBase_lt (base : Word) (s : List Byte) : (parsedBase base.toNat s).1 < 2 ^ 32 := by
  have := base.isLt
  unfold parsedBase
  split_ifs <;> simp only <;> omega

/-- **The unsigned parsers read a number**, cut off at the width of their result. -/
theorem strto_numeral (hv : ReadsHex value) (hw : 32 ≤ w) (base : Word) (s : List Byte) :
    strto value base (cstr s)
      = some (BitVec.ofNat w (parsedValue base.toNat s), cstr (parsedRest base.toNat s)) := by
  have hpow : 2 ^ 32 ≤ 2 ^ w := Nat.pow_le_pow_right (by decide) hw
  have hlt := parsedBase_lt base s
  have hnat : ((BitVec.ofNat 32 (parsedBase base.toNat s).1).setWidth w).toNat
      = (parsedBase base.toNat s).1 := by
    rw [BitVec.toNat_setWidth, BitVec.toNat_ofNat, Nat.mod_eq_of_lt hlt,
      Nat.mod_eq_of_lt (hlt.trans_le hpow)]
  have hloop := strtoLoop_numeral hv (by omega)
    ((BitVec.ofNat 32 (parsedBase base.toNat s).1).setWidth w) 0 (parsedBase base.toNat s).2
  rw [hnat] at hloop
  rw [strto, detectBase_cstr]
  exact hloop

/-- **The signed parsers** read a number that may have a sign. -/
theorem strtoSigned_numeral (hv : ReadsHex value) (hw : 32 ≤ w) (base : Word) (s : List Byte) :
    strtoSigned value base (cstr s)
      = some ((BitVec.ofInt w (signedValue base.toNat s)).toInt,
          cstr (signedRest base.toNat s)) := by
  have hminus (c : Byte) (t : List Byte) : chrs ['-'] <+: c :: t ↔ c = chr '-' := by
    simp [chrs, List.cons_prefix_cons, eq_comm]
  rw [signedValue, signedRest]
  cases s with
  | nil =>
    have hread := strto_numeral hv hw base []
    rw [cstr, List.nil_append] at hread
    rw [cstr, List.nil_append, strtoSigned, if_neg (by decide), hread]
    simp [chrs]
  | cons c t =>
    rw [cstr, List.cons_append, strtoSigned]
    simp only [hminus]
    by_cases hc : c = chr '-'
    · have hread := strto_numeral hv hw base t
      rw [cstr] at hread
      simp only [if_pos hc, hread, Option.map_some, List.drop_one, List.tail_cons]
      rw [BitVec.ofInt_neg, BitVec.ofInt_natCast]
    · have hread := strto_numeral hv hw base (c :: t)
      rw [cstr, List.cons_append] at hread
      simp only [if_neg hc, hread, Option.map_some, BitVec.ofInt_natCast]

end Parsers

/-- **The grammar of the parsers.**  In every base, all four read the number that the string begins
with, the signed ones with a `-` in front of it if there is one; they leave the same end of the
string, and their results are the value of the number modulo `2 ^ 32` and `2 ^ 64`. -/
theorem strto_grammar (base : Word) (s : List Byte) :
    simpleStrtoul base (cstr s)
        = some (BitVec.ofNat 32 (parsedValue base.toNat s), cstr (parsedRest base.toNat s)) ∧
      simpleStrtoull base (cstr s)
        = some (BitVec.ofNat 64 (parsedValue base.toNat s), cstr (parsedRest base.toNat s)) ∧
      simpleStrtol base (cstr s)
        = some ((BitVec.ofInt 32 (signedValue base.toNat s)).toInt,
            cstr (signedRest base.toNat s)) ∧
      simpleStrtoll base (cstr s)
        = some ((BitVec.ofInt 64 (signedValue base.toNat s)).toInt,
            cstr (signedRest base.toNat s)) ∧
      (BitVec.ofNat 32 (parsedValue base.toNat s)).toNat
        ≡ (BitVec.ofNat 64 (parsedValue base.toNat s)).toNat [MOD 2 ^ 32] ∧
      (BitVec.ofInt 32 (signedValue base.toNat s)).toInt
        ≡ (BitVec.ofInt 64 (signedValue base.toNat s)).toInt [ZMOD 2 ^ 32] := by
  refine ⟨strto_numeral strtoulValue_hex le_rfl base s, strto_numeral strtoullValue_hex (by decide)
    base s, strtoSigned_numeral strtoulValue_hex le_rfl base s,
    strtoSigned_numeral strtoullValue_hex (by decide) base s, ?_, ?_⟩
  · rw [BitVec.toNat_ofNat, BitVec.toNat_ofNat]
    unfold Nat.ModEq
    omega
  · rw [BitVec.toInt_ofInt, BitVec.toInt_ofInt, Int.bmod_def, Int.bmod_def]
    unfold Int.ModEq
    omega

end PastaOS
