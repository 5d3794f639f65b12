import Mathlib.Data.BitVec
import Mathlib.Data.Nat.Digits.Defs
import PastaOS.Lib.Scanner
import PastaOS.Printf.Text

/-!
# `simple_strtoul` and its relatives (`lib/vsprintf.c`)

A string is the list of bytes from the pointer up to and including the NUL, as it is for the
formatter; a function returns the value and the string from `*endp` on, and fails if it reads past
the end of the list.

`strto_digitChars`: on the digits of a number, in the alphabet and base `number` writes them in, the
parsers find the number, cut off at the width of their result.
-/

set_option autoImplicit false

namespace PastaOS

/-! ## Definitions -/

/-- `if (!base) { ... }`: the base, and the string behind the prefix that gives it away. -/
def detectBase (base : Word) (cp : List Byte) : Option (Word × List Byte) :=
  if base ≠ 0 then some (base, cp)
  else
    match cp with
    | [] => none
    | c :: rest =>
      if c = chr '0' then
        match rest with
        | [] => none
        | x :: rest' =>
          if x = chr 'x' then
            match rest' with
            | [] => none
            | d :: _ => if isxdigit d then some (16, rest') else some (8, rest)
          else some (8, rest)
      else some (10, cp)

section Loop

variable {w : ℕ} (value : Byte → BitVec w)

/-- `while (isxdigit(*cp) && (value = ...) < base) { result = result*base + value; cp++; }` -/
def strtoLoop (base result : BitVec w) : Scanner Byte (BitVec w)
  | [] => none
  | c :: cp =>
    if isxdigit c ∧ value c < base then strtoLoop base (result * base + value c) cp
    else some (result, c :: cp)

/-- The body of `simple_strtoul` and `simple_strtoull`, for a result of `w` bits. -/
def strto (base : Word) (cp : List Byte) : Option (BitVec w × List Byte) := do
  let (base, cp) ← detectBase base cp
  strtoLoop value (base.setWidth w) 0 cp

/-- The body of `simple_strtol` and `simple_strtoll`. -/
def strtoSigned (base : Word) : List Byte → Option (Int × List Byte)
  | [] => none
  | c :: cp =>
    if c = chr '-' then (strto value base cp).map fun x ↦ ((-x.1).toInt, x.2)
    else (strto value base (c :: cp)).map fun x ↦ (x.1.toInt, x.2)

end Loop

/-- `isdigit(*cp) ? *cp-'0' : toupper(*cp)-'A'+10` -/
def strtoulValue (c : Byte) : Word :=
  if isdigit c then BitVec.ofInt 32 (c.toInt - 48)
  else BitVec.ofInt 32 ((toupper c).toNat - 65 + 10)

/-- `isdigit(*cp) ? *cp-'0' : (islower(*cp) ? toupper(*cp) : *cp)-'A'+10` -/
def strtoullValue (c : Byte) : BitVec 64 :=
  if isdigit c then BitVec.ofInt 64 (c.toInt - 48)
  else BitVec.ofInt 64 ((if islower c then ((toupper c).toNat : Int) else c.toInt) - 65 + 10)

/-- `simple_strtoul` -/
def simpleStrtoul (base : Word) (cp : List Byte) : Option (Word × List Byte) :=
  strto strtoulValue base cp

/-- `simple_strtol` -/
def simpleStrtol (base : Word) (cp : List Byte) : Option (Int × List Byte) :=
  strtoSigned strtoulValue base cp

/-- `simple_strtoull` -/
def simpleStrtoull (base : Word) (cp : List Byte) : Option (BitVec 64 × List Byte) :=
  strto strtoullValue base cp

/-- `simple_strtoll` -/
def simpleStrtoll (base : Word) (cp : List Byte) : Option (Int × List Byte) :=
  strtoSigned strtoullValue base cp

/-! ## Digits -/

/-- The parser takes the characters `number` writes for the digits below 16 for these digits. -/
def ReadsDigits {w : ℕ} (value : Byte → BitVec w) : Prop :=
  ∀ large, ∀ d < 16, isxdigit (digitChar large d) = true ∧
    value (digitChar large d) = BitVec.ofNat w d

theorem strtoulValue_digits : ReadsDigits strtoulValue := by
  unfold ReadsDigits
  decide +kernel

theorem strtoullValue_digits : ReadsDigits strtoullValue := by
  unfold ReadsDigits
  decide +kernel

section Digits

variable {w : ℕ} {value : Byte → BitVec w} {large : Bool} {b : ℕ}

/-- **The loop undoes the digits of a number**, from the first digit to the last. -/
theorem strtoLoop_digits (hv : ReadsDigits value) (hb : b ≤ 16) (hw : b < 2 ^ w) {ds : List ℕ}
    (hds : ∀ d ∈ ds, d < b) (cp : List Byte) :
    strtoLoop value (BitVec.ofNat w b) 0 ((ds.map (digitChar large)).reverse ++ cp)
      = strtoLoop value (BitVec.ofNat w b) (BitVec.ofNat w (Nat.ofDigits b ds)) cp := by
  induction ds generalizing cp with
  | nil => rfl
  | cons d ds ih =>
    have hd : d < b := hds d List.mem_cons_self
    obtain ⟨hx, hval⟩ := hv large d (hd.trans_le hb)
    have hlt : value (digitChar large d) < BitVec.ofNat w b := by
      rw [hval, BitVec.lt_def, BitVec.toNat_ofNat, BitVec.toNat_ofNat,
        Nat.mod_eq_of_lt (hd.trans hw), Nat.mod_eq_of_lt hw]
      exact hd
    have hnext : BitVec.ofNat w (Nat.ofDigits b ds) * BitVec.ofNat w b + BitVec.ofNat w d
        = BitVec.ofNat w (Nat.ofDigits b (d :: ds)) := by
      rw [← BitVec.ofNat_mul, ← BitVec.ofNat_add, Nat.ofDigits_cons, Nat.add_comm, Nat.mul_comm]
    rw [List.map_cons, List.reverse_cons, List.append_assoc, List.singleton_append,
      ih (fun d hd ↦ hds d (List.mem_cons_of_mem _ hd)), strtoLoop, if_pos ⟨hx, hlt⟩, hval, hnext]

/-- `number` writes the digits `Nat.digits` finds; zero is written as one. -/
theorem digitChars_eq (hb : 2 ≤ b) (large : Bool) (n : ℕ) : ∃ ds : List ℕ, ds ≠ [] ∧
    (∀ d ∈ ds, d < b) ∧ Nat.ofDigits b ds = n ∧
      digitChars large b n = ds.map (digitChar large) := by
  by_cases hn : n = 0
  · refine ⟨[0], List.cons_ne_nil _ _, ?_, ?_, ?_⟩
    · intro d hd
      rw [List.mem_singleton.mp hd]
      omega
    · rw [Nat.ofDigits_singleton, hn]
    · rw [digitChars, if_pos hn]
      cases large <;> rfl
  · refine ⟨Nat.digits b n, Nat.digits_ne_nil_iff_ne_zero.mpr hn,
      fun d hd ↦ Nat.digits_lt_base (by omega) hd, Nat.ofDigits_digits b n, ?_⟩
    rw [digitChars, if_neg hn]

/-- A number is written with one digit at least. -/
theorem digitChars_reverse_cons (hv : ReadsDigits value) (hb : 2 ≤ b) (hb' : b ≤ 16) (large : Bool)
    (n : ℕ) :
    ∃ c cs, (digitChars large b n).reverse = c :: cs ∧ isxdigit c = true := by
  obtain ⟨ds, hne, hds, -, hchars⟩ := digitChars_eq hb large n
  have hcons : (digitChars large b n).reverse ≠ [] := by
    rw [hchars, ← List.map_reverse]
    exact fun h ↦ hne (List.reverse_eq_nil_iff.mp (List.map_eq_nil_iff.mp h))
  obtain ⟨c, cs, hcs⟩ := List.exists_cons_of_ne_nil hcons
  have hmem : c ∈ digitChars large b n := by
    rw [← List.mem_reverse, hcs]
    exact List.mem_cons_self
  rw [hchars] at hmem
  obtain ⟨d, hd, rfl⟩ := List.mem_map.mp hmem
  exact ⟨_, cs, hcs, (hv large d ((hds d hd).trans_le hb')).1⟩

/-- A base that is given is not detected. -/
theorem strto_base {base : Word} (hbase : base ≠ 0) (cp : List Byte) :
    strto value base cp = strtoLoop value (base.setWidth w) 0 cp := by
  have hdetect : detectBase base cp = some (base, cp) := if_pos hbase
  rw [strto, hdetect]
  rfl

/-- The loop undoes the digits of a number, and stops at what is not a digit. -/
theorem strtoLoop_digitChars (hv : ReadsDigits value) (hb : 2 ≤ b) (hb' : b ≤ 16) (hw : b < 2 ^ w)
    (n : ℕ) {c : Byte} (hc : isxdigit c = false) (cp : List Byte) :
    strtoLoop value (BitVec.ofNat w b) 0 ((digitChars large b n).reverse ++ c :: cp)
      = some (BitVec.ofNat w n, c :: cp) := by
  obtain ⟨ds, -, hds, hn, hchars⟩ := digitChars_eq hb large n
  have hstop : ¬ (isxdigit c = true ∧ value c < BitVec.ofNat w b) := by
    rintro ⟨hx, -⟩
    exact Bool.false_ne_true (hc.symm.trans hx)
  rw [hchars, strtoLoop_digits hv hb' hw hds, hn, strtoLoop, if_neg hstop]

/-- A base of two or more is given, whatever the width of the result. -/
theorem ofNat_base (hb : 2 ≤ b) (hb' : b ≤ 16) : BitVec.ofNat 32 b ≠ 0 ∧
    (BitVec.ofNat 32 b).setWidth w = BitVec.ofNat w b := by
  have hnat : (BitVec.ofNat 32 b).toNat = b := by
    rw [BitVec.toNat_ofNat, Nat.mod_eq_of_lt (by omega)]
  refine ⟨?_, ?_⟩
  · intro h
    rw [h] at hnat
    simp at hnat
    omega
  · apply BitVec.eq_of_toNat_eq
    rw [BitVec.toNat_setWidth, hnat, BitVec.toNat_ofNat]

/-- **The parsers undo the digits of a number**, cutting it off at `w` bits, and stop at what is not
a digit. -/
theorem strto_digits (hv : ReadsDigits value) (hb : 2 ≤ b) (hb' : b ≤ 16) (hw : b < 2 ^ w) (n : ℕ)
    {c : Byte} (hc : isxdigit c = false) (cp : List Byte) :
    strto value (BitVec.ofNat 32 b) ((digitChars large b n).reverse ++ c :: cp)
      = some (BitVec.ofNat w n, c :: cp) := by
  obtain ⟨hbase, hcast⟩ := ofNat_base (w := w) hb hb'
  rw [strto_base hbase, hcast, strtoLoop_digitChars hv hb hb' hw n hc]

/-- The end of the string is not a digit. -/
theorem strto_digitChars (hv : ReadsDigits value) (hb : 2 ≤ b) (hb' : b ≤ 16) (hw : b < 2 ^ w)
    (n : ℕ) : strto value (BitVec.ofNat 32 b) ((digitChars large b n).reverse ++ [0])
      = some (BitVec.ofNat w n, [0]) :=
  strto_digits hv hb hb' hw n (by decide) []

/-- A sign is read as one. -/
theorem strtoSigned_neg (hv : ReadsDigits value) (hb : 2 ≤ b) (hb' : b ≤ 16) (hw : b < 2 ^ w)
    (n : ℕ) :
    strtoSigned value (BitVec.ofNat 32 b) (chr '-' :: ((digitChars large b n).reverse ++ [0]))
      = some ((-BitVec.ofNat w n).toInt, [0]) := by
  rw [strtoSigned, if_pos rfl, strto_digitChars hv hb hb' hw]
  rfl

/-- Digits are not mistaken for a sign. -/
theorem strtoSigned_pos (hv : ReadsDigits value) (hb : 2 ≤ b) (hb' : b ≤ 16) (hw : b < 2 ^ w)
    (n : ℕ) : strtoSigned value (BitVec.ofNat 32 b) ((digitChars large b n).reverse ++ [0])
      = some ((BitVec.ofNat w n).toInt, [0]) := by
  have hread : strto value (BitVec.ofNat 32 b) ((digitChars large b n).reverse ++ [0])
      = some (BitVec.ofNat w n, [0]) := strto_digitChars hv hb hb' hw n
  obtain ⟨c, cs, hcs, hx⟩ := digitChars_reverse_cons hv hb hb' large n
  have hminus : c ≠ chr '-' := by
    rintro rfl
    exact absurd hx (by decide)
  rw [hcs, List.cons_append] at hread ⊢
  rw [strtoSigned, if_neg hminus, hread]
  rfl

end Digits

end PastaOS
