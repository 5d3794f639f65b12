import Mathlib.Data.Nat.Digits.Lemmas
import PastaOS.Printf.Text

/-!
# The layout of a number

`number` counts `size` down from the field width: by the sign, the prefix and the digits first, and
then by the padding that three loops print, of which one at most finds anything left.  As long as
that arithmetic stays in the range of `int` (`SizeInRange`), the text is the one that the flags
describe: `numberLayout`.
-/

set_option autoImplicit false

namespace PastaOS

/-! ## What the flags describe -/

/-- The sign that is printed. -/
def signText (type : Flags) (num : BitVec 64) : List Byte :=
  if type.sign then
    if num.toInt < 0 then [chr '-']
    else if type.plus then [chr '+']
    else if type.space then [chr ' ']
    else []
  else []

/-- The number to be printed: the absolute value under `SIGN`, the unsigned pattern otherwise. -/
def magnitude (type : Flags) (num : BitVec 64) : ℕ :=
  if type.sign then num.toInt.natAbs else num.toNat

/-- The prefix that is printed. -/
def prefixText (type : Flags) (base : Int) : List Byte :=
  if type.special ∧ base = 8 then [chr '0']
  else if type.special ∧ base = 16 then [chr '0', if type.large then chr 'X' else chr 'x']
  else []

/-- The digits, the first one first. -/
def digitText (type : Flags) (base : Int) (num : BitVec 64) : List Byte :=
  (digitChars type.large base.toNat (magnitude type num)).reverse

/-- The digits, filled up to the precision. -/
def preciseText (type : Flags) (base precision : Int) (num : BitVec 64) : List Byte :=
  List.replicate (precision - (digitText type base num).length).toNat (chr '0')
    ++ digitText type base num

/-- The width that is not taken by the sign, the prefix and the digits. -/
def numberFill (num : BitVec 64) (base size precision : Int) (type : Flags) : Int :=
  size - ((signText type num).length + (prefixText type base).length
    + max precision (digitText type base num).length)

/-- A number in its field. -/
def numberLayout (num : BitVec 64) (base size precision : Int) (type : Flags) : List Byte :=
  let fill := (numberFill num base size precision type).toNat
  let left := if type.left ∨ type.zeropad then [] else List.replicate fill (chr ' ')
  let zeros := if type.zeropad ∧ ¬ type.left then List.replicate fill (chr '0') else []
  let right := if type.left then List.replicate fill (chr ' ') else []
  left ++ signText type num ++ prefixText type base ++
    (zeros ++ preciseText type base precision num)
    ++ right

/-- The number of loops that count `size` down. -/
def sizeLoops (type : Flags) : ℕ := if type.left then 1 else if type.zeropad then 2 else 3

/-- Nothing that `number` computes of `size` and `precision` is out of the range of `int`: the least
of these numbers is what the last loop leaves in `size`. -/
structure SizeInRange (num : BitVec 64) (base size precision : Int) (type : Flags) : Prop where
  /-- `size` is an `int`. -/
  size_lt : size < 2 ^ 31
  /-- `precision` is an `int`. -/
  precision_lt : precision < 2 ^ 31
  /-- What the last loop leaves. -/
  least : -2 ^ 31 ≤ min (numberFill num base size precision type) 0 - sizeLoops type

/-! ## What the flags do -/

variable {num : BitVec 64} {base size precision : Int} {type : Flags}

theorem slt_zero (num : BitVec 64) : num.slt 0 = decide (num.toInt < 0) := by
  rw [BitVec.slt]
  rfl

theorem toNat_neg_natAbs (h : num.toInt < 0) : (-num).toNat = num.toInt.natAbs := by
  have hlt := num.isLt
  rw [BitVec.toNat_neg]
  rw [BitVec.toInt_eq_toNat_cond] at h ⊢
  split_ifs at h ⊢ <;> omega

theorem toNat_natAbs {w : ℕ} {num : BitVec w} (h : ¬ num.toInt < 0) :
    num.toNat = num.toInt.natAbs := by
  have hlt := num.isLt
  rw [BitVec.toInt_eq_toNat_cond] at h ⊢
  split_ifs at h ⊢ <;> omega

/-- The outcomes of `if (type & SIGN)`, whatever `size` is. -/
theorem numberSign_i32 (num : BitVec 64) (type : Flags) (size : Int) :
    ∃ sign num', numberSign type num (i32 size)
        = (sign, num', i32 (size - (signText type num).length)) ∧
      (if sign ≠ 0 then [sign] else []) = signText type num ∧ num'.toNat = magnitude type num := by
  have hstep (n : Int) : i32 (i32 n - 1) = i32 (n - 1) := i32_i32_sub n 1
  rw [numberSign, signText, magnitude, slt_zero]
  by_cases hsign : type.sign = true
  · simp only [if_pos hsign]
    by_cases hneg : num.toInt < 0
    · simp only [if_pos hneg, decide_eq_true hneg, if_true]
      exact ⟨_, _, by rw [hstep]; rfl, rfl, toNat_neg_natAbs hneg⟩
    · simp only [if_neg hneg, decide_eq_false hneg]
      have hnum := toNat_natAbs hneg
      by_cases hplus : type.plus = true
      · simp only [if_pos hplus]
        exact ⟨_, _, by rw [hstep]; rfl, rfl, hnum⟩
      · by_cases hspace : type.space = true
        · simp only [if_neg hplus, if_pos hspace]
          exact ⟨_, _, by rw [hstep]; rfl, rfl, hnum⟩
        · simp only [if_neg hplus, if_neg hspace]
          exact ⟨0, num, by simp, rfl, hnum⟩
  · simp only [if_neg hsign]
    exact ⟨0, num, by simp, rfl, rfl⟩

/-- The outcomes of the first `if (type & SPECIAL)`, whatever `size` is. -/
theorem numberSpecial_i32 (type : Flags) (base size : Int) :
    numberSpecial type base (i32 size) = i32 (size - (prefixText type base).length) := by
  rw [numberSpecial, prefixText]
  by_cases hspecial : type.special = true
  · by_cases h8 : base = 8
    · subst h8
      simp only [hspecial, and_self, if_true]
      exact i32_i32_sub size 1
    · by_cases h16 : base = 16
      · simp only [hspecial, h16, and_self, if_true]
        exact i32_i32_sub size 2
      · simp [hspecial, h8, h16]
  · simp [hspecial]

/-- `if (type & SIGN)`, where `size` stays an `int`. -/
theorem numberSign_eq (num : BitVec 64) (type : Flags)
    (hsize : -2 ^ 31 ≤ size - (signText type num).length) (hlt : size < 2 ^ 31) :
    ∃ sign num', numberSign type num size = (sign, num', size - (signText type num).length) ∧
      (if sign ≠ 0 then [sign] else []) = signText type num ∧ num'.toNat = magnitude type num := by
  have h := numberSign_i32 num type size
  rwa [i32_of_range (by omega) hlt, i32_of_range hsize (by omega)] at h

/-- The first `if (type & SPECIAL)`, where `size` stays an `int`. -/
theorem numberSpecial_eq (type : Flags)
    (hsize : -2 ^ 31 ≤ size - (prefixText type base).length)
    (hlt : size < 2 ^ 31) :
    numberSpecial type base size = size - (prefixText type base).length := by
  have h := numberSpecial_i32 type base size
  rwa [i32_of_range (by omega) hlt, i32_of_range hsize (by omega)] at h

theorem specialText_eq (type : Flags) (base : Int) :
    specialText type base = prefixText type base := by
  have hx : digitChar type.large 33 = if type.large then chr 'X' else chr 'x' := by
    cases type.large <;> rfl
  rw [specialText, prefixText, hx]
  by_cases hspecial : type.special = true
  · simp [hspecial]
  · simp [hspecial]

/-! ## The layout -/

/-- A number between its paddings, for what the three loops find in `size`. -/
def numberPadded (num : BitVec 64) (base precision : Int) (type : Flags)
    (size₀ size₁ size₂ : Int) : List Byte :=
  (if !type.zeropad && !type.left then List.replicate size₀.toNat (chr ' ') else [])
    ++ signText type num ++ prefixText type base
    ++ (if !type.left then List.replicate size₁.toNat (if type.zeropad then chr '0' else chr ' ')
        else [])
    ++ preciseText type base precision num ++ List.replicate size₂.toNat (chr ' ')

/-- What a loop of `number` leaves in `size`. -/
def sizeRest (p : Bool) (size : Int) : Int := if p then i32 (min size 0 - 1) else size

/-- **`number` prints a number between paddings**: what is left of the field is counted down by the
loops one after another. -/
theorem numberText_padded (num : BitVec 64) (base size precision : Int) (type : Flags) :
    numberText num base (i32 size) precision type
      = numberPadded num base precision type (i32 (numberFill num base size precision type))
          (sizeRest (!type.zeropad && !type.left)
            (i32 (numberFill num base size precision type)))
          (sizeRest (!type.left) (sizeRest (!type.zeropad && !type.left)
            (i32 (numberFill num base size precision type)))) := by
  obtain ⟨sign, num', hcall, hsign, hnum⟩ := numberSign_i32 num type size
  have hspecial : numberSpecial type base (i32 (size - (signText type num).length))
      = i32 (size - (signText type num).length - (prefixText type base).length) :=
    numberSpecial_i32 type base _
  have hdigits : digitChars type.large base.toNat (magnitude type num)
      = (digitText type base num).reverse := by rw [digitText, List.reverse_reverse]
  have hsize₀ : i32 (i32 (size - (signText type num).length - (prefixText type base).length)
      - max precision (digitText type base num).length)
        = i32 (numberFill num base size precision type) := by
    rw [i32_i32_sub, numberFill]
    congr 1
    omega
  have hprecise : (max precision (digitText type base num).length
      - (digitText type base num).length).toNat
        = (precision - (digitText type base num).length).toNat := by omega
  rw [numberText, numberPadded, preciseText]
  simp only [hcall, hspecial, specialText_eq, hsign, hnum, hdigits, List.length_reverse,
    List.reverse_reverse, hsize₀, hprecise]
  cases hleft : type.left
  · cases hzero : type.zeropad
    · simp [sizeRest]
    · simp [sizeRest, -List.replicate_append_replicate]
  · simp [sizeRest]

/-- Every number has a digit. -/
theorem digitText_length_pos (type : Flags) (base : Int) (num : BitVec 64) :
    0 < (digitText type base num).length := by
  rw [digitText, List.length_reverse, digitChars]
  split_ifs with h
  · simp
  · rw [List.length_map]
    exact List.length_pos_of_ne_nil (Nat.digits_ne_nil_iff_ne_zero.mpr h)

/-- **The paddings are those of the layout** as long as the last loop finds an `int` in `size`: what
it leaves there is not looked at. -/
theorem numberText_of_least (hsize : size ≤ 2 ^ 31)
    (hleast : -2 ^ 31 ≤ min (numberFill num base size precision type) 0 - (sizeLoops type - 1)) :
    numberText num base (i32 size) precision type
      = numberLayout num base size precision type := by
  have hdigits := digitText_length_pos type base num
  rw [numberText_padded, numberLayout]
  obtain ⟨fill, hfill⟩ : ∃ fill, numberFill num base size precision type = fill := ⟨_, rfl⟩
  rw [hfill] at hleast ⊢
  rw [numberFill] at hfill
  rw [sizeLoops] at hleast
  -- a loop behind the one that prints the padding finds nothing left
  have hrest {n : Int} (hn : -2 ^ 31 ≤ n - 1) (hn' : n ≤ 0) : i32 (n - 1) = n - 1 :=
    i32_of_range hn (by omega)
  by_cases hleft : type.left = true
  · simp only [hleft] at hleast
    have hsize₀ : i32 fill = fill := i32_of_range (by norm_num at hleast; omega) (by omega)
    simp [numberPadded, sizeRest, hleft, hsize₀]
  · rw [Bool.not_eq_true] at hleft
    by_cases hzero : type.zeropad = true
    · simp only [hleft, hzero] at hleast
      have hsize₀ : i32 fill = fill := i32_of_range (by norm_num at hleast; omega) (by omega)
      have hlast := hrest (n := min fill 0) (by norm_num at hleast; omega) (by omega)
      have hnone : (min fill 0 - 1).toNat = 0 := by omega
      simp [numberPadded, sizeRest, hleft, hzero, hsize₀, hlast, hnone,
        -List.replicate_append_replicate]
    · rw [Bool.not_eq_true] at hzero
      simp only [hleft, hzero] at hleast
      have hsize₀ : i32 fill = fill := i32_of_range (by norm_num at hleast; omega) (by omega)
      have hmiddle := hrest (n := min fill 0) (by norm_num at hleast; omega) (by omega)
      have hlast := hrest (n := min fill 0 - 1) (by norm_num at hleast; omega) (by omega)
      have hnone : (min fill 0 - 1).toNat = 0 := by omega
      have hnone' : (min fill 0 - 1 - 1).toNat = 0 := by omega
      simp [numberPadded, sizeRest, hleft, hzero, hsize₀, hmiddle, hlast, hnone, hnone']

/-- **`number` prints the layout.** -/
theorem numberText_eq (h : SizeInRange num base size precision type) :
    numberText num base size precision type = numberLayout num base size precision type := by
  obtain ⟨hsize, hprecision, hleast⟩ := h
  have hloops : 1 ≤ sizeLoops type := by rw [sizeLoops]; split_ifs <;> decide
  have hint : i32 size = size := by
    rw [numberFill] at hleast
    exact i32_of_range (by omega) hsize
  have htext : numberText num base (i32 size) precision type
      = numberLayout num base size precision type := numberText_of_least (by omega) (by omega)
  rwa [hint] at htext

/-- The length of the layout. -/
theorem numberLayout_length (num : BitVec 64) (base size precision : Int) (type : Flags) :
    ((numberLayout num base size precision type).length : Int)
      = max size ((signText type num).length + (prefixText type base).length
          + max precision (digitText type base num).length) := by
  have hlength : (numberLayout num base size precision type).length
      = (signText type num).length + (prefixText type base).length
        + (preciseText type base precision num).length
        + (numberFill num base size precision type).toNat := by
    rw [numberLayout]
    cases hleft : type.left
    · cases hzero : type.zeropad
      · simp
        omega
      · simp
        omega
    · simp
      omega
  rw [hlength, preciseText, numberFill, List.length_append, List.length_replicate]
  omega

/-- **The text of `number`**, whatever it is put to: the sign, the prefix and the digits, filled up
with zeros to the precision and with spaces or zeros to the field width, on the side that the flags
say. -/
theorem number_layout {σ : Type} (S : Sink σ) (hb : 2 ≤ base) (hb' : base ≤ 36)
    (h : SizeInRange num base size precision type) (out : σ) :
    number S num base size precision type out
        = some (S.puts (numberLayout num base size precision type) out) ∧
      ((numberLayout num base size precision type).length : Int)
        = max size ((signText type num).length + (prefixText type base).length
            + max precision (digitText type base num).length) := by
  refine ⟨?_, numberLayout_length num base size precision type⟩
  rw [number_eq S num hb hb', numberText_eq h]

/-- The theorem for a negative number in hexadecimal. -/
theorem number_layout_hex :
    number (paperSink ⟨fun _ ↦ false, fun _ ↦ false⟩) (-255) 16 10 4
        { sign := true, special := true } ⟨fun _ ↦ 0, [], []⟩
      = some ((paperSink ⟨fun _ ↦ false, fun _ ↦ false⟩).puts
          (chrs [' ', ' ', ' ', '-', '0', 'x', '0', '0', 'f', 'f']) ⟨fun _ ↦ 0, [], []⟩) := by
  have hrange : SizeInRange (-255) 16 10 4 { sign := true, special := true } :=
    ⟨by decide, by decide, by decide +kernel⟩
  have htext : numberLayout (-255) 16 10 4 { sign := true, special := true }
      = chrs [' ', ' ', ' ', '-', '0', 'x', '0', '0', 'f', 'f'] := by decide +kernel
  rw [← htext]
  exact (number_layout _ (by decide) (by decide) hrange _).1

/-! ## Without width and precision -/

/-- A 64-bit number has at most 64 digits. -/
theorem digitChars_length_le {b : ℕ} (hb : 2 ≤ b) (large : Bool) (num : BitVec 64) :
    (digitChars large b num.toNat).length ≤ 64 := by
  rw [digitChars]
  split_ifs
  · simp
  · rw [List.length_map, Nat.digits_length_le_iff (by omega)]
    exact num.isLt.trans_le (Nat.pow_le_pow_left hb 64)

theorem digitText_length_le (hb : 2 ≤ base) (type : Flags) (num : BitVec 64) :
    (digitText type base num).length ≤ 64 := by
  have hmag : ∃ num' : BitVec 64, magnitude type num = num'.toNat := by
    rw [magnitude]
    split_ifs
    · by_cases hneg : num.toInt < 0
      · exact ⟨-num, (toNat_neg_natAbs hneg).symm⟩
      · exact ⟨num, (toNat_natAbs hneg).symm⟩
    · exact ⟨num, rfl⟩
  obtain ⟨num', hnum'⟩ := hmag
  rw [digitText, List.length_reverse, hnum']
  exact digitChars_length_le (by omega) type.large num'

theorem signText_length_le (type : Flags) (num : BitVec 64) : (signText type num).length ≤ 1 := by
  rw [signText]
  split_ifs <;> simp

theorem prefixText_length_le (type : Flags) (base : Int) : (prefixText type base).length ≤ 2 := by
  rw [prefixText]
  split_ifs <;> simp

/-- Without width and precision, nothing is filled up. -/
theorem numberText_narrow (hb : 2 ≤ base) (num : BitVec 64) (type : Flags) :
    numberText num base (-1) (-1) type
      = signText type num ++ prefixText type base ++ digitText type base num := by
  have hdigits := digitText_length_le hb type num
  have hsign := signText_length_le type num
  have hprefix := prefixText_length_le type base
  have hloops : sizeLoops type ≤ 3 := by
    rw [sizeLoops]
    split_ifs <;> decide
  have hfill : numberFill num base (-1) (-1) type < 0 ∧
      -68 ≤ numberFill num base (-1) (-1) type := by
    rw [numberFill]
    omega
  rw [numberText_eq ⟨by decide, by decide, by omega⟩, numberLayout, preciseText,
    Int.toNat_of_nonpos hfill.1.le, Int.toNat_of_nonpos (by omega)]
  simp

end PastaOS
