import Mathlib.Data.List.GetD
import PastaOS.Printf.Field
import PastaOS.Printf.Number

/-!
# What ISO C defines

`isoNumber` is the text that ISO C defines for an integer conversion: the rules for signs, digits,
prefixes and padding, one definition each.  A flag that has no meaning for a conversion changes
nothing.

What `number` prints is almost it.  It pads with zeros although there is a precision, it has a digit
for every zero, it prints a prefix without looking at the digits, and it runs out of the range of
`int` for the largest precisions; `Z` has no signed values.  `%s` makes zero of a negative
precision.  `iso_iff` says for which directives none of this shows; a qualifier makes no difference
to `%c` and `%s`.
-/

set_option autoImplicit false

namespace PastaOS

/-! ## The text that ISO C defines -/

/-- The sign: of a negative number always, of another one if a flag asks for it. -/
def isoSign (flags : Flags) (v : Int) : List Byte :=
  if ¬ flags.sign then []
  else if v < 0 then [chr '-']
  else if flags.plus then [chr '+']
  else if flags.space then [chr ' ']
  else []

/-- The digits: at least as many as the precision says, and at least one if there is none.  Zero has
no digits of its own. -/
def isoDigits (flags : Flags) (base : ℕ) (precision : Option ℕ) (n : ℕ) : List Byte :=
  ((Nat.digits base n).map (digitChar flags.large)).reverse.leftpad (precision.getD 1) (chr '0')

/-- The alternative form: an octal number begins with a zero, a hexadecimal number other than zero
with `0x`. -/
def isoPrefix (flags : Flags) (base : ℕ) (precision : Option ℕ) (n : ℕ) : List Byte :=
  if ¬ flags.special then []
  else if base = 8 then
    if (isoDigits flags base precision n).head? = some (chr '0') then [] else [chr '0']
  else if base = 16 ∧ n ≠ 0 then [chr '0', if flags.large then chr 'X' else chr 'x']
  else []

/-- A number in its field, `front` being what stands before the zeros that fill the field up. -/
def fieldText (left zeros : Bool) (width : ℕ) (front digits : List Byte) : List Byte :=
  let fill := width - (front.length + digits.length)
  if left then front ++ digits ++ List.replicate fill (chr ' ')
  else if zeros then front ++ List.replicate fill (chr '0') ++ digits
  else List.replicate fill (chr ' ') ++ front ++ digits

/-- What stands before the digits. -/
def isoFront (flags : Flags) (base : ℕ) (precision : Option ℕ) (v : Int) : List Byte :=
  isoSign flags v ++ isoPrefix flags base precision v.natAbs

/-- The text of an integer conversion.  The flag `0` is ignored when there is a precision. -/
def isoNumber (flags : Flags) (base width : ℕ) (precision : Option ℕ) (v : Int) : List Byte :=
  fieldText flags.left (flags.zeropad && precision.isNone) width (isoFront flags base precision v)
    (isoDigits flags base precision v.natAbs)

/-- The value of an integer argument: of the type the qualifier says, `Z` being a `size_t` or the
signed type of its size. -/
def isoValue (qualifier : Qualifier) (sign : Bool) (args : Args) : Int :=
  match qualifier with
  | .none | .l | .Z => if sign then args.head.toInt else args.head.toNat
  | .h => if sign then (args.head.setWidth 16).toInt else (args.head.setWidth 16).toNat
  | .L =>
    let num : BitVec 64 := (args.tail.head ++ args.head : BitVec (32 + 32))
    if sign then num.toInt else num.toNat

/-- An integer conversion. -/
structure IsoConversion where
  /-- The base of its digits. -/
  base : ℕ
  /-- Whether its argument is signed. -/
  signed : Bool
  /-- Whether its letters are capitals. -/
  large : Bool
  deriving DecidableEq

/-- The integer conversions. -/
def isoConversion (c : Byte) : Option IsoConversion :=
  if c = chr 'd' ∨ c = chr 'i' then some ⟨10, true, false⟩
  else if c = chr 'u' then some ⟨10, false, false⟩
  else if c = chr 'o' then some ⟨8, false, false⟩
  else if c = chr 'x' then some ⟨16, false, false⟩
  else if c = chr 'X' then some ⟨16, false, true⟩
  else none

/-- The flags, those of the conversion included. -/
def Written.isoFlags (w : Written) (k : IsoConversion) (args : Args) : Flags :=
  { w.flagSet with left := w.left args, sign := k.signed, large := k.large }

/-- The precision; a negative one counts as omitted. -/
def Written.isoPrecision (w : Written) (args : Args) : Option ℕ :=
  (w.precisionValue args).bind fun v ↦ if v < 0 then none else some v.toNat

/-! ## Lengths and zeros -/

theorem fieldText_length (left zeros : Bool) (width : ℕ) (front digits : List Byte) :
    (fieldText left zeros width front digits).length
      = max width (front.length + digits.length) := by
  rw [fieldText]
  split_ifs
  · simp
    omega
  · simp
    omega
  · simp
    omega

/-- The zeros in a field are those of its two parts and those it is filled up with. -/
theorem fieldText_count (left zeros : Bool) (width : ℕ) (front digits : List Byte) :
    (fieldText left zeros width front digits).count (chr '0')
      = front.count (chr '0') + digits.count (chr '0')
        + if zeros && !left then width - (front.length + digits.length) else 0 := by
  have hspace (n : ℕ) : (List.replicate n (chr ' ')).count (chr '0') = 0 := by
    rw [List.count_replicate]
    simp [chr]
  have hzero (n : ℕ) : (List.replicate n (chr '0')).count (chr '0') = n := List.count_replicate_self
  rw [fieldText]
  cases left
  · cases zeros
    · simp [hspace]
    · simp [hzero]
      omega
  · simp [hspace]

theorem isoDigits_zero (flags : Flags) (base : ℕ) (precision : Option ℕ) :
    isoDigits flags base precision 0 = List.replicate (precision.getD 1) (chr '0') := by
  simp [isoDigits, List.leftpad]

/-- The first digit of a number is not a zero. -/
theorem isoDigits_head (flags : Flags) {base n : ℕ} (hb : 2 ≤ base) (hb' : base ≤ 36) (hn : n ≠ 0) :
    (isoDigits flags base none n).head? ≠ some (chr '0') := by
  have hne := Nat.digits_ne_nil_iff_ne_zero (b := base).mpr hn
  have hpos := List.length_pos_of_ne_nil hne
  have hlast : (Nat.digits base n).getLast hne < 36 :=
    (Nat.digits_lt_base (by omega) (List.getLast_mem hne)).trans_le hb'
  have hzero : ∀ large, ∀ d < 36, digitChar large d = chr '0' → d = 0 := by decide +kernel
  have hfill : 1 - (Nat.digits base n).length = 0 := by omega
  have hdigits : isoDigits flags base none n
      = ((Nat.digits base n).map (digitChar flags.large)).reverse := by
    simp [isoDigits, List.leftpad, hfill]
  rw [hdigits, List.head?_reverse, List.getLast?_map, List.getLast?_eq_some_getLast hne,
    Option.map_some]
  intro h
  exact Nat.getLast_digit_ne_zero base hn (hzero _ _ hlast (Option.some.inj h))

/-! ## What `number` prints -/

section Number

variable {flags : Flags} {num : BitVec 64} {base width : ℕ} {v size p : Int} {precision : Option ℕ}

/-- The precision that `number` is called with; whether it is 0 or -1 makes no difference. -/
def PrecisionIs (precision : Option ℕ) (p : Int) : Prop :=
  match precision with
  | none => p ≤ 0
  | some m => p = m

/-- The number that is printed. -/
def ValueIs (flags : Flags) (num : BitVec 64) (v : Int) : Prop :=
  v = if flags.sign then num.toInt else num.toNat

theorem signText_eq_isoSign (hv : ValueIs flags num v) : signText flags num = isoSign flags v := by
  rw [signText, isoSign, hv]
  cases flags.sign <;> rfl

theorem magnitude_eq_natAbs (hv : ValueIs flags num v) : magnitude flags num = v.natAbs := by
  rw [magnitude, hv]
  split_ifs <;> rfl

theorem preciseText_length (flags : Flags) (base p : Int) (num : BitVec 64) :
    ((preciseText flags base p num).length : Int) = max p (digitText flags base num).length := by
  rw [preciseText, List.length_append, List.length_replicate]
  omega

/-- The layout is a number in a field. -/
theorem numberLayout_field (hsize : size = width ∨ width = 0 ∧ size = -1) :
    numberLayout num base size p flags = fieldText flags.left flags.zeropad width
      (signText flags num ++ prefixText flags base) (preciseText flags base p num) := by
  have hlen := preciseText_length flags base p num
  have hfill : (numberFill num base size p flags).toNat = width
      - ((signText flags num ++ prefixText flags base).length
        + (preciseText flags base p num).length) := by
    rw [numberFill, List.length_append]
    omega
  rw [numberLayout, fieldText, hfill]
  cases hleft : flags.left
  · cases hzero : flags.zeropad
    · simp
    · simp [-List.replicate_append_replicate]
  · simp

/-- **The digits** are those of ISO C, but for a zero with the precision 0. -/
theorem preciseText_eq_isoDigits (hv : ValueIs flags num v) (hp : PrecisionIs precision p)
    (h : v = 0 → precision ≠ some 0) :
    preciseText flags base p num = isoDigits flags base precision v.natAbs := by
  rw [preciseText, digitText, magnitude_eq_natAbs hv, digitChars, Int.toNat_natCast]
  by_cases hn : v.natAbs = 0
  · have hv0 : v = 0 := Int.natAbs_eq_zero.mp hn
    have hfill : (p - 1).toNat + 1 = precision.getD 1 := by
      cases precision with
      | none =>
        have hp : p ≤ 0 := hp
        rw [Option.getD_none]
        omega
      | some m =>
        have hp : p = m := hp
        have hm : m ≠ 0 := fun hm ↦ h hv0 (congrArg some hm)
        rw [Option.getD_some]
        omega
    rw [if_pos hn, hn, isoDigits_zero, ← hfill, List.replicate_succ']
    simp
  · have hpos := List.length_pos_of_ne_nil (Nat.digits_ne_nil_iff_ne_zero (b := base).mpr hn)
    have hfill : (p - (Nat.digits base v.natAbs).length).toNat
        = precision.getD 1 - (Nat.digits base v.natAbs).length := by
      cases precision with
      | none =>
        have hp : p ≤ 0 := hp
        rw [Option.getD_none]
        omega
      | some m =>
        have hp : p = m := hp
        rw [Option.getD_some]
        omega
    rw [if_neg hn, List.length_reverse, List.length_map, hfill, isoDigits, List.leftpad,
      List.length_reverse, List.length_map]

theorem prefixText_natCast (flags : Flags) (base : ℕ) : prefixText flags base
    = if flags.special ∧ base = 8 then [chr '0']
      else if flags.special ∧ base = 16 then [chr '0', if flags.large then chr 'X' else chr 'x']
      else [] := by
  have h8 : (base : Int) = 8 ↔ base = 8 := by omega
  have h16 : (base : Int) = 16 ↔ base = 16 := by omega
  simp only [prefixText, h8, h16]

/-- **The prefix** is that of ISO C, but for octal digits that begin with a zero and for a zero in
hexadecimal. -/
theorem prefixText_eq_isoPrefix
    (octal : flags.special = true → base = 8 →
      (isoDigits flags base precision v.natAbs).head? ≠ some (chr '0'))
    (hex : flags.special = true → base = 16 → v ≠ 0) :
    prefixText flags base = isoPrefix flags base precision v.natAbs := by
  rw [prefixText_natCast, isoPrefix]
  by_cases hspecial : flags.special = true
  · by_cases hb : base = 8
    · simp [hspecial, hb, hb ▸ octal hspecial hb]
    · by_cases hb' : base = 16
      · simp [hspecial, hb', hex hspecial hb']
      · simp [hspecial, hb, hb']
  · simp [hspecial]

/-- Where `number` keeps to the rules of ISO C. -/
structure IsoRules (flags : Flags) (base width : ℕ) (precision : Option ℕ) (v : Int) : Prop where
  /-- A precision does not make `number` ignore the flag `0`: there must be nothing to fill up. -/
  zeroFlag : flags.zeropad = true → flags.left = false → precision ≠ none →
    width ≤ (isoFront flags base precision v).length
      + (isoDigits flags base precision v.natAbs).length
  /-- Zero always has a digit: it must not have the precision 0. -/
  zeroValue : v = 0 → precision ≠ some 0
  /-- Octal digits always have a prefix: they must not begin with a zero.  Among the zeros that fill
  a field up, one more does not show. -/
  octal : flags.special = true → base = 8 →
    (isoDigits flags base precision v.natAbs).head? ≠ some (chr '0') ∨
      v = 0 ∧ precision = none ∧ flags.zeropad = true ∧ flags.left = false ∧ 2 ≤ width
  /-- Hexadecimal digits always have one: the number must not be zero. -/
  hex : flags.special = true → base = 16 → v ≠ 0

/-- Under these rules the code puts before the digits what ISO C asks for. -/
theorem front_eq_isoFront (hv : ValueIs flags num v)
    (octal : flags.special = true → base = 8 →
      (isoDigits flags base precision v.natAbs).head? ≠ some (chr '0'))
    (hex : flags.special = true → base = 16 → v ≠ 0) :
    signText flags num ++ prefixText flags base = isoFront flags base precision v := by
  rw [isoFront, signText_eq_isoSign hv, prefixText_eq_isoPrefix octal hex]

/-- **The rules are enough** for the layout to be the one of ISO C. -/
theorem numberLayout_of_rules (hsize : size = width ∨ width = 0 ∧ size = -1)
    (hv : ValueIs flags num v) (hp : PrecisionIs precision p)
    (hunsigned : base = 8 → flags.sign = false)
    (h : IsoRules flags base width precision v) :
    numberLayout num base size p flags = isoNumber flags base width precision v := by
  have hdigits : preciseText flags base p num = isoDigits flags base precision v.natAbs :=
    preciseText_eq_isoDigits hv hp h.zeroValue
  rw [numberLayout_field hsize, isoNumber, hdigits]
  by_cases hoctal : flags.special = true → base = 8 →
      (isoDigits flags base precision v.natAbs).head? ≠ some (chr '0')
  · rw [front_eq_isoFront hv hoctal h.hex]
    -- with a precision, the zeros are none
    cases hleft : flags.left
    · cases hzero : flags.zeropad
      · rfl
      · cases precision with
        | none => rfl
        | some m =>
          have hfill := h.zeroFlag hzero hleft (by simp)
          have hnone : width - ((isoFront flags base (some m) v).length
              + (isoDigits flags base (some m) v.natAbs).length) = 0 := by omega
          simp [fieldText, hnone]
    · simp [fieldText]
  · push Not at hoctal
    obtain ⟨hspecial, h8, hhead⟩ := hoctal
    obtain ⟨hv0, hnone, hzero, hleft, hwidth⟩ :=
      (h.octal hspecial h8).resolve_left (not_not.mpr hhead)
    subst hv0 hnone h8
    have hsign : isoSign flags 0 = [] := if_pos (by simp [hunsigned rfl])
    have hpre : prefixText flags 8 = [chr '0'] := if_pos ⟨hspecial, rfl⟩
    have hnone : isoPrefix flags 8 none 0 = [] := by
      rw [isoPrefix, if_neg (not_not.mpr hspecial), if_pos rfl]
      exact if_pos hhead
    have hzeros : List.replicate (width - 1) (chr '0')
        = chr '0' :: List.replicate (width - 2) (chr '0') := by
      rw [← List.replicate_succ]
      congr 1
      omega
    rw [signText_eq_isoSign hv, isoFront, hsign]
    simp [fieldText, hleft, hzero, hpre, hnone, isoDigits_zero, hzeros]

/-- The prefix of ISO C is that of `number`, or there is none. -/
theorem isoPrefix_cases (flags : Flags) (base : ℕ) (precision : Option ℕ) (n : ℕ) :
    isoPrefix flags base precision n = [] ∨
      isoPrefix flags base precision n = prefixText flags base := by
  rw [prefixText_natCast, isoPrefix]
  split_ifs <;> simp_all

theorem mem_fieldText {left zeros : Bool} {front digits : List Byte} {c : Byte}
    (h : c ∈ fieldText left zeros width front digits) :
    c ∈ front ∨ c ∈ digits ∨ c = chr ' ' ∨ c = chr '0' := by
  rw [fieldText] at h
  split_ifs at h
  all_goals
    simp only [List.mem_append, List.mem_replicate] at h
    tauto

theorem mem_fieldText_front {left zeros : Bool} {front digits : List Byte} {c : Byte}
    (h : c ∈ front) : c ∈ fieldText left zeros width front digits := by
  rw [fieldText]
  split_ifs <;> simp [h]

/-- The letter of the prefix is no letter of a sign. -/
theorem not_mem_isoSign (flags : Flags) (v : Int) :
    (if flags.large then chr 'X' else chr 'x') ∉ isoSign flags v := by
  rw [isoSign]
  split_ifs <;> decide

section Needed

variable (hsize : size = width ∨ width = 0 ∧ size = -1)
  (heq : numberLayout num base size p flags = isoNumber flags base width precision v)
include hsize heq

/-- In front of a zero in hexadecimal, an `x` shows. -/
theorem hex_of_eq : flags.special = true → base = 16 → v ≠ 0 := by
  rintro hspecial rfl rfl
  have hpre : prefixText flags 16 = [chr '0', if flags.large then chr 'X' else chr 'x'] := by
    simp [prefixText, hspecial]
  have hletter : (if flags.large then chr 'X' else chr 'x')
      ∈ numberLayout num (16 : ℕ) size p flags := by
    rw [numberLayout_field hsize]
    refine mem_fieldText_front (List.mem_append_right _ ?_)
    show _ ∈ prefixText flags 16
    simp [hpre]
  have hnone : isoPrefix flags 16 precision 0 = [] := by simp [isoPrefix]
  rw [heq, isoNumber] at hletter
  rcases mem_fieldText hletter with h | h | h | h
  · rw [isoFront, Int.natAbs_zero, hnone, List.append_nil] at h
    exact not_mem_isoSign flags 0 h
  · rw [Int.natAbs_zero, isoDigits_zero] at h
    have h := List.eq_of_mem_replicate h
    cases hlarge : flags.large <;> simp [hlarge, chr] at h
  · cases hlarge : flags.large <;> simp [hlarge, chr] at h
  · cases hlarge : flags.large <;> simp [hlarge, chr] at h

variable (hv : ValueIs flags num v)
include hv

/-- The zeros of a text and of the one that ISO C defines. -/
theorem count_of_eq :
    (prefixText flags base).count (chr '0') + (preciseText flags base p num).count (chr '0')
        + (if flags.zeropad && !flags.left then
            width - ((signText flags num ++ prefixText flags base).length
              + (preciseText flags base p num).length) else 0)
      = (isoPrefix flags base precision v.natAbs).count (chr '0')
        + (isoDigits flags base precision v.natAbs).count (chr '0')
        + (if (flags.zeropad && precision.isNone) && !flags.left then
            width - ((isoFront flags base precision v).length
              + (isoDigits flags base precision v.natAbs).length) else 0) := by
  rw [numberLayout_field hsize, isoNumber] at heq
  have hcount := congrArg (List.count (chr '0')) heq
  rw [fieldText_count, fieldText_count, signText_eq_isoSign hv, isoFront, List.count_append,
    List.count_append] at hcount
  rw [signText_eq_isoSign hv, isoFront]
  omega

/-- With the precision 0, a zero shows. -/
theorem zeroValue_of_eq : v = 0 → precision ≠ some 0 := by
  rintro rfl rfl
  have hcount := count_of_eq hsize heq hv
  have hpre : (isoPrefix flags base (some 0) 0).count (chr '0')
      ≤ (prefixText flags base).count (chr '0') := by
    rcases isoPrefix_cases flags base (some 0) 0 with h | h <;> simp [h]
  have hdigit : 0 < (preciseText flags base p num).count (chr '0') := by
    rw [List.count_pos_iff, preciseText, digitText, magnitude_eq_natAbs hv]
    exact List.mem_append_right _ List.mem_cons_self
  have hnone : isoDigits flags base (some 0) 0 = [] := isoDigits_zero flags base (some 0)
  simp [hnone] at hcount
  omega

/-- In front of octal digits that begin with a zero, another one shows, but among the zeros of the
field. -/
theorem octal_of_eq (hp : PrecisionIs precision p) (hunsigned : base = 8 → flags.sign = false) :
    flags.special = true → base = 8 →
      (isoDigits flags base precision v.natAbs).head? ≠ some (chr '0') ∨
        v = 0 ∧ precision = none ∧ flags.zeropad = true ∧ flags.left = false ∧ 2 ≤ width := by
  have hcount := count_of_eq hsize heq hv
  have hdigits : preciseText flags base p num = isoDigits flags base precision v.natAbs :=
    preciseText_eq_isoDigits hv hp (zeroValue_of_eq hsize heq hv)
  rintro hspecial rfl
  refine or_iff_not_imp_left.mpr fun hhead ↦ ?_
  rw [not_not] at hhead
  have hpre : prefixText flags (8 : ℕ) = [chr '0'] := if_pos ⟨hspecial, rfl⟩
  have hnone : isoPrefix flags 8 precision v.natAbs = [] := by
    rw [isoPrefix, if_neg (not_not.mpr hspecial), if_pos rfl, if_pos hhead]
  have hsign : isoSign flags v = [] := if_pos (by simp [hunsigned rfl])
  have hpos : 0 < (isoDigits flags 8 precision v.natAbs).length := by
    rw [List.length_pos_iff]
    rintro hnil
    simp [hnil] at hhead
  rw [signText_eq_isoSign hv, isoFront, hsign, hpre, hnone, hdigits] at hcount
  -- without the zeros of the field, there is one too many
  cases hzero : flags.zeropad
  · simp [hzero] at hcount
  cases hleft : flags.left
  swap
  · simp [hleft] at hcount
  cases precision with
  | some m =>
    simp [hzero, hleft] at hcount
    omega
  | none =>
    simp [hzero, hleft] at hcount
    refine ⟨?_, rfl, rfl, rfl, by omega⟩
    by_contra hv0
    exact isoDigits_head flags (by decide) (by decide) (by omega) hhead

/-- **The rules are needed**: where one of them is broken, the texts do not have the same number of
zeros, or one of them has an `x`. -/
theorem rules_of_numberLayout (hp : PrecisionIs precision p)
    (hunsigned : base = 8 → flags.sign = false) : IsoRules flags base width precision v := by
  have hzeroValue := zeroValue_of_eq hsize heq hv
  have hex := hex_of_eq hsize heq
  have hoctal := octal_of_eq hsize heq hv hp hunsigned
  refine ⟨fun hzero hleft hsome ↦ ?_, hzeroValue, hoctal, hex⟩
  have hhead : flags.special = true → base = 8 →
      (isoDigits flags base precision v.natAbs).head? ≠ some (chr '0') := fun hspecial h8 ↦
    (hoctal hspecial h8).resolve_right fun h ↦ hsome h.2.1
  have hnot : precision.isNone = false := by
    cases precision with
    | none => exact absurd rfl hsome
    | some m => rfl
  -- the zeros of the field are too many
  have hcount := count_of_eq hsize heq hv
  rw [front_eq_isoFront hv hhead hex, prefixText_eq_isoPrefix hhead hex,
    preciseText_eq_isoDigits hv hp hzeroValue] at hcount
  simp [hzero, hleft, hnot] at hcount
  omega

end Needed

/-- **Out of the range of `int`**, the text is longer than the field and the number: a loop finds
something left that is not there. -/
theorem numberText_long (hb : 2 ≤ base) (hsize : -1 ≤ size) (hsize' : size ≤ 2 ^ 31)
    (hp : p < 2 ^ 31)
    (h : ¬ ((signText flags num).length + (prefixText flags base).length
        + (preciseText flags base p num).length : Int) + sizeLoops flags ≤ size + 1 + 2 ^ 31) :
    max size ((signText flags num).length + (prefixText flags base).length
        + (preciseText flags base p num).length)
      < ((numberText num base (i32 size) p flags).length : Int) := by
  have hsign := signText_length_le flags num
  have hpre := prefixText_length_le flags base
  have hdigits : (digitText flags base num).length ≤ 64 :=
    digitText_length_le (by omega) flags num
  have hlen := preciseText_length flags base p num
  obtain ⟨fill, hfill⟩ : ∃ fill, numberFill num base size p flags = fill := ⟨_, rfl⟩
  have hspec₀ := i32_spec fill
  have hspec₁ := i32_spec (min (i32 fill) 0 - 1)
  have hspec₂ := i32_spec (min (i32 (min (i32 fill) 0 - 1)) 0 - 1)
  rw [numberText_padded, numberPadded, hfill]
  rw [numberFill] at hfill
  rw [sizeLoops] at h
  cases hleft : flags.left
  · cases hzero : flags.zeropad
    · simp [hleft, hzero, sizeRest] at h ⊢
      omega
    · simp [hleft, hzero, sizeRest, -List.replicate_append_replicate] at h ⊢
      omega
  · simp [hleft, sizeRest] at h ⊢
    omega

/-- Where `number` prints what ISO C defines: it keeps to the rules, and what its loops count down
from the field width stays an `int`. -/
structure NumberIsIso (flags : Flags) (base width : ℕ) (size : Int) (precision : Option ℕ)
    (v : Int) :
    Prop extends IsoRules flags base width precision v where
  /-- The sign, the prefix and the digits, and a decrement for each loop but the last one. -/
  range : ((isoFront flags base precision v).length
      + (isoDigits flags base precision v.natAbs).length : Int) + sizeLoops flags
    ≤ size + 1 + 2 ^ 31

/-- `number` prints at least as much as ISO C says. -/
theorem isoLength_le (base : ℕ) (hv : ValueIs flags num v) (hp : PrecisionIs precision p) :
    (isoFront flags base precision v).length + (isoDigits flags base precision v.natAbs).length
      ≤ (signText flags num).length + (prefixText flags base).length
        + (preciseText flags base p num).length := by
  have hpre : (isoPrefix flags base precision v.natAbs).length
      ≤ (prefixText flags base).length := by
    rcases isoPrefix_cases flags base precision v.natAbs with h | h <;> simp [h]
  have hdigits : (isoDigits flags base precision v.natAbs).length
      ≤ (preciseText flags base p num).length := by
    by_cases hzero : v = 0 → precision ≠ some 0
    · rw [preciseText_eq_isoDigits hv hp hzero]
    · push Not at hzero
      obtain ⟨rfl, rfl⟩ := hzero
      simp [isoDigits_zero]
  rw [isoFront, List.length_append, signText_eq_isoSign hv]
  omega

/-- **`number` and ISO C.** -/
theorem numberText_iff (hsize : size = width ∨ width = 0 ∧ size = -1) (hwidth : width ≤ 2 ^ 31)
    (hv : ValueIs flags num v) (hp : PrecisionIs precision p) (hp' : p < 2 ^ 31) (hb : 2 ≤ base)
    (hunsigned : base = 8 → flags.sign = false) :
    numberText num base (i32 size) p flags = isoNumber flags base width precision v ↔
      NumberIsIso flags base width size precision v := by
  have hle := isoLength_le base hv hp
  have hlen := preciseText_length flags base p num
  have hloops : 1 ≤ sizeLoops flags ∧ sizeLoops flags ≤ 3 := by
    rw [sizeLoops]
    split_ifs <;> decide
  -- as long as the sizes are `int`s, the text is the layout
  have hlayout (h : ((signText flags num).length + (prefixText flags base).length
      + (preciseText flags base p num).length : Int) + sizeLoops flags ≤ size + 1 + 2 ^ 31) :
      numberText num base (i32 size) p flags = numberLayout num base size p flags := by
    refine numberText_of_least (by omega) ?_
    rw [numberFill]
    omega
  constructor
  · intro heq
    have hrange : ((signText flags num).length + (prefixText flags base).length
        + (preciseText flags base p num).length : Int) + sizeLoops flags ≤ size + 1 + 2 ^ 31 := by
      by_contra hlong
      have hlt := numberText_long hb (by omega) (by omega) hp' hlong
      rw [heq, isoNumber, fieldText_length] at hlt
      omega
    rw [hlayout hrange] at heq
    exact ⟨rules_of_numberLayout hsize heq hv hp hunsigned, by omega⟩
  · intro h
    have hrange := h.range
    rw [hlayout, numberLayout_of_rules hsize hv hp hunsigned h.toIsoRules]
    by_cases hoctal : flags.special = true → base = 8 →
        (isoDigits flags base precision v.natAbs).head? ≠ some (chr '0')
    · rw [← front_eq_isoFront hv hoctal h.hex, ← preciseText_eq_isoDigits hv hp h.zeroValue,
        List.length_append] at hrange
      omega
    · push Not at hoctal
      obtain ⟨hspecial, h8, hhead⟩ := hoctal
      obtain ⟨-, rfl, -⟩ := (h.octal hspecial h8).resolve_left (not_not.mpr hhead)
      have hsign := signText_length_le flags num
      have hpre := prefixText_length_le flags base
      have hdigits : (digitText flags base num).length ≤ 64 :=
    digitText_length_le (by omega) flags num
      have hp : p ≤ 0 := hp
      omega

end Number

/-! ## What is fetched -/

/-- A `size_t` is not negative as a `long long`. -/
theorem toInt_setWidth_word (w : Word) : (w.setWidth 64).toInt = w.toNat := by
  have hlt := w.isLt
  rw [BitVec.toInt_setWidth, Int.bmod_def]
  omega

/-- The number that is fetched is the value of the argument, but for the negative values of `Z`. -/
theorem fetchNum_value (q : Qualifier) (flags : Flags) (args : Args)
    (h : q = .Z → flags.sign = true → 0 ≤ args.head.toInt) :
    ValueIs flags (fetchNum q flags.sign args).1 (isoValue q flags.sign args) := by
  have hunsigned {w : ℕ} (x : BitVec w) (hw : w ≤ 64) :
      (x.toNat : Int) = (x.setWidth 64).toNat := by
    rw [BitVec.toNat_setWidth_of_le hw]
  have hsigned {w : ℕ} (x : BitVec w) (hw : w ≤ 64) : x.toInt = (x.signExtend 64).toInt :=
    (BitVec.toInt_signExtend_of_le hw).symm
  rw [ValueIs]
  cases hsign : flags.sign with
  | false =>
    cases q with
    | L => rfl
    | _ => exact hunsigned _ (by decide)
  | true =>
    cases q with
    | L => rfl
    | Z =>
      have hnonneg := h rfl hsign
      show args.head.toInt = (args.head.setWidth 64).toInt
      rw [toInt_setWidth_word]
      have hlt := args.head.isLt
      rw [BitVec.toInt_eq_toNat_cond] at hnonneg ⊢
      split_ifs at hnonneg ⊢ <;> omega
    | _ => exact hsigned _ (by decide)

/-- The words that `fetchNum` takes. -/
theorem fetchNum_args (q : Qualifier) (sign : Bool) (args : Args) :
    (fetchNum q sign args).2 = args.drop (if q = .L then 2 else 1) := by
  cases q <;> rfl

theorem digitChar_ne_minus (large : Bool) (d : ℕ) : digitChar large d ≠ chr '-' := by
  have hdigit : ∀ large, ∀ d < 36, digitChar large d ≠ chr '-' := by decide +kernel
  rcases Nat.lt_or_ge d 36 with hlt | hge
  · exact hdigit large d hlt
  · have hnone : digitChar large d = 0 := by
      rw [digitChar, List.getD_eq_default]
      cases large <;> exact hge
    rw [hnone]
    decide

/-- There is no minus sign in what `number` prints for a number that is not negative. -/
theorem not_mem_numberText {num : BitVec 64} (hnum : 0 ≤ num.toInt) (base size p : Int)
    (flags : Flags) : chr '-' ∉ numberText num base (i32 size) p flags := by
  have hspaces (n : ℕ) : chr '-' ∉ List.replicate n (chr ' ') := fun h ↦
    absurd (List.eq_of_mem_replicate h) (by decide)
  have hzeros (n : ℕ) : chr '-' ∉ List.replicate n (chr '0') := fun h ↦
    absurd (List.eq_of_mem_replicate h) (by decide)
  have hsign : chr '-' ∉ signText flags num := by
    rw [signText, if_neg (not_lt.mpr hnum)]
    split_ifs <;> decide
  have hpre : chr '-' ∉ prefixText flags base := by
    rw [prefixText]
    split_ifs <;> decide
  have hdigits : chr '-' ∉ digitText flags base num := by
    rw [digitText, digitChars, List.mem_reverse]
    split_ifs
    · decide
    · rw [List.mem_map]
      rintro ⟨d, -, hd⟩
      exact digitChar_ne_minus flags.large d hd
  rw [numberText_padded, numberPadded, preciseText]
  split_ifs <;> simp only [List.mem_append, List.not_mem_nil, hspaces, hzeros, hsign, hpre,
    hdigits, or_self, not_false_eq_true]

/-! ## What a directive prints -/

/-- The text ISO C defines for an integer conversion. -/
def Directive.isoText (d : Directive) (k : IsoConversion) (args : Args) : List Byte :=
  isoNumber (d.isoFlags k args) k.base (d.minWidth args) (d.isoPrecision args)
    (isoValue d.qualifier k.signed (args.drop d.spec.words))

/-- The numbers that are written in digits are `int`s. -/
structure Directive.IntRange (d : Directive) : Prop where
  /-- The field width. -/
  width : ∀ ds, d.width = .digits ds → decimal ds < 2 ^ 31
  /-- The precision. -/
  precision : ∀ ds, d.precision = some (.digits ds) → decimal ds < 2 ^ 31

/-- A pass over the directive takes its arguments, and prints `t`. -/
def PrintsNumber (acc : Access) (d : Directive) (x : LoopState Paper) (post t : List Byte) : Prop :=
  loopPass (paperSink acc) x = some ⟨cstr post,
    x.args.drop (d.spec.words + if d.qualifier = .L then 2 else 1),
    { x.out with text := x.out.text ++ t }⟩

/-- When an integer conversion prints what ISO C defines: the value that `Z` fetches is not
negative, and `number` keeps to the rules. -/
structure IntegerIsIso (d : Directive) (k : IsoConversion) (args : Args) : Prop where
  /-- `Z` fetches a `size_t`. -/
  size : d.qualifier = .Z → k.signed = true → 0 ≤ (d.arg args).toInt
  /-- The rest is a matter of `number`. -/
  number : NumberIsIso (d.isoFlags k args) k.base (d.minWidth args) (d.intWidth args)
    (d.isoPrecision args) (isoValue d.qualifier k.signed (args.drop d.spec.words))

/-- When `%s` prints the payload `t` as ISO C defines: if it fits, and a negative precision, which
counts as zero, makes no difference. -/
structure StringIsIso (d : Directive) (args : Args) (t : List Byte) : Prop where
  /-- The width and the length of the payload are `int`s. -/
  fits : StringFits d args t
  /-- For a negative precision, a field of spaces is all that is printed. -/
  negative : ∀ v ∈ d.precisionValue args, v < 0 →
    t.length ≤ d.minWidth args ∧ ∀ c ∈ t, c = chr ' '

/-- The conversions that ISO C has are those of the formatter. -/
theorem integerConversion_iso {c : Byte} {k : IsoConversion} (h : isoConversion c = some k)
    (d : Directive) (args : Args) :
    integerConversion (d.codeFlags args) c = some ((k.base : Int), d.isoFlags k args) := by
  unfold isoConversion at h
  split_ifs at h with hd hu ho hx hX
  all_goals obtain rfl := Option.some.inj h
  · rcases hd with rfl | rfl <;> rfl
  · subst hu; rfl
  · subst ho; rfl
  · subst hx; rfl
  · subst hX; rfl

theorem isoConversion_base {c : Byte} {k : IsoConversion} (h : isoConversion c = some k) :
    2 ≤ k.base ∧ (k.base = 8 → k.signed = false) := by
  unfold isoConversion at h
  split_ifs at h
  all_goals
    obtain rfl := Option.some.inj h
    decide

section Directive

variable (d : Directive) {args : Args}

theorem codeWidth_eq_intWidth : d.codeWidth args = i32 (d.intWidth args) := by
  rw [Written.codeWidth, Written.intWidth]
  split_ifs <;> rfl

theorem intWidth_cases : d.intWidth args = d.minWidth args ∨
    d.minWidth args = 0 ∧ d.intWidth args = -1 := by
  rw [Written.intWidth, Written.minWidth]
  by_cases habsent : d.width = .absent
  · exact .inr ⟨by rw [habsent]; rfl, if_pos habsent⟩
  · exact .inl (if_neg habsent)

theorem minWidth_le (h : d.IntRange) : d.minWidth args ≤ 2 ^ 31 := by
  rw [Written.minWidth]
  cases hw : d.width with
  | absent => exact Nat.zero_le _
  | digits ds => exact (h.width ds hw).le
  | star =>
    obtain ⟨hlo, hhi⟩ := isInt_toInt args.head
    show args.head.toInt.natAbs ≤ 2 ^ 31
    omega

theorem precisionValue_isInt (h : d.IntRange) {v : Int} (hv : v ∈ d.precisionValue args) :
    IsInt v := by
  rw [Written.precisionValue, Option.mem_def, Option.map_eq_some_iff] at hv
  obtain ⟨a, ha, rfl⟩ := hv
  cases a with
  | absent =>
    exact ⟨show -2 ^ 31 ≤ (0 : Int) by decide, show (0 : Int) < 2 ^ 31 by decide⟩
  | digits ds =>
    have hds := h.precision ds ha
    exact ⟨show -2 ^ 31 ≤ (decimal ds : Int) by omega, show (decimal ds : Int) < 2 ^ 31 by omega⟩
  | star => exact isInt_toInt _

/-- **The precision** is that of ISO C: a negative one becomes zero, and to a number this makes no
difference. -/
theorem codePrecision_is (h : d.IntRange) (args : Args) :
    PrecisionIs (d.isoPrecision args) (d.codePrecision args) ∧ d.codePrecision args < 2 ^ 31 := by
  rw [Written.isoPrecision, Written.codePrecision]
  cases hv : d.precisionValue args with
  | none => exact ⟨show (-1 : Int) ≤ 0 by decide, by decide⟩
  | some v =>
    obtain ⟨hlo, hhi⟩ := precisionValue_isInt d h hv
    rw [Option.bind_some, Option.elim_some, i32_of_range hlo hhi]
    refine ⟨?_, by omega⟩
    split_ifs with hneg
    · show max v 0 ≤ 0
      omega
    · show max v 0 = v.toNat
      omega

variable {k : IsoConversion} {acc : Access} {x : LoopState Paper} {post : List Byte}

/-- A pass over an integer conversion. -/
theorem Directive.loopPass_number (hx : x.fmt = cstr (chr '%' :: (d.text ++ post)))
    (hk : isoConversion d.conversion = some k) : loopPass (paperSink acc) x
      = some ⟨cstr post, x.args.drop (d.spec.words + if d.qualifier = .L then 2 else 1),
        { x.out with text := (x.out.text
          ++ numberText (fetchNum d.qualifier k.signed (x.args.drop d.spec.words)).1 k.base
            (d.codeWidth x.args) (d.codePrecision x.args) (d.isoFlags k x.args)) }⟩ := by
  have hs : d.conversion ≠ chr 's' := by intro hs; rw [hs] at hk; contradiction
  have hn : d.conversion ≠ chr 'n' := by intro hn; rw [hn] at hk; contradiction
  rw [d.loopPass_eq hx, convert_eq _ _ _ _ _ hs hn,
    convertText_integer (integerConversion_iso hk d x.args), paperSink_puts, Option.map_some,
    fetchNum_args, Stream'.drop_drop]
  rfl

/-- A number that is negative as a `ssize_t` has a sign, which is not printed. -/
theorem numberText_size_ne (hq : d.qualifier = .Z) (hsign : k.signed = true)
    (hneg : (d.arg args).toInt < 0) (base size p : Int) :
    numberText (fetchNum d.qualifier k.signed (args.drop d.spec.words)).1 base (i32 size) p
      (d.isoFlags k args) ≠ d.isoText k args := by
  have hfetch : (fetchNum d.qualifier k.signed (args.drop d.spec.words)).1
      = (d.arg args).setWidth 64 := by rw [hq]; rfl
  have hvalue : isoValue d.qualifier k.signed (args.drop d.spec.words) = (d.arg args).toInt := by
    rw [hq, hsign]
    rfl
  have hnonneg : 0 ≤ ((d.arg args).setWidth 64).toInt := by
    rw [toInt_setWidth_word]
    omega
  have hsigned : (d.isoFlags k args).sign = true := hsign
  have hminus : chr '-' ∈ isoSign (d.isoFlags k args) (d.arg args).toInt := by
    rw [isoSign, if_neg (not_not.mpr hsigned), if_pos hneg]
    exact List.mem_singleton_self _
  intro heq
  refine not_mem_numberText hnonneg base size p (d.isoFlags k args) ?_
  rw [← hfetch, heq, Directive.isoText, hvalue]
  exact mem_fieldText_front (List.mem_append_left _ hminus)

/-- **Integer conversions print what ISO C asks for** exactly under the rules. -/
theorem printsNumber_iff (hx : x.fmt = cstr (chr '%' :: (d.text ++ post))) (h : d.IntRange)
    (hk : isoConversion d.conversion = some k) :
    PrintsNumber acc d x post (d.isoText k x.args) ↔ IntegerIsIso d k x.args := by
  obtain ⟨hb, hunsigned⟩ := isoConversion_base hk
  obtain ⟨hp, hp'⟩ := codePrecision_is d h x.args
  rw [PrintsNumber, d.loopPass_number hx hk, codeWidth_eq_intWidth]
  simp only [Option.some.injEq, LoopState.mk.injEq, Paper.mk.injEq, List.append_cancel_left_eq,
    true_and, and_true]
  by_cases hsize : d.qualifier = .Z → k.signed = true → 0 ≤ (d.arg x.args).toInt
  · have hv := fetchNum_value d.qualifier (d.isoFlags k x.args) (x.args.drop d.spec.words) hsize
    refine (numberText_iff (intWidth_cases d) (minWidth_le d h) hv hp hp' hb hunsigned).trans ?_
    exact ⟨fun hnumber ↦ ⟨hsize, hnumber⟩, fun hiso ↦ hiso.number⟩
  · refine iff_of_false ?_ fun hiso ↦ hsize hiso.size
    push Not at hsize
    obtain ⟨hq, hsign, hneg⟩ := hsize
    exact numberText_size_ne d hq hsign hneg _ _ _

/-- A field without a character in it. -/
theorem stringText_nil_iff {flags : Flags} {w : ℕ} {fieldWidth : Int}
    (hw : fieldWidth = i32 w ∨ w = 0 ∧ fieldWidth = -1) (t : List Byte) :
    stringText flags fieldWidth [] = justify flags.left w t ↔
      w < 2 ^ 31 ∧ t.length ≤ w ∧ ∀ c ∈ t, c = chr ' ' := by
  have hspec := i32_spec w
  have hspec₁ := i32_spec (min fieldWidth 0 - 1)
  have hlen : i32 ([] : List Byte).length = 0 := rfl
  rw [stringText, hlen, List.take_nil, List.append_nil, stringLeft, stringRight, ← and_assoc]
  cases hleft : flags.left
  · simp only [Bool.not_false, if_true, List.replicate_append_replicate, replicate_eq_justify]
    refine and_congr_left fun _ ↦ ?_
    omega
  · simp only [Bool.not_true, Bool.false_eq_true, if_false, List.nil_append, replicate_eq_justify]
    refine and_congr_left fun _ ↦ ?_
    omega

/-- Of a string with a negative precision, no character is printed. -/
theorem printsString_negative_iff (hx : x.fmt = cstr (chr '%' :: (d.text ++ post)))
    (hs : d.conversion = chr 's') (hprec : d.codePrecision x.args = 0) (t : List Byte) :
    PrintsField acc d x post t ↔
      d.minWidth x.args < 2 ^ 31 ∧ t.length ≤ d.minWidth x.args ∧ ∀ c ∈ t, c = chr ' ' := by
  have hempty : IsPayload (paperSink acc) x.out (strOf (d.arg x.args)) (some 0) [] :=
    ⟨by simp, by simp [Str.Holds], by simp⟩
  have hpass := d.loopPass_string hx hs (n := some 0) hprec (by simp) hempty
  exact (printsField_iff d acc hpass).trans (stringText_nil_iff (d.codeWidth_eq x.args) t)

/-- **Strings are printed as ISO C asks for** exactly under the rules. -/
theorem printsString_iff (hx : x.fmt = cstr (chr '%' :: (d.text ++ post))) (h : d.IntRange)
    (hs : d.conversion = chr 's') {t : List Byte}
    (ht : IsPayload (paperSink acc) x.out (strOf (d.arg x.args)) (d.isoPrecision x.args) t) :
    PrintsField acc d x post t ↔ StringIsIso d x.args t := by
  rw [Written.isoPrecision] at ht
  cases hv : d.precisionValue x.args with
  | none =>
    rw [hv, Option.bind_none] at ht
    have hprec := d.codePrecision_eq (n := none) hv (by simp)
    refine (printsField_string_iff d acc hx hs hprec (by simp) ht).trans ?_
    exact ⟨fun hfits ↦ ⟨hfits, by simp [hv]⟩, StringIsIso.fits⟩
  | some v =>
    obtain ⟨hlo, hhi⟩ := precisionValue_isInt d h hv
    rw [hv, Option.bind_some] at ht
    by_cases hneg : v < 0
    · have hprec : d.codePrecision x.args = 0 := by
        rw [Written.codePrecision, hv, Option.elim_some, i32_of_range hlo hhi]
        omega
      refine (printsString_negative_iff d hx hs hprec t).trans ?_
      constructor
      · rintro ⟨hwidth, hlen, hspaces⟩
        exact ⟨⟨hwidth, .inl (hlen.trans_lt hwidth)⟩, fun _ _ _ ↦ ⟨hlen, hspaces⟩⟩
      · intro hiso
        exact ⟨hiso.fits.1, hiso.negative v hv hneg⟩
    · rw [if_neg hneg] at ht
      have hcast : d.precisionValue x.args = (some v.toNat).map Nat.cast := by
        rw [hv, Option.map_some, Int.toNat_of_nonneg (not_lt.mp hneg)]
      have hn : ∀ m ∈ some v.toNat, m < 2 ^ 31 := by
        rintro m ⟨⟩
        omega
      refine (printsField_string_iff d acc hx hs (d.codePrecision_eq hcast hn) hn ht).trans ?_
      refine ⟨fun hfits ↦ ⟨hfits, fun v' hv' hneg' ↦ ?_⟩, StringIsIso.fits⟩
      rw [hv] at hv'
      exact absurd (Option.some.inj hv' ▸ hneg') hneg

end Directive

/-- **ISO C.**  `%c` prints what ISO C defines if its width is below 2³¹, as it is but for `INT_MIN`
from a `*`; `%s` and the integer conversions do so exactly under the conditions that `StringIsIso`
and `IntegerIsIso` name. -/
theorem iso_iff (d : Directive) (acc : Access) {x : LoopState Paper} {post : List Byte}
    (hx : x.fmt = cstr (chr '%' :: (d.text ++ post))) (h : d.IntRange) :
    (d.conversion = chr 'c' → d.minWidth x.args < 2 ^ 31 →
      PrintsField acc d x post [(d.arg x.args).setWidth 8]) ∧
    (d.conversion = chr 's' → ∀ t,
      IsPayload (paperSink acc) x.out (strOf (d.arg x.args)) (d.isoPrecision x.args) t →
        (PrintsField acc d x post t ↔ StringIsIso d x.args t)) ∧
    ∀ k, isoConversion d.conversion = some k →
      (PrintsNumber acc d x post (d.isoText k x.args) ↔ IntegerIsIso d k x.args) := by
  refine ⟨fun hc hw ↦ ?_, fun hs t ht ↦ printsString_iff d hx h hs ht,
    fun k hk ↦ printsNumber_iff d hx h hk⟩
  exact (printsField_char_iff d acc hx hc (by omega)).mpr hw

/-- `"%+5d"`, from behind the `%` on. -/
def plusFive : Directive :=
  Written.directive ⟨[chr '+'], .digits [chr '5'], none, .none⟩ [] (chr 'd') (by decide)

/-- `"%05.3d"`, from behind the `%` on. -/
def zeroPrecise : Directive :=
  Written.directive ⟨[chr '0'], .digits [chr '5'], some (.digits [chr '3']), .none⟩ [] (chr 'd')
    (by decide)

/-- `"%Zd"`, from behind the `%` on. -/
def sizeSigned : Directive :=
  Written.directive ⟨[], .absent, none, .Z⟩ [chr 'Z'] (chr 'd') (by decide)

/-- The loop in front of a directive, with one argument for it. -/
def Directive.start (d : Directive) (w : Word) : LoopState Paper :=
  ⟨cstr (chr '%' :: (d.text ++ [])), [w] ++ₛ Stream'.const 0, ⟨hiMem, [], []⟩⟩

theorem plusFive_intRange : plusFive.IntRange where
  width := by rintro ds ⟨⟩; decide
  precision := by rintro ds ⟨⟩

theorem zeroPrecise_intRange : zeroPrecise.IntRange where
  width := by rintro ds ⟨⟩; decide
  precision := by rintro ds ⟨⟩; decide

theorem sizeSigned_intRange : sizeSigned.IntRange where
  width := by rintro ds ⟨⟩
  precision := by rintro ds ⟨⟩

/-- The theorem for `"%+5d"` and 42. -/
theorem iso_plusFive : PrintsNumber lowHigh plusFive (plusFive.start 42) []
    (chrs [' ', ' ', '+', '4', '2']) :=
  ((iso_iff plusFive lowHigh rfl plusFive_intRange).2.2 ⟨10, true, false⟩ rfl).mpr {
    size := by rintro ⟨⟩
    number := {
      zeroFlag := by rintro ⟨⟩
      zeroValue := by decide
      octal := by rintro ⟨⟩
      hex := by rintro ⟨⟩
      range := by decide } }

/-- **Two texts that are not.**  7 is `"  007"` for `"%05.3d"`, and a `size_t` that is -1 is `"-1"`
for `"%Zd"`. -/
theorem not_iso :
    ¬ PrintsNumber lowHigh zeroPrecise (zeroPrecise.start 7) [] (chrs [' ', ' ', '0', '0', '7']) ∧
    ¬ PrintsNumber lowHigh sizeSigned (sizeSigned.start (-1)) [] (chrs ['-', '1']) := by
  constructor
  · have htext : zeroPrecise.isoText ⟨10, true, false⟩ (zeroPrecise.start 7).args
        = chrs [' ', ' ', '0', '0', '7'] := by decide
    rw [← htext, printsNumber_iff zeroPrecise rfl zeroPrecise_intRange rfl]
    intro hiso
    exact absurd (hiso.number.zeroFlag rfl rfl (by decide)) (by decide)
  · have htext : sizeSigned.isoText ⟨10, true, false⟩ (sizeSigned.start (-1)).args
        = chrs ['-', '1'] := by decide
    rw [← htext, printsNumber_iff sizeSigned rfl sizeSigned_intRange rfl]
    intro hiso
    exact absurd (hiso.size rfl rfl) (by decide)

end PastaOS
